import HybridAutomata.Failure
import HybridAutomata.Names

/-!
# Continuization

A controller reads the state with a period `P` and holds its output in between. Continuization
replaces the held output by the continuous law it samples and adds what the two can differ by. The
difference is at most `P` times the rate of the law, so it is bounded window by window: the rate is
estimated over a window of time, the estimate is widened by a bloat amount to `K`, and the sampled
variable deviates from its law by a number in `[-P, 0] * K`.

This module holds the parameters, the windows, and the names of the modes that are made for them.
-/

namespace HybridAutomata

/-- What is estimated over a window. -/
inductive RangeTarget where
  /-- The rate of the sampled variable. -/
  | derivative
  /-- Its value. -/
  | value
deriving DecidableEq, Repr

/-- What to continuize, and how. -/
structure Continuization (α : Type) where
  sampled : String
  /-- The variable that measures time; found or introduced if not given. -/
  clock : Option String := none
  period : α
  /-- Whether estimates also start at the star points of the start box. -/
  blowup : Bool := false
  /-- The upper ends of the windows. -/
  breakpoints : List α
  /-- One amount per window. -/
  bloats : List α
  target : RangeTarget := .derivative

/-- The range installed for a window of a mode. -/
structure WindowRange (α : Type) where
  mode : String
  /-- The mode made for the window. -/
  windowMode : String
  window : Interval α
  /-- The estimate, over all start points. -/
  raw : Interval α
  /-- The estimate, widened. -/
  bloated : Interval α

namespace Continuization

open Scalar

variable {α : Type} [Scalar α]

/-- The first breakpoint that is not finite or not above the one before it. -/
def misplaced? (previous : α) : List α → Option α
  | [] => none
  | b :: bs => if isFinite b && decide (previous < b) then misplaced? b bs else some b

/-- Checks the parameters. -/
def check (c : Continuization α) : Except (ParameterError α) Unit :=
  if c.sampled.isEmpty then .error .noVariable
  else if !isPositive c.period then .error (.periodNotPositive c.period)
  else if c.breakpoints.isEmpty then .error .noBreakpoints
  else
    match misplaced? 0 c.breakpoints with
    | some b => .error (.breakpointsNotIncreasing b)
    | none =>
        if c.bloats.length ≠ c.breakpoints.length then
          .error (.bloatCount c.bloats.length c.breakpoints.length)
        else
          match c.bloats.find? (!isNonNegative ·) with
          | some b => .error (.bloatNegative b)
          | none => .ok ()

/-- The intervals between neighbouring breakpoints, the first from `lower` on. -/
def windowsFrom (lower : α) : List α → List (Interval α)
  | [] => []
  | b :: bs => ⟨lower, b⟩ :: windowsFrom b bs

/-- The windows, from time zero to the last breakpoint. -/
def windows (c : Continuization α) : List (Interval α) := windowsFrom 0 c.breakpoints

omit [Scalar α] in
theorem length_windowsFrom (lower : α) (bs : List α) :
    (windowsFrom lower bs).length = bs.length := by
  induction bs generalizing lower with
  | nil => rfl
  | cons b bs ih => simp [windowsFrom, ih]

@[simp] theorem length_windows (c : Continuization α) :
    c.windows.length = c.breakpoints.length :=
  length_windowsFrom 0 c.breakpoints

end Continuization

/-- The mode for a window: the first one keeps the name. -/
def windowName (mode : String) (index : Nat) : String := numbered mode index

/-- The mode entered when the estimate of a window is left downwards. -/
def lowerErrorName (windowMode : String) : String := windowMode ++ "_error_lower"

/-- The mode entered when the estimate of a window is left upwards. -/
def upperErrorName (windowMode : String) : String := windowMode ++ "_error_upper"

end HybridAutomata
