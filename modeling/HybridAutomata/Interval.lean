import HybridAutomata.Fault

/-!
# Intervals

An interval is a pair of bounds. Operations that could produce bounds in the wrong order go through
`Interval.make`, which refuses them with a fault; bounds are never exchanged. The arithmetic covers
the values of the operands: for products and quotients all four corners are looked at, since the
operands may change sign inside the interval.
-/

namespace HybridAutomata

open Scalar

/-- The numbers from `min` to `max`. -/
structure Interval (α : Type) where
  min : α
  max : α
deriving BEq

namespace Interval

variable {α : Type} [Scalar α]

/-- Bounds in order; everything this module makes from ordered bounds is ordered again. -/
def Ordered (i : Interval α) : Prop := i.min ≤ i.max

/-! ## Making intervals -/

/-- The interval with the given bounds, if they are in order. -/
@[inline] def make? (min max : α) : Option (Interval α) :=
  if min ≤ max then some ⟨min, max⟩ else none

/-- The interval with the given bounds, which must be in order. -/
@[inline] def make (min max : α) : Except (Fault α) (Interval α) :=
  if min ≤ max then .ok ⟨min, max⟩ else .error (.unordered min max)

/-- The interval that holds one value. -/
@[inline] def point (value : α) : Except (Fault α) (Interval α) := make value value

/-- The interval that holds zero alone. -/
def zero : Interval α := ⟨0, 0⟩

/-- All numbers. -/
def entire : Interval α := ⟨-infinity, infinity⟩

/-! ## Questions -/

@[inline] def width (i : Interval α) : α := i.max - i.min

@[inline] def middle (i : Interval α) : α := (i.min + i.max) / 2

def isPoint (i : Interval α) : Bool := i.min == i.max

def isBounded (i : Interval α) : Bool := isFinite i.min && isFinite i.max

@[inline] def contains (i : Interval α) (value : α) : Bool :=
  decide (i.min ≤ value) && decide (value ≤ i.max)

def containsInterval (i j : Interval α) : Bool :=
  decide (i.min ≤ j.min) && decide (j.max ≤ i.max)

/-- Two intervals share a point when neither lies wholly above the other. -/
def meets (i j : Interval α) : Bool := decide (i.min ≤ j.max) && decide (j.min ≤ i.max)

/-- Equal numbers, equal infinities among them, or numbers at most `tolerance` apart. -/
def isClose (tolerance a b : α) : Bool := a == b || decide (abs (a - b) ≤ tolerance)

/-- Both bounds agree up to `tolerance`. -/
def approxEq (i j : Interval α) (tolerance : α) : Bool :=
  isClose tolerance i.min j.min && isClose tolerance i.max j.max

/-! ## Hulls -/

/-- The smallest interval that contains both operands. -/
@[inline] def hull (i j : Interval α) : Interval α := ⟨lesser i.min j.min, greater i.max j.max⟩

/-- The smallest interval that contains the operand and a value. -/
@[inline] def hullPoint (i : Interval α) (value : α) : Interval α :=
  ⟨lesser i.min value, greater i.max value⟩

/-- The smallest interval that contains all the values, if there are any. -/
def enclosing : List α → Except (Fault α) (Option (Interval α))
  | [] => .ok none
  | value :: values => (point value).map fun i => some (values.foldl hullPoint i)

/-- The smallest interval that contains all the operands, if there are any. -/
def hullAll : List (Interval α) → Option (Interval α)
  | [] => none
  | i :: is => some (is.foldl hull i)

/-! ## Arithmetic -/

/-- Moves both bounds outwards by `amount`. A negative amount that empties the interval is a
fault. -/
def bloat (i : Interval α) (amount : α) : Except (Fault α) (Interval α) :=
  make (i.min - amount) (i.max + amount)

/-- The image under a function that preserves order. -/
@[inline] def mapMonotone (f : α → α) (i : Interval α) : Except (Fault α) (Interval α) :=
  make (f i.min) (f i.max)

def add (i j : Interval α) : Except (Fault α) (Interval α) := make (i.min + j.min) (i.max + j.max)

def sub (i j : Interval α) : Except (Fault α) (Interval α) := make (i.min - j.max) (i.max - j.min)

def neg (i : Interval α) : Except (Fault α) (Interval α) := make (-i.max) (-i.min)

/-- The product of two bounds; zero times infinity is zero, as a bound is a limit of finite
values. -/
def mulBound (a b : α) : α := if a == 0 || b == 0 then 0 else a * b

/-- The interval from the least to the greatest of the corners that are defined. -/
def cornerHull (corners : List α) : Except (Fault α) (Interval α) :=
  make (corners.foldl lesser infinity) (corners.foldl greater (-infinity))

def mul (i j : Interval α) : Except (Fault α) (Interval α) :=
  cornerHull
    [mulBound i.min j.min, mulBound i.min j.max, mulBound i.max j.min, mulBound i.max j.max]

/-- The quotient; all numbers when the divisor contains zero. -/
def div (i j : Interval α) : Except (Fault α) (Interval α) :=
  if j.contains 0 then .ok entire
  else cornerHull [i.min / j.min, i.min / j.max, i.max / j.min, i.max / j.max]

/-- The product with a number. -/
def scale (i : Interval α) (factor : α) : Except (Fault α) (Interval α) := do
  i.mul (← point factor)

/-- The written form, `[min, max]`. -/
def text [DecimalText α] (i : Interval α) : String :=
  "[" ++ decimal i.min ++ ", " ++ decimal i.max ++ "]"

/-! ## What making an interval establishes -/

@[simp] theorem make_eq_ok_iff {min max : α} {i : Interval α} :
    make min max = .ok i ↔ min ≤ max ∧ i = ⟨min, max⟩ := by
  unfold make; split <;> simp_all [eq_comm]

theorem ordered_of_make {min max : α} {i : Interval α} (h : make min max = .ok i) : i.Ordered := by
  obtain ⟨hle, rfl⟩ := make_eq_ok_iff.mp h
  exact hle

end Interval

end HybridAutomata
