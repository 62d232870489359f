import HybridAutomata.Scalar

/-!
# Faults

A fault is a broken precondition of an arithmetic operation: the caller asked for an interval whose
bounds are in the wrong order, or for a grid with no step. It is kept apart from the failures that
a model or a parameter can cause, because a correct caller never meets one.
-/

namespace HybridAutomata

/-- A broken precondition. -/
inductive Fault (α : Type) where
  /-- An interval was asked for whose lower bound is not below or at its upper bound. -/
  | unordered (min max : α)
  /-- A time grid was asked for without a positive largest step. -/
  | stepNotPositive
  /-- An exponent's opposite does not fit in 32 bits. -/
  | negationOverflow

/-- The wording of a fault. -/
def Fault.message {α : Type} [DecimalText α] : Fault α → String
  | .unordered min max =>
      "Interval bounds must satisfy min <= max, got [" ++ decimal min ++ ", " ++ decimal max ++ "]"
  | .stepNotPositive => "max_step must be positive"
  | .negationOverflow => "attempt to negate with overflow"

end HybridAutomata
