import HybridAutomata.Fault

/-!
# Time grids

A grid of times for integration: it begins at zero, meets every positive stop exactly, and between
two neighbouring stops it is as coarse as a largest step allows, with equal distances.
-/

namespace HybridAutomata

open Scalar

namespace TimeGrid

variable {α : Type} [Scalar α]

/-- The largest number of parts that a distance is split into. -/
def maxParts : Int := 0xFFFFFFFFFFFFFFFF

/-- The number of equal parts of a distance, none wider than a step; at least one. -/
def parts (distance step : α) : Nat :=
  (wholePart 0 maxParts (greater (ceil (distance / step)) 1)).toNat

/-- The times strictly between two stops. -/
def between (start stop step : α) : List α :=
  let n := parts (stop - start) step
  let width := (stop - start) / ofInt n
  (List.range (n - 1)).map fun (k : Nat) => start + ofInt (k + 1 : Nat) * width

/-- The times behind `start`, up to the last stop. -/
def after (start step : α) : List α → List α
  | [] => []
  | stop :: stops => between start stop step ++ stop :: after stop step stops

/-- The positive stops in ascending order, each once. -/
def ordered (stops : List α) : List α :=
  ((stops.filter fun t => decide (0 < t)).mergeSort fun a b => decide (a ≤ b)).eraseReps

end TimeGrid

/-- The times from zero to the largest stop, at most `step` apart. -/
def timeGrid {α : Type} [Scalar α] (stops : List α) (step : α) : Except (Fault α) (List α) :=
  if 0 < step then .ok (0 :: TimeGrid.after 0 step (TimeGrid.ordered stops))
  else .error .stepNotPositive

end HybridAutomata
