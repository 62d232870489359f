import HybridAutomata.Dynamics.VectorField

/-!
# Integration steps

The classic method of Runge and Kutta of fourth order: the rate is sampled at the start, twice in
the middle and at the end of a step, and the weighted mean of the four samples carries the state
over the step.
-/

namespace HybridAutomata

namespace VectorField

variable {α : Type} [Scalar α]

/-- A state moved along a rate for a time. -/
def moved (state rate : List α) (time : α) : List α :=
  List.zipWith (fun x r => x + time * r) state rate

/-- The coordinate after a step, from the four sampled rates. -/
def weighted (step x k₁ k₂ k₃ k₄ : α) : α :=
  x + step / 6 * (k₁ + 2 * k₂ + 2 * k₃ + k₄)

/-- All coordinates after a step. -/
def weightedAll (step : α) : List α → List α → List α → List α → List α → List α
  | x :: xs, k₁ :: ks₁, k₂ :: ks₂, k₃ :: ks₃, k₄ :: ks₄ =>
      weighted step x k₁ k₂ k₃ k₄ :: weightedAll step xs ks₁ ks₂ ks₃ ks₄
  | _, _, _, _, _ => []

/-- The state after one step. -/
def advance (f : VectorField α) (state : List α) (step : α) : Except (EvalError α) (List α) := do
  let k₁ ← f.derivative state
  let k₂ ← f.derivative (moved state k₁ (step / 2))
  let k₃ ← f.derivative (moved state k₂ (step / 2))
  let k₄ ← f.derivative (moved state k₃ step)
  return weightedAll step state k₁ k₂ k₃ k₄

end VectorField

end HybridAutomata
