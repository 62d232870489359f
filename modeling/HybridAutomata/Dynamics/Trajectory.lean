import HybridAutomata.Dynamics.RungeKutta

/-!
# Trajectories

The states that a start leads to, at the times of a grid. A trajectory can break off: when a rate
has no value, or when a coordinate stops being finite. What was reached until then is kept.
-/

namespace HybridAutomata

/-- A state and the time at which it is reached. -/
structure Sample (α : Type) where
  time : α
  state : List α

/-- The samples of a trajectory in the order of time, and why it breaks off, if it does. -/
structure Trajectory (α : Type) where
  samples : List (Sample α)
  failure : Option (Failure α) := none

namespace Trajectory

variable {α : Type}

/-- The state at the end. -/
def finalState (t : Trajectory α) : Except (Failure α) (List α) :=
  match t.failure with
  | some failure => .error failure
  | none => .ok ((t.samples.getLast?.map Sample.state).getD [])

end Trajectory

namespace VectorField

variable {α : Type} [Scalar α]

/-- The sample at a later time. -/
def next (f : VectorField α) (s : Sample α) (time : α) : Except (Failure α) (Sample α) := do
  let state ← f.advance s.state (time - s.time)
  if state.all Scalar.isFinite then return ⟨time, state⟩
  else throw (.backend (.diverged time))

/-- Follows the field from a sample along later times. The samples so far are `reached`, the latest
first. -/
def follow (f : VectorField α) (reached : List (Sample α)) (s : Sample α) : List α → Trajectory α
  | [] => ⟨(s :: reached).reverse, none⟩
  | time :: times =>
      match f.next s time with
      | .ok s' => follow f (s :: reached) s' times
      | .error failure => ⟨(s :: reached).reverse, some failure⟩

/-- A start state has as many coordinates as the field. -/
def checkStart (f : VectorField α) (start : List α) : Except (Failure α) Unit :=
  if start.length = f.dimension then .ok ()
  else .error (.backend (.startDimension start.length f.dimension))

/-- The trajectory from a start along a grid. -/
def trajectory (f : VectorField α) (start : List α) (grid : List α) : Trajectory α :=
  match f.checkStart start with
  | .ok () => f.follow [] ⟨grid.headD 0, start⟩ grid.tail
  | .error failure => ⟨[], some failure⟩

end VectorField

end HybridAutomata
