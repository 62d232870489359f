import HybridAutomata.Proofs.Dynamics.Trajectories
import HybridAutomata.Proofs.Expr.Substitution

/-!
# One more variable

A variable that comes last and that no other rate mentions does not disturb the others: without its
coordinate, the rates, the steps and the trajectories of the larger field are those of the smaller
one. No law of arithmetic takes part in this, so it holds whatever is rounded and however.
-/

namespace HybridAutomata

open Success

variable {α : Type} [Scalar α]

/-! ## Steps without the coordinates behind a place -/

namespace VectorField

theorem take_moved (n : Nat) (state rates : List α) (time : α) :
    (moved state rates time).take n = moved (state.take n) (rates.take n) time :=
  List.take_zipWith

theorem take_weightedAll (n : Nat) (step : α) (xs ks₁ ks₂ ks₃ ks₄ : List α) :
    (weightedAll step xs ks₁ ks₂ ks₃ ks₄).take n =
      weightedAll step (xs.take n) (ks₁.take n) (ks₂.take n) (ks₃.take n) (ks₄.take n) := by
  simp only [weightedAll_eq_zipWith, List.take_zipWith]

/-! ## Fields that extend another -/

/-- A field with one more variable, which comes last. The other variables have the rates that they
have without it. -/
structure Extends (f' f : VectorField α) (last : String) : Prop where
  vars : f'.vars = f.vars ++ [last]
  constants : f'.scope.constants = f.scope.constants
  fresh : last ∉ f.scope.declared
  rates : ∀ name ∈ f.vars, f'.rate? name = f.rate? name

/-- A sample with the coordinates of a field, which come first. -/
def projected (f : VectorField α) (s : Sample α) : Sample α :=
  { s with state := s.state.take f.dimension }

namespace Extends

variable {f f' : VectorField α} {last : String}

omit [Scalar α] in
theorem dimension (h : f'.Extends f last) : f'.dimension = f.dimension + 1 := by
  have length := congrArg List.length h.vars
  rwa [List.length_append] at length

theorem valuation_of_ne (h : f'.Extends f last) {name : String} (other : name ≠ last)
    (state : List α) :
    f'.scope.valuation state name = f.scope.valuation (state.take f.dimension) name := by
  have vars : f'.scope.vars.toList = f.scope.vars.toList ++ [last] := h.vars
  rw [Scope.valuation, Scope.valuation, vars, Scope.coordinate_append_of_ne other, h.constants]
  rfl

theorem eval_take (h : f'.Extends f last) {e : Expr α} (closed : f.scope.Closes e)
    (state : List α) : f'.eval e state = f.eval e (state.take f.dimension) := by
  refine Expr.eval_congr e fun name mem => h.valuation_of_ne ?_ state
  rintro rfl
  exact h.fresh (closed _ mem)

theorem derivative_take (h : f'.Extends f last) (rules : f.WellFormed) {state rates : List α}
    (made : f'.derivative state = .ok rates) :
    f.derivative (state.take f.dimension) = .ok (rates.take f.dimension) := by
  rw [derivative, h.vars, mapM_eq_ok_iff] at made
  have front := List.forall₂_take f.dimension made
  have others : (f.vars ++ [last]).take f.dimension = f.vars := List.take_left
  rw [others] at front
  refine mapM_eq_ok_iff.mpr (((List.forall₂_and_left _ _).mpr ⟨fun _ mem => mem, front⟩).imp ?_)
  rintro name rate ⟨mem, evaluated⟩
  rw [h.rates name mem] at evaluated
  cases rated : f.rate? name with
  | none => simpa [rated] using evaluated
  | some e =>
      simp only [rated] at evaluated ⊢
      rwa [← h.eval_take (rules.assigns rated).2]

/-- Every state at which a step samples the rates is projected. -/
theorem advance_take (h : f'.Extends f last) (rules : f.WellFormed) {state state' : List α}
    {step : α} (made : f'.advance state step = .ok state') :
    f.advance (state.take f.dimension) step = .ok (state'.take f.dimension) := by
  simp only [advance, bind_eq_ok_iff, pure_eq_ok_iff] at made ⊢
  obtain ⟨k₁, first, k₂, second, k₃, third, k₄, fourth, rfl⟩ := made
  refine ⟨_, h.derivative_take rules first, _, ?_, _, ?_, _, ?_, (take_weightedAll ..).symm⟩
  · rw [← take_moved]
    exact h.derivative_take rules second
  · rw [← take_moved]
    exact h.derivative_take rules third
  · rw [← take_moved]
    exact h.derivative_take rules fourth

/-- The trajectory of the larger field is projected to that of the smaller one. -/
theorem isTrajectory_projected (h : f'.Extends f last) (rules : f.WellFormed) {start grid : List α}
    {samples : List (Sample α)} (trajectory : f'.IsTrajectory start grid samples) :
    f.IsTrajectory (start.take f.dimension) grid (samples.map f.projected) where
  times := by rw [← trajectory.times, List.map_map]; rfl
  start := by
    rw [List.head?_map, Option.map_map, ← Option.map_some, ← trajectory.start, Option.map_map]
    rfl
  steps := List.isChain_map_of_isChain f.projected
    (fun _ _ follows => h.advance_take rules follows) trajectory.steps

theorem finite_projected {s : Sample α} (finite : s.Finite) : (f.projected s).Finite := by
  rw [Sample.Finite, List.all_eq_true] at finite ⊢
  exact fun x mem => finite x (List.mem_of_mem_take mem)

/-- Where the larger field is followed to the end, so is the smaller one. -/
theorem trajectory_eq (h : f'.Extends f last) (rules : f.WellFormed) {start grid : List α} {x : α}
    {samples : List (Sample α)} (nonempty : grid ≠ [])
    (whole : f'.trajectory (start ++ [x]) grid = ⟨samples, none⟩) :
    f.trajectory start grid = ⟨samples.map f.projected, none⟩ := by
  obtain ⟨length, trajectory, finite⟩ := (trajectory_eq_iff nonempty).mp whole
  rw [h.dimension, List.length_append] at length
  have dimension : start.length = f.dimension := Nat.succ.inj length
  have front : (start ++ [x]).take f.dimension = start := by rw [← dimension, List.take_left]
  refine (trajectory_eq_iff nonempty).mpr ⟨dimension, ?_, ?_⟩
  · rw [← front]
    exact h.isTrajectory_projected rules trajectory
  · rw [← List.map_tail, List.forall_mem_map]
    exact fun s mem => finite_projected (finite s mem)

end Extends

end VectorField

end HybridAutomata
