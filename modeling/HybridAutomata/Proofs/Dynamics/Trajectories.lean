import Mathlib.Data.List.Chain
import HybridAutomata.Proofs.Dynamics.Rates

/-!
# What a trajectory is

The samples of a trajectory are described without the loop that makes them: they are at the times of
the grid, the first is the start, and each is reached from the one before by one integration step.
The loop makes them without breaking off exactly if they exist and stay finite.
-/

namespace HybridAutomata

open Success

variable {α : Type} [Scalar α]

omit [Scalar α] in
/-- A trajectory that did not break off is its samples. -/
theorem Trajectory.eq_of_failure {t : Trajectory α} (unbroken : t.failure = none) :
    t = ⟨t.samples, none⟩ := by
  rw [← unbroken]

/-- All coordinates are finite. -/
def Sample.Finite (s : Sample α) : Prop := s.state.all Scalar.isFinite = true

namespace VectorField

/-- A sample is reached from another by one step. -/
def Follows (f : VectorField α) (s s' : Sample α) : Prop :=
  f.advance s.state (s'.time - s.time) = .ok s'.state

/-- The trajectory from a start along a grid. -/
structure IsTrajectory (f : VectorField α) (start grid : List α) (samples : List (Sample α)) :
    Prop where
  times : samples.map Sample.time = grid
  start : samples.head?.map Sample.state = some start
  steps : samples.IsChain f.Follows

variable {f : VectorField α} {s : Sample α} {start grid : List α} {samples : List (Sample α)}

/-- Every sample has a coordinate per variable if the start has. -/
theorem IsTrajectory.length_state (h : f.IsTrajectory start grid samples)
    (dimension : start.length = f.dimension) : ∀ s ∈ samples, s.state.length = f.dimension := by
  refine h.steps.induction (·.state.length = f.dimension) _
    (fun _ _ follows length => length_advance length follows) fun nonempty => ?_
  have begins := h.start
  rw [List.head?_eq_some_head nonempty] at begins
  rw [Option.some.inj begins, dimension]

theorem next_eq_ok_iff {time : α} {s' : Sample α} :
    f.next s time = .ok s' ↔ s'.time = time ∧ f.Follows s s' ∧ s'.Finite := by
  simp only [next, Follows, Sample.Finite, bind_eq_ok_iff, liftEval_eq_ok_iff]
  constructor
  · rintro ⟨state, advanced, made⟩
    split at made
    · next finite =>
        cases made
        exact ⟨rfl, advanced, finite⟩
    · cases made
  · rintro ⟨rfl, advanced, finite⟩
    exact ⟨s'.state, advanced, if_pos finite⟩

/-- What the loop adds to the samples so far. -/
theorem follow_eq_iff {reached : List (Sample α)} {times : List α} :
    f.follow reached s times = ⟨samples, none⟩ ↔ ∃ later,
      samples = (s :: reached).reverse ++ later ∧ later.map Sample.time = times ∧
        (s :: later).IsChain f.Follows ∧ ∀ s' ∈ later, s'.Finite := by
  induction times generalizing reached s with
  | nil =>
      rw [follow, Trajectory.mk.injEq]
      constructor
      · rintro ⟨rfl, _⟩
        exact ⟨[], by simp, rfl, .singleton s, by simp⟩
      · rintro ⟨later, rfl, times, _, _⟩
        rw [List.map_eq_nil_iff.mp times, List.append_nil]
        exact ⟨rfl, rfl⟩
  | cons time times ih =>
      rw [follow]
      split
      · next s' made =>
          obtain ⟨rfl, follows, finite⟩ := next_eq_ok_iff.mp made
          rw [ih]
          constructor
          · rintro ⟨later, rfl, rfl, chain, finites⟩
            exact ⟨s' :: later, by simp, rfl, chain.cons_cons follows,
              List.forall_mem_cons.mpr ⟨finite, finites⟩⟩
          · rintro ⟨later, rfl, times, chain, finites⟩
            obtain ⟨first, later, rfl, same, rfl⟩ := List.map_eq_cons_iff.mp times
            obtain ⟨firstFollows, chain⟩ := List.isChain_cons_cons.mp chain
            obtain ⟨firstFinite, others⟩ := List.forall_mem_cons.mp finites
            have again := next_eq_ok_iff.mpr ⟨rfl, firstFollows, firstFinite⟩
            rw [same, made] at again
            obtain rfl : s' = first := Except.ok.inj again
            exact ⟨later, by simp, rfl, chain, others⟩
      · next failure made =>
          refine iff_of_false (by simp) ?_
          rintro ⟨later, rfl, times, chain, finites⟩
          obtain ⟨first, later, rfl, rfl, rfl⟩ := List.map_eq_cons_iff.mp times
          obtain ⟨follows, _⟩ := List.isChain_cons_cons.mp chain
          have success := next_eq_ok_iff.mpr ⟨rfl, follows, finites first List.mem_cons_self⟩
          cases made.symm.trans success

omit [Scalar α] in
theorem checkStart_eq_ok_iff : f.checkStart start = .ok () ↔ start.length = f.dimension := by
  simp [checkStart]

/-- The loop makes the trajectory, if it exists and stays finite behind the start. -/
theorem trajectory_eq_iff (nonempty : grid ≠ []) :
    f.trajectory start grid = ⟨samples, none⟩ ↔ start.length = f.dimension ∧
      f.IsTrajectory start grid samples ∧ ∀ s ∈ samples.tail, s.Finite := by
  obtain ⟨first, times, rfl⟩ := List.exists_cons_of_ne_nil nonempty
  rw [trajectory]
  split
  · next checked =>
      have dimension := checkStart_eq_ok_iff.mp checked
      simp only [follow_eq_iff, List.headD_cons, List.tail_cons, List.reverse_singleton,
        List.singleton_append]
      constructor
      · rintro ⟨later, rfl, rfl, steps, finite⟩
        exact ⟨dimension, ⟨rfl, rfl, steps⟩, finite⟩
      · rintro ⟨_, ⟨times, begins, steps⟩, finite⟩
        obtain ⟨s, later, rfl, rfl, rfl⟩ := List.map_eq_cons_iff.mp times
        obtain rfl : s.state = start := Option.some.inj begins
        exact ⟨later, rfl, rfl, steps, finite⟩
  · next failed =>
      refine iff_of_false (by simp) ?_
      rintro ⟨dimension, _⟩
      cases (checkStart_eq_ok_iff.mpr dimension).symm.trans failed

/-! ## Why a trajectory breaks off -/

/-- A step fails in an evaluation or because a state is not finite. -/
theorem next_eq_error {time : α} {failure : Failure α} (h : f.next s time = .error failure) :
    (∃ cause, failure = .eval cause) ∨ failure = .backend (.diverged time) := by
  simp only [next, bind_eq_error_iff, liftEval_eq_error_iff] at h
  obtain ⟨cause, _, rfl⟩ | ⟨state, _, failed⟩ := h
  · exact .inl ⟨cause, rfl⟩
  · split at failed
    · cases failed
    · cases failed
      exact .inr rfl

theorem failure_of_follow {reached : List (Sample α)} {times : List α} {failure : Failure α}
    (h : (f.follow reached s times).failure = some failure) :
    (∃ cause, failure = .eval cause) ∨ ∃ time, failure = .backend (.diverged time) := by
  induction times generalizing reached s with
  | nil => cases h
  | cons time times ih =>
      rw [follow] at h
      split at h
      · exact ih h
      · next made =>
          cases h
          exact (next_eq_error made).imp_right fun diverged => ⟨time, diverged⟩

theorem failure_of_trajectory {failure : Failure α}
    (h : (f.trajectory start grid).failure = some failure) :
    (∃ cause, failure = .eval cause) ∨ (∃ time, failure = .backend (.diverged time)) ∨
      failure = .backend (.startDimension start.length f.dimension) := by
  rw [trajectory] at h
  split at h
  · exact (failure_of_follow h).imp_right .inl
  · next failed =>
      cases h
      rw [checkStart] at failed
      split at failed
      · cases failed
      · cases failed
        exact .inr (.inr rfl)

end VectorField

end HybridAutomata
