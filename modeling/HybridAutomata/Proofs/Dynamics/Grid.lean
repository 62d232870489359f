import Mathlib.Data.List.Basic
import Mathlib.Data.List.Chain
import HybridAutomata.Estimation.Estimator
import HybridAutomata.Proofs.Comparisons

/-!
# Grids meet windows

Sorting, dropping repetitions and splitting distances keep every positive stop of a grid, up to a
number that is equal to it. So the grid for a list of windows has a time in every window: the end of
the window, or zero for a window that ends there.
-/

namespace HybridAutomata

variable {α : Type}

/-! ## Repetitions -/

/-- What is kept stays in order: the items before, the item that was kept last, and some of the
rest. None of them repeats the one before it. -/
theorem exists_eraseRepsBy_loop_eq (r : α → α → Bool) (kept : α) (rest acc : List α) :
    ∃ others, others.Sublist rest ∧
      List.eraseRepsBy.loop r kept rest acc = acc.reverse ++ kept :: others ∧
        List.IsChain (fun a b => r a b = false) (kept :: others) := by
  induction rest generalizing kept acc with
  | nil => exact ⟨[], .slnil, by simp [List.eraseRepsBy.loop], .singleton kept⟩
  | cons next rest ih =>
      rw [List.eraseRepsBy.loop]
      split
      · obtain ⟨others, sublist, same, chain⟩ := ih kept acc
        exact ⟨others, sublist.cons next, same, chain⟩
      · next different =>
          obtain ⟨others, sublist, same, chain⟩ := ih next (kept :: acc)
          exact ⟨next :: others, sublist.cons_cons next, by simp [same], chain.cons_cons different⟩

/-- What is dropped is equal to the item that is kept in its place. -/
theorem exists_mem_eraseRepsBy_loop {r : α → α → Bool} {kept : α} {rest acc : List α} {x : α}
    (mem : x ∈ rest) : ∃ y ∈ List.eraseRepsBy.loop r kept rest acc, y = x ∨ r y x = true := by
  have keeps (kept : α) (rest acc : List α) : kept ∈ List.eraseRepsBy.loop r kept rest acc := by
    obtain ⟨others, _, same, _⟩ := exists_eraseRepsBy_loop_eq r kept rest acc
    simp [same]
  induction rest generalizing kept acc with
  | nil => cases mem
  | cons next rest ih =>
      rw [List.eraseRepsBy.loop]
      split
      · next same =>
          obtain rfl | later := List.mem_cons.mp mem
          · exact ⟨kept, keeps kept rest acc, .inr same⟩
          · exact ih later
      · obtain rfl | later := List.mem_cons.mp mem
        · exact ⟨x, keeps x rest (kept :: acc), .inl rfl⟩
        · exact ih later

theorem exists_eraseReps_cons_eq [BEq α] (first : α) (rest : List α) :
    ∃ others, others.Sublist rest ∧ (first :: rest).eraseReps = first :: others ∧
      List.IsChain (fun a b => (a == b) = false) (first :: others) :=
  exists_eraseRepsBy_loop_eq (· == ·) first rest []

theorem exists_mem_eraseReps [BEq α] {items : List α} {x : α} (mem : x ∈ items) :
    ∃ y ∈ items.eraseReps, y = x ∨ (y == x) = true := by
  cases items with
  | nil => cases mem
  | cons first rest =>
      obtain rfl | later := List.mem_cons.mp mem
      · obtain ⟨others, _, kept, _⟩ := exists_eraseReps_cons_eq x rest
        exact ⟨x, kept ▸ List.mem_cons_self, .inl rfl⟩
      · exact exists_mem_eraseRepsBy_loop later

/-- Nothing is added or moved when repetitions are dropped. -/
theorem eraseReps_sublist [BEq α] (items : List α) : items.eraseReps.Sublist items := by
  cases items with
  | nil => exact .slnil
  | cons first rest =>
      obtain ⟨others, sublist, kept, _⟩ := exists_eraseReps_cons_eq first rest
      exact kept ▸ sublist.cons_cons first

theorem isChain_eraseReps [BEq α] (items : List α) :
    List.IsChain (fun a b => (a == b) = false) items.eraseReps := by
  cases items with
  | nil => exact .nil
  | cons first rest =>
      obtain ⟨others, _, kept, chain⟩ := exists_eraseReps_cons_eq first rest
      exact kept ▸ chain

variable [Scalar α]

/-! ## Stops -/

namespace TimeGrid

theorem mem_after {start step : α} {stops : List α} {t : α} (mem : t ∈ stops) :
    t ∈ after start step stops := by
  induction stops generalizing start with
  | nil => cases mem
  | cons stop stops ih =>
      rw [after, List.mem_append, List.mem_cons]
      obtain rfl | later := List.mem_cons.mp mem
      · exact .inr (.inl rfl)
      · exact .inr (.inr (ih later))

/-- The last time is the last stop. -/
theorem getLast?_after (start step : α) (stops : List α) :
    (start :: after start step stops).getLast? = (start :: stops).getLast? := by
  induction stops generalizing start with
  | nil => rfl
  | cons stop stops ih =>
      have same := ih stop
      rw [after, List.getLast?_cons_cons, ← same, ← List.cons_append, List.getLast?_append_cons]

/-- Every positive stop is met by an equal one. -/
theorem exists_mem_ordered {stops : List α} {t : α} (mem : t ∈ stops) (positive : 0 < t) :
    ∃ t' ∈ ordered stops, t' = t ∨ (t' == t) = true := by
  refine exists_mem_eraseReps (List.mem_mergeSort.mpr ?_)
  exact List.mem_filter.mpr ⟨mem, decide_eq_true positive⟩

/-- Stops that come in order are not moved. -/
theorem ordered_of_pairwise {stops : List α}
    (h : (stops.filter fun t => decide (0 < t)).Pairwise fun a b => decide (a ≤ b) = true) :
    ordered stops = (stops.filter fun t => decide (0 < t)).eraseReps := by
  rw [ordered, List.mergeSort_of_pairwise h]

end TimeGrid

theorem timeGrid_eq_ok_iff {stops grid : List α} {step : α} :
    timeGrid stops step = .ok grid ↔
      0 < step ∧ 0 :: TimeGrid.after 0 step (TimeGrid.ordered stops) = grid := by
  rw [timeGrid]
  split
  · next positive => simp [positive]
  · next notPositive => simp [notPositive]

/-! ## Windows -/

namespace Estimator

theorem checkWindows_eq_ok_iff {windows : List (Interval α)} :
    checkWindows windows = .ok () ↔ ∀ w ∈ windows, ¬w.min < 0 ∧ w.isBounded = true := by
  rw [checkWindows]
  split
  · next w found =>
      refine iff_of_false (by simp) fun accepted => ?_
      obtain ⟨future, bounded⟩ := accepted w (List.mem_of_find?_eq_some found)
      simpa [future, bounded] using List.find?_some found
  · next none =>
      refine iff_of_true rfl fun w mem => ?_
      simpa using List.find?_eq_none.mp none w mem

theorem windowGrid_ne_nil {windows : List (Interval α)} {step : α} {grid : List α}
    (h : windowGrid windows step = .ok grid) : grid ≠ [] := by
  obtain ⟨_, rfl⟩ := timeGrid_eq_ok_iff.mp h
  exact List.cons_ne_nil _ _

variable [LawfulComparisons α]

open LawfulComparisons

/-- The grid has a time in every window that is not before the end of it. -/
theorem exists_last_mem_windowGrid {windows : List (Interval α)} {step : α} {grid : List α}
    (accepted : checkWindows windows = .ok ()) (h : windowGrid windows step = .ok grid)
    {w : Interval α} (mem : w ∈ windows) (ordered : w.Ordered) :
    ∃ t ∈ grid, w.contains t = true ∧ w.max ≤ t := by
  obtain ⟨positive, rfl⟩ := timeGrid_eq_ok_iff.mp h
  obtain ⟨future, bounded⟩ := checkWindows_eq_ok_iff.mp accepted w mem
  have zero : (0 : α) ≤ 0 := (defined_of_le (lt_iff.mp positive).1).1
  obtain ⟨lower, upper⟩ := defined_of_le ordered
  simp only [Interval.contains, Bool.and_eq_true, decide_eq_true_eq]
  by_cases ends : 0 < w.max
  · have stop : w.max ∈ windows.flatMap fun w => [w.min, w.max] :=
      List.mem_flatMap.mpr ⟨w, mem, by simp⟩
    obtain ⟨t, met, same⟩ := TimeGrid.exists_mem_ordered stop ends
    refine ⟨t, List.mem_cons_of_mem _ (TimeGrid.mem_after met), ?_⟩
    obtain rfl | same := same
    · exact ⟨⟨ordered, upper⟩, upper⟩
    · obtain ⟨below, above⟩ := beq_iff.mp same
      exact ⟨⟨le_trans ordered above, below⟩, above⟩
  · have atZero : w.max ≤ 0 := Scalar.le_of_not_lt zero upper ends
    have begun : 0 ≤ w.min := Scalar.le_of_not_lt lower zero future
    exact ⟨0, List.mem_cons_self, ⟨le_trans ordered atZero, le_trans begun ordered⟩, atZero⟩

theorem exists_mem_windowGrid {windows : List (Interval α)} {step : α} {grid : List α}
    (accepted : checkWindows windows = .ok ()) (h : windowGrid windows step = .ok grid)
    {w : Interval α} (mem : w ∈ windows) (ordered : w.Ordered) :
    ∃ t ∈ grid, w.contains t = true := by
  obtain ⟨t, met, inside, _⟩ := exists_last_mem_windowGrid accepted h mem ordered
  exact ⟨t, met, inside⟩

end Estimator

end HybridAutomata
