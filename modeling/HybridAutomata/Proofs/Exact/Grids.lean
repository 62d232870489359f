import Mathlib.Data.List.Chain
import Mathlib.Data.List.Sort
import HybridAutomata.Proofs.Dynamics.Grid
import HybridAutomata.Proofs.Exact.Fields
import HybridAutomata.Proofs.Exact.Intervals

/-!
# Grids of numbers

In exact arithmetic a grid for numbers goes up from zero through every positive stop to the last:
the stops are sorted, and a distance between two stops is divided by a whole number of parts, so
many that none is wider than the step. This holds for every positive step, an infinite one included,
and so also for the grid of windows that end.
-/

namespace HybridAutomata

open Extended

variable {K : Type} [Field K] [LinearOrder K] [FloorRing K] [Functions K]

theorem exists_map_finite {items : List (Extended K)}
    (h : ∀ t ∈ items, Scalar.isFinite t = true) : ∃ xs : List K, items = xs.map finite := by
  induction items with
  | nil => exact ⟨[], rfl⟩
  | cons first rest ih =>
      obtain ⟨here, others⟩ := List.forall_mem_cons.mp h
      obtain ⟨x, rfl⟩ := isFinite_iff.mp here
      obtain ⟨xs, rfl⟩ := ih others
      exact ⟨x :: xs, rfl⟩

theorem ofInt_natCast (n : ℕ) : (Scalar.ofInt (n : ℤ) : Extended K) = finite (n : K) := by
  rw [Scalar.ofInt, if_neg (by simp), Int.natAbs_natCast]
  exact ofNat_eq n

namespace TimeGrid

/-- Before repetitions are dropped, the positive stops are in order. -/
theorem exists_sorted {stops : List (Extended K)} (ends : ∀ t ∈ stops, Scalar.isFinite t = true) :
    ∃ sorted : List K, ordered stops = (sorted.map finite).eraseReps ∧
      sorted.Pairwise (· ≤ ·) ∧ ∀ t, t ∈ sorted ↔ 0 < t ∧ finite t ∈ stops := by
  have filtered : ∀ t ∈ stops.filter fun t => decide (0 < t), Scalar.isFinite t = true :=
    fun t mem => ends t (List.mem_of_mem_filter mem)
  obtain ⟨positive, made⟩ := exists_map_finite filtered
  refine ⟨positive.mergeSort fun a b => decide (a ≤ b), ?_,
    List.pairwise_mergeSort' (· ≤ ·) positive, fun t => ?_⟩
  · rw [ordered, made]
    congr 1
    exact (List.map_mergeSort fun a _ b _ => decide_eq_decide.mpr finite_le_finite.symm).symm
  · rw [List.mem_mergeSort, ← List.mem_map_of_injective (fun _ _ => finite.inj), ← made,
      List.mem_filter, and_comm, decide_eq_true_iff, zero_eq, finite_lt_finite]

/-- Numbers in order go up if no two of them that are side by side are equal. -/
theorem isChain_lt_of_pairwise {times : List K} (sorted : times.Pairwise (· ≤ ·))
    (different : (times.map finite).IsChain fun a b => (a == b) = false) :
    times.IsChain (· < ·) := by
  rw [List.isChain_map] at different
  rw [List.isChain_iff_getElem] at different ⊢
  intro i bound
  have apart := different i bound
  rw [finite_beq_finite, decide_eq_false_iff_not] at apart
  exact lt_of_le_of_ne (List.pairwise_iff_getElem.mp sorted i (i + 1) _ _ i.lt_succ_self) apart

/-- The positive stops go up, each of them once. -/
theorem exists_ordered {stops : List (Extended K)}
    (ends : ∀ t ∈ stops, Scalar.isFinite t = true) :
    ∃ times : List K, ordered stops = times.map finite ∧ List.IsChain (· < ·) (0 :: times) ∧
      ∀ t, t ∈ times ↔ 0 < t ∧ finite t ∈ stops := by
  obtain ⟨sorted, made, pairs, kept⟩ := exists_sorted ends
  obtain ⟨times, some, same⟩ := List.sublist_map_iff.mp (eraseReps_sublist (sorted.map finite))
  have different := isChain_eraseReps (sorted.map finite)
  rw [same] at made different
  have members (t : K) : t ∈ times ↔ 0 < t ∧ finite t ∈ stops := by
    refine ⟨fun mem => (kept t).mp (some.mem mem), ?_⟩
    rintro ⟨above, given⟩
    have above' : (0 : Extended K) < finite t := by rwa [zero_eq, finite_lt_finite]
    obtain ⟨t', mem, equal⟩ := exists_mem_ordered given above'
    rw [made] at mem
    obtain ⟨s, met, rfl⟩ := List.mem_map.mp mem
    obtain equal | equal := equal
    · exact finite.inj equal ▸ met
    · rw [finite_beq_finite, decide_eq_true_iff] at equal
      exact equal ▸ met
  have up := isChain_lt_of_pairwise (pairs.sublist some) different
  refine ⟨times, made, (List.Pairwise.cons (fun t mem => ?_) up.pairwise).isChain, members⟩
  exact ((members t).mp mem).1

section

variable [IsStrictOrderedRing K] {step : Extended K}

theorem parts_eq {distance : Extended K} {n : ℕ} {whole : ℤ}
    (h : Scalar.ceil (distance / step) = finite (whole : K)) (count : max whole 1 = n + 1) :
    parts distance step = min (2 ^ 64 - 2) n + 1 := by
  have larger : Scalar.greater (finite (whole : K)) 1 = finite ((max whole 1 : ℤ) : K) := by
    rw [ofNat_eq, greater_finite, Int.cast_max, Nat.cast_one, Int.cast_one]
  have part : Scalar.wholePart 0 maxParts (finite ((max whole 1 : ℤ) : K)) =
      min maxParts (max whole 1) := by
    have nonneg : (0 : K) ≤ (max whole 1 : ℤ) := Int.cast_nonneg (by omega)
    change max 0 (min maxParts (if _ then _ else _)) = _
    rw [if_pos nonneg, Int.floor_intCast, maxParts]
    omega
  rw [parts, h, larger, part, count, maxParts]
  omega

/-- A distance has at least one part, and no part is wider than the step. The number of parts is not
above `maxParts`, so the parts can be too wide when there are that many. -/
theorem exists_parts (positive : 0 < step) (distance : K) :
    ∃ n : ℕ, parts (finite distance) step = n + 1 ∧
      (n + 2 < 2 ^ 64 → finite (distance / (n + 1 : ℕ)) ≤ step) := by
  rw [zero_eq] at positive
  cases step with
  | undefined => exact absurd positive.1 (not_le_undefined _)
  | negInf => exact absurd positive.1 (not_finite_le_negInf 0)
  | posInf =>
      have none : Scalar.ceil (finite distance / posInf) = finite ((0 : ℤ) : K) :=
        congrArg (finite ∘ Int.cast) Int.ceil_zero
      exact ⟨0, parts_eq none rfl, fun _ => le_posInf_iff.mpr (by simp)⟩
  | finite step =>
      have above : 0 < step := finite_lt_finite.mp positive
      have whole : Scalar.ceil (finite distance / finite step) =
          finite ((⌈distance / step⌉ : ℤ) : K) := by
        rw [finite_div above.ne']
        rfl
      obtain ⟨n, count⟩ : ∃ n : ℕ, max ⌈distance / step⌉ 1 = n + 1 :=
        ⟨(max ⌈distance / step⌉ 1).toNat - 1, by omega⟩
      refine ⟨min (2 ^ 64 - 2) n, parts_eq whole count, fun few => ?_⟩
      have all : min (2 ^ 64 - 2) n = n := by omega
      have enough : distance / step ≤ ((n + 1 : ℕ) : K) := by
        have le : ⌈distance / step⌉ ≤ ((n + 1 : ℕ) : ℤ) := by omega
        exact_mod_cast Int.ceil_le.mp le
      rw [all, finite_le_finite, div_le_iff₀ (Nat.cast_pos.mpr n.succ_pos), mul_comm]
      exact (div_le_iff₀ above).mp enough

/-- Between two stops the distances are equal, and not above the step unless there are too many. -/
theorem exists_between (positive : 0 < step) (start stop : K) :
    ∃ (times : List K) (width : K), between (finite start) (finite stop) step = times.map finite ∧
      width = (stop - start) / (times.length + 1 : ℕ) ∧
      List.IsChain (fun t t' => t' = t + width) (start :: (times ++ [stop])) ∧
        (times.length + 2 < 2 ^ 64 → finite width ≤ step) := by
  rw [between, finite_sub]
  obtain ⟨n, count, close⟩ := exists_parts positive (stop - start)
  rw [count]
  have several : ((n + 1 : ℕ) : K) ≠ 0 := Nat.cast_ne_zero.mpr n.succ_ne_zero
  let width := (stop - start) / (n + 1 : ℕ)
  let time (k : ℕ) : K := start + k * width
  have parts : start :: ((List.range n).map (fun k => time (k + 1)) ++ [stop]) =
      (List.range (n + 2)).map time := by
    have first : time 0 = start := by simp [time]
    have last : time (n + 1) = stop := by
      have whole : ((n + 1 : ℕ) : K) * width = stop - start := mul_div_cancel₀ _ several
      simp only [time, whole, add_sub_cancel]
    rw [List.range_succ_eq_map, List.range_succ]
    simp [first, last]
  refine ⟨(List.range n).map fun k => time (k + 1), width, ?_, by simp [width], ?_, ?_⟩
  · rw [Nat.add_sub_cancel, List.map_map]
    refine List.map_congr_left fun k _ => ?_
    rw [ofInt_natCast, ofInt_natCast, finite_div several, finite_mul, finite_add]
    rfl
  · rw [parts, List.isChain_map, List.isChain_range_succ]
    intro k _
    simp only [time, Nat.cast_succ]
    ring
  · rwa [List.length_map, List.length_range]

/-- The times go up through the stops, and neighbours are not farther apart than the step unless
there are too many. -/
theorem exists_after (positive : 0 < step) {start : K} {stops : List K}
    (chain : List.IsChain (· < ·) (start :: stops)) :
    ∃ times : List K, after (finite start) step (stops.map finite) = times.map finite ∧
      List.IsChain (· < ·) (start :: times) ∧
        (times.length + 1 < 2 ^ 64 →
          List.IsChain (fun t t' => finite (t' - t) ≤ step) (start :: times)) := by
  induction stops generalizing start with
  | nil => exact ⟨[], rfl, .singleton start, fun _ => .singleton start⟩
  | cons stop stops ih =>
      obtain ⟨lt, later⟩ := List.isChain_cons_cons.mp chain
      obtain ⟨times, width, inside, equal, even, close⟩ := exists_between positive start stop
      obtain ⟨times', rest, behind, close'⟩ := ih later
      have wide : 0 < width := by
        rw [equal]
        exact div_pos (sub_pos.mpr lt) (Nat.cast_pos.mpr times.length.succ_pos)
      refine ⟨times ++ stop :: times', ?_, ?_, fun few => ?_⟩
      · rw [List.map_cons, after, inside, rest, List.map_append, List.map_cons]
      · have before : List.IsChain (· < ·) (start :: (times ++ [stop])) :=
          even.imp fun t t' (next : t' = t + width) => next ▸ lt_add_of_pos_right t wide
        exact List.isChain_cons_split.mpr ⟨before, behind⟩
      · rw [List.length_append, List.length_cons] at few
        have before : List.IsChain (fun t t' => finite (t' - t) ≤ step)
            (start :: (times ++ [stop])) := by
          refine even.imp fun t t' next => ?_
          rw [next, add_sub_cancel_left]
          exact close (by omega)
        exact List.isChain_cons_split.mpr ⟨before, close' (by omega)⟩

end

end TimeGrid

/-! ## Grids of stops -/

section

variable [IsStrictOrderedRing K] {stops : List K} {step : Extended K}

/-- What a grid for some stops has to be. The parts of a distance are counted by a machine number.
So a distance is divided as finely as the step demands in every grid that has fewer entries than
there are such numbers; a longer one does not fit into a memory. -/
structure IsTimeGrid (stops : List K) (step : Extended K) (times : List K) : Prop where
  begins : times.head? = some 0
  ascends : times.Pairwise (· < ·)
  meets : ∀ t ∈ stops, 0 < t → t ∈ times
  ends : (∃ last, times.getLast? = some last ∧ IsGreatest {t | t ∈ stops ∧ 0 < t} last) ∨
    times = [0] ∧ ∀ t ∈ stops, t ≤ 0
  close : times.length < 2 ^ 64 → times.IsChain fun t t' => finite (t' - t) ≤ step

omit [FloorRing K] [Functions K] [IsStrictOrderedRing K] in
/-- The last of the ascending positive stops is the greatest of them. -/
theorem isGreatest_getLast {positive : List K} (ascends : List.IsChain (· < ·) positive)
    (members : ∀ t, t ∈ positive ↔ 0 < t ∧ t ∈ stops) (some : positive ≠ []) :
    IsGreatest {t | t ∈ stops ∧ 0 < t} (positive.getLast some) := by
  refine ⟨((members _).mp (List.getLast_mem some)).symm, fun t ⟨given, above⟩ => ?_⟩
  have up : positive.Pairwise (· ≤ ·) := ascends.pairwise.imp le_of_lt
  exact up.rel_getLast ((members t).mpr ⟨above, given⟩)

/-- For numbers in any order and a positive step there is a grid, and it is right. -/
theorem exists_isTimeGrid (stops : List K) (positive : 0 < step) :
    ∃ times : List K, timeGrid (stops.map finite) step = .ok (times.map finite) ∧
      IsTimeGrid stops step times := by
  have numbers : ∀ t ∈ stops.map (finite (K := K)), Scalar.isFinite t = true := by simp
  obtain ⟨ordered, sorted, ascends, members⟩ := TimeGrid.exists_ordered numbers
  simp only [List.mem_map_of_injective (fun _ _ => finite.inj)] at members
  obtain ⟨times, made, up, close⟩ := TimeGrid.exists_after positive ascends
  have grid : timeGrid (stops.map finite) step = .ok ((0 :: times).map finite) := by
    rw [timeGrid_eq_ok_iff, sorted, zero_eq, made]
    exact ⟨zero_eq (K := K) ▸ positive, rfl⟩
  have last : (0 :: times).getLast? = (0 :: ordered).getLast? := by
    have same := TimeGrid.getLast?_after (finite 0) step (ordered.map finite)
    rw [made, ← List.map_cons, ← List.map_cons, List.getLast?_map, List.getLast?_map] at same
    exact Option.map_injective (fun _ _ => finite.inj) same
  refine ⟨0 :: times, grid, rfl, up.pairwise, fun t given above => ?_, ?_, close⟩
  · have met : finite t ∈ times.map finite :=
      made ▸ TimeGrid.mem_after (List.mem_map_of_mem ((members t).mpr ⟨above, given⟩))
    exact List.mem_cons_of_mem 0 ((List.mem_map_of_injective fun _ _ => finite.inj).mp met)
  · rw [last]
    cases ordered with
    | nil =>
        obtain rfl : times = [] := List.map_eq_nil_iff.mp made.symm
        refine .inr ⟨rfl, fun t given => not_lt.mp fun above => ?_⟩
        exact List.not_mem_nil ((members t).mpr ⟨above, given⟩)
    | cons first rest =>
        refine .inl ⟨(first :: rest).getLast (List.cons_ne_nil first rest), ?_, ?_⟩
        · rw [List.getLast?_cons_cons, List.getLast?_eq_getLast_of_ne_nil]
        · exact isGreatest_getLast ascends.tail members (List.cons_ne_nil first rest)

/-- Stops out of order, one of them twice, and stops that are not positive. -/
theorem exists_isTimeGrid_of_unordered_stops : (0 : Extended ℚ) < finite (1 / 10) ∧
    ∃ times : List ℚ, timeGrid ([3 / 2, 1 / 4, 3 / 2, 0, -1].map finite) (finite (1 / 10)) =
        .ok (times.map finite) ∧
      IsTimeGrid [3 / 2, 1 / 4, 3 / 2, 0, -1] (finite (1 / 10)) times := by
  have positive : (0 : Extended ℚ) < finite (1 / 10) := by
    rw [zero_eq, finite_lt_finite]
    norm_num
  exact ⟨positive, exists_isTimeGrid _ positive⟩

end

namespace Estimator

variable {windows : List (Interval (Extended K))} {step : Extended K}

/-- The grid of accepted windows consists of numbers that go up from zero. -/
theorem exists_windowGrid [IsStrictOrderedRing K] (accepted : checkWindows windows = .ok ())
    (positive : 0 < step) : ∃ times : List K,
      windowGrid windows step = .ok ((0 :: times).map finite) ∧
        List.IsChain (· ≤ ·) (0 :: times) := by
  have ends : ∀ t ∈ windows.flatMap fun w => [w.min, w.max], Scalar.isFinite t = true := by
    intro t mem
    obtain ⟨w, given, bound⟩ := List.mem_flatMap.mp mem
    have bounded := (checkWindows_eq_ok_iff.mp accepted w given).2
    rw [Interval.isBounded, Bool.and_eq_true] at bounded
    obtain rfl | bound := List.mem_cons.mp bound
    · exact bounded.1
    · exact List.mem_singleton.mp bound ▸ bounded.2
  obtain ⟨stops, sorted, chain, _⟩ := TimeGrid.exists_ordered ends
  obtain ⟨times, made, up, _⟩ := TimeGrid.exists_after positive chain
  refine ⟨times, timeGrid_eq_ok_iff.mpr ⟨positive, ?_⟩, up.imp fun _ _ => le_of_lt⟩
  rw [sorted, zero_eq, made, List.map_cons]

/-- The grid reaches to the end of every window. -/
theorem exists_time_ge {times : List K} (accepted : checkWindows windows = .ok ())
    (made : windowGrid windows step = .ok (times.map finite)) {w : Interval (Extended K)}
    (mem : w ∈ windows) {t : K} (inside : w.Holds t) : ∃ s ∈ times, t ≤ s := by
  obtain ⟨last, met, _, ends⟩ := exists_last_mem_windowGrid accepted made mem inside.ordered
  obtain ⟨s, given, rfl⟩ := List.mem_map.mp met
  exact ⟨s, given, finite_le_finite.mp (Extended.le_trans inside.2 ends)⟩

/-- Accepted windows lie in the future. -/
theorem nonneg_of_accepted (accepted : checkWindows windows = .ok ()) {w : Interval (Extended K)}
    (mem : w ∈ windows) {t : K} (inside : w.Holds t) : 0 ≤ t := by
  have future := (checkWindows_eq_ok_iff.mp accepted w mem).1
  by_contra past
  have before : finite t ≤ finite (0 : K) := (not_le.mp past).le
  refine future (zero_eq (K := K) ▸ ⟨Extended.le_trans inside.1 before, ?_⟩)
  intro begun
  exact past (Extended.le_trans begun inside.1)

end Estimator

end HybridAutomata
