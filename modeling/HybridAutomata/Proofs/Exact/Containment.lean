import Mathlib.Data.Set.Insert
import HybridAutomata.Proofs.Exact.Intervals
import HybridAutomata.Proofs.Success

/-!
# Containment of intervals

An interval is inside another one when the bounds say so. The operations that widen or combine
intervals keep that: a result made from smaller operands is inside the result made from larger ones,
whenever both are made. Bounds may be infinite here, and what an operation needs to be defined is
read off its success.
-/

namespace HybridAutomata

open Extended Success

namespace Extended

variable {K : Type} [Field K] [LinearOrder K] [FloorRing K] [Functions K] [IsStrictOrderedRing K]

theorem add_finite_le_add_finite {a b : Extended K} {x y : K} (h : a ≤ b) (h' : x ≤ y) :
    a + finite x ≤ b + finite y := by
  cases a <;> cases b <;> simp_all [HAdd.hAdd, Add.add, Extended.add]
  exact add_le_add h h'

/-- Sums keep the order of the second operands if they are defined. -/
theorem add_le_add_left_of_defined {a b c : Extended K} (h : b ≤ c) (hb : a + b ≠ undefined)
    (hc : a + c ≠ undefined) : a + b ≤ a + c := by
  cases a <;> cases b <;> cases c <;> simp_all [HAdd.hAdd, Add.add, Extended.add]
  exact add_le_add le_rfl h

omit [IsStrictOrderedRing K] in
theorem defined_of_add_finite {a : Extended K} {x : K} (h : a + finite x ≠ undefined) :
    a ≠ undefined := by
  rintro rfl
  exact h rfl

end Extended

namespace Interval

variable {K : Type} [Field K] [LinearOrder K] [FloorRing K] [Functions K]
  {i i' j j' k k' : Interval (Extended K)}

/-- The bounds are inside those of another interval. -/
structure Inside (i j : Interval (Extended K)) : Prop where
  min : j.min ≤ i.min
  max : i.max ≤ j.max

theorem Inside.contains (h : i.Inside j) {x : Extended K} (mem : i.contains x = true) :
    j.contains x = true := by
  simp only [Interval.contains, Bool.and_eq_true, decide_eq_true_eq] at mem ⊢
  exact ⟨Extended.le_trans h.min mem.1, Extended.le_trans mem.2 h.max⟩

theorem Inside.refl_of_ordered (h : i.Ordered) : i.Inside i :=
  ⟨Extended.le_refl (defined_of_le h).1, Extended.le_refl (defined_of_le h).2⟩

/-- The same interval, or one inside another; equality covers intervals with undefined bounds. -/
def Within (i j : Interval (Extended K)) : Prop := i = j ∨ i.Inside j

theorem Within.contains (h : i.Within j) {x : Extended K} (mem : i.contains x = true) :
    j.contains x = true := by
  obtain rfl | inside := h
  · exact mem
  · exact inside.contains mem

/-- Those bounds of an interval that are defined are inside another one. -/
structure Reaches (i j : Interval (Extended K)) : Prop where
  min : i.min ≠ undefined → j.min ≤ i.min
  max : i.max ≠ undefined → i.max ≤ j.max

theorem reaches_hull_left (i j : Interval (Extended K)) : i.Reaches (i.hull j) where
  min := lesser_le_left j.min
  max := le_greater_left j.max

theorem reaches_hull_right (i j : Interval (Extended K)) : j.Reaches (i.hull j) where
  min := lesser_le_right i.min
  max := le_greater_right i.max

theorem reaches_refl (i : Interval (Extended K)) : i.Reaches i where
  min := Extended.le_refl
  max := Extended.le_refl

theorem Reaches.trans (h : i.Reaches j) (h' : j.Reaches k) : i.Reaches k where
  min defined := Extended.le_trans (h'.min (defined_of_le (h.min defined)).1) (h.min defined)
  max defined := Extended.le_trans (h.max defined) (h'.max (defined_of_le (h.max defined)).2)

/-! ## Hulls of many -/

/-- An interval reaches all intervals of a set, and each of its bounds is that of one of them. -/
structure Joins (s : Set (Interval (Extended K))) (i : Interval (Extended K)) : Prop where
  reaches : ∀ j ∈ s, j.Reaches i
  min : ∃ j ∈ s, i.min = j.min
  max : ∃ j ∈ s, i.max = j.max

theorem joins_singleton (i : Interval (Extended K)) : Joins {i} i where
  reaches _ same := same ▸ i.reaches_refl
  min := ⟨i, rfl, rfl⟩
  max := ⟨i, rfl, rfl⟩

theorem Joins.hull {s : Set (Interval (Extended K))} (h : Joins s i)
    (j : Interval (Extended K)) : Joins (insert j s) (i.hull j) where
  reaches := by
    rintro other (rfl | mem)
    · exact i.reaches_hull_right other
    · exact (h.reaches other mem).trans (i.reaches_hull_left j)
  min := by
    obtain ⟨attaining, mem, attained⟩ := h.min
    obtain same | same := Scalar.lesser_eq_or i.min j.min
    · exact ⟨attaining, .inr mem, same.trans attained⟩
    · exact ⟨j, .inl rfl, same⟩
  max := by
    obtain ⟨attaining, mem, attained⟩ := h.max
    obtain same | same := Scalar.greater_eq_or i.max j.max
    · exact ⟨attaining, .inr mem, same.trans attained⟩
    · exact ⟨j, .inl rfl, same⟩

/-- The hull of more intervals reaches at least as far. -/
theorem Joins.reaches_of_subset {s t : Set (Interval (Extended K))} (h : Joins s i)
    (h' : Joins t j) (more : s ⊆ t) : i.Reaches j := by
  constructor
  · obtain ⟨attaining, mem, attained⟩ := h.min
    rw [attained]
    exact (h'.reaches attaining (more mem)).min
  · obtain ⟨attaining, mem, attained⟩ := h.max
    rw [attained]
    exact (h'.reaches attaining (more mem)).max

/-! ## Operations -/

section

variable [IsStrictOrderedRing K]

/-- Bloating by more reaches further. That an interval can be bloated at all shows that its bounds
are defined. -/
theorem Reaches.bloat (h : i.Reaches i') {x y : K} (le : x ≤ y)
    (made : i.bloat (finite x) = .ok j) (made' : i'.bloat (finite y) = .ok j') :
    i.Inside i' ∧ j.Inside j' := by
  obtain ⟨ordered, rfl⟩ := make_eq_ok_iff.mp made
  obtain ⟨_, rfl⟩ := make_eq_ok_iff.mp made'
  have sub (a : Extended K) (z : K) : a - finite z = a + finite (-z) := rfl
  have inside : i.Inside i' := {
    min := h.min (defined_of_add_finite (sub _ x ▸ (defined_of_le ordered).1))
    max := h.max (defined_of_add_finite (defined_of_le ordered).2) }
  refine ⟨inside, ?_, add_finite_le_add_finite inside.max le⟩
  change i'.min - finite y ≤ i.min - finite x
  rw [sub, sub]
  exact add_finite_le_add_finite inside.min (neg_le_neg le)

theorem Inside.add (h : j.Inside j') (made : i.add j = .ok k) (made' : i.add j' = .ok k') :
    k.Inside k' := by
  obtain ⟨ordered, rfl⟩ := make_eq_ok_iff.mp made
  obtain ⟨ordered', rfl⟩ := make_eq_ok_iff.mp made'
  obtain ⟨lower, upper⟩ := defined_of_le ordered
  obtain ⟨lower', upper'⟩ := defined_of_le ordered'
  exact ⟨add_le_add_left_of_defined h.min lower' lower,
    add_le_add_left_of_defined h.max upper upper'⟩

end

/-! ## Products -/

theorem le_foldl_lesser {items : List (Extended K)} {b : Extended K} (defined : b ≠ undefined)
    (h : ∀ item ∈ items, b ≤ item) : b ≤ items.foldl Scalar.lesser Scalar.infinity :=
  Scalar.le_foldl_lesser (by simpa using defined) h

theorem foldl_greater_le {items : List (Extended K)} {b : Extended K} (defined : b ≠ undefined)
    (h : ∀ item ∈ items, item ≤ b) : items.foldl Scalar.greater (-Scalar.infinity) ≤ b :=
  Scalar.foldl_greater_le (by simpa using defined) h

/-- The corners of a product. -/
def corners (i j : Interval (Extended K)) : List (Extended K) :=
  [mulBound i.min j.min, mulBound i.min j.max, mulBound i.max j.min, mulBound i.max j.max]

variable [IsStrictOrderedRing K]

/-- A product of numbers from two intervals has a corner below it and one above it. -/
theorem exists_corners {a b : Extended K} (ha : i.min ≤ a ∧ a ≤ i.max)
    (hb : j.min ≤ b ∧ b ≤ j.max) :
    (∃ c ∈ i.corners j, c ≤ mulBound a b) ∧ ∃ c ∈ i.corners j, mulBound a b ≤ c := by
  have first := mulBound_between (defined_of_le hb.1).2 ha.1 ha.2
  rw [mulBound_comm b, mulBound_comm b, mulBound_comm b] at first
  have lower := mulBound_between (defined_of_le ha.1).1 hb.1 hb.2
  have upper := mulBound_between (defined_of_le ha.2).2 hb.1 hb.2
  constructor
  · obtain h | h := first.1
    · obtain h' | h' := lower.1 <;> exact ⟨_, by simp [corners], Extended.le_trans h' h⟩
    · obtain h' | h' := upper.1 <;> exact ⟨_, by simp [corners], Extended.le_trans h' h⟩
  · obtain h | h := first.2
    · obtain h' | h' := lower.2 <;> exact ⟨_, by simp [corners], Extended.le_trans h h'⟩
    · obtain h' | h' := upper.2 <;> exact ⟨_, by simp [corners], Extended.le_trans h h'⟩

/-- Every corner of the product of smaller intervals lies between corners of the larger ones. -/
theorem Inside.mul (h : i.Inside i') (h' : j.Inside j') (ordered : i.Ordered)
    (ordered' : j.Ordered) (made : i.mul j = .ok k) (made' : i'.mul j' = .ok k') :
    k.Inside k' := by
  obtain ⟨_, rfl⟩ := make_eq_ok_iff.mp made
  obtain ⟨productOrdered, rfl⟩ := make_eq_ok_iff.mp made'
  have between : ∀ a ∈ [i.min, i.max], i'.min ≤ a ∧ a ≤ i'.max := by
    simp only [List.forall_mem_cons]
    exact ⟨⟨h.min, Extended.le_trans ordered h.max⟩, ⟨Extended.le_trans h.min ordered, h.max⟩,
      by simp⟩
  have between' : ∀ b ∈ [j.min, j.max], j'.min ≤ b ∧ b ≤ j'.max := by
    simp only [List.forall_mem_cons]
    exact ⟨⟨h'.min, Extended.le_trans ordered' h'.max⟩,
      ⟨Extended.le_trans h'.min ordered', h'.max⟩, by simp⟩
  have corner : ∀ c ∈ i.corners j,
      (∃ c' ∈ i'.corners j', c' ≤ c) ∧ ∃ c' ∈ i'.corners j', c ≤ c' := by
    simp only [corners, List.forall_mem_cons]
    exact ⟨exists_corners (between _ (by simp)) (between' _ (by simp)),
      exists_corners (between _ (by simp)) (between' _ (by simp)),
      exists_corners (between _ (by simp)) (between' _ (by simp)),
      exists_corners (between _ (by simp)) (between' _ (by simp)), by simp⟩
  constructor
  · refine le_foldl_lesser (defined_of_le productOrdered).1 fun c mem => ?_
    obtain ⟨c', mem', le⟩ := (corner c mem).1
    exact Extended.le_trans (foldl_lesser_le mem' (defined_of_le le).1) le
  · refine foldl_greater_le (defined_of_le productOrdered).2 fun c mem => ?_
    obtain ⟨c', mem', le⟩ := (corner c mem).2
    exact Extended.le_trans le (le_foldl_greater mem' (defined_of_le le).2)

theorem Inside.scale (h : i.Inside i') (ordered : i.Ordered) {factor : Extended K}
    (made : i.scale factor = .ok k) (made' : i'.scale factor = .ok k') : k.Inside k' := by
  simp only [Interval.scale, bind_eq_ok_iff] at made made'
  obtain ⟨point, pointed, made⟩ := made
  obtain ⟨point', pointed', made'⟩ := made'
  obtain rfl : point = point' := Except.ok.inj (pointed.symm.trans pointed')
  have single := ordered_of_make pointed
  exact h.mul (.refl_of_ordered single) ordered single made made'

/-- An interval in order has a multiple by a positive number: the corners of the product are the
multiples of its two bounds, in the same order. -/
theorem exists_scale_of_positive {n : K} (positive : 0 < n) (ordered : i.Ordered) :
    ∃ k, i.scale (finite n) = .ok k ∧ ∀ w, k.Holds (n * w) ↔ i.Holds w := by
  let lower := mulBound i.min (finite n)
  let upper := mulBound i.max (finite n)
  have inOrder : lower ≤ upper := by
    have mono := mulBound_mono (finite_le_finite.mpr positive.le) ordered
    rwa [mulBound_comm, mulBound_comm (finite n)] at mono
  obtain ⟨hlower, hupper⟩ := defined_of_le inOrder
  let corners := [lower, lower, upper, upper]
  have least : corners.foldl Scalar.lesser Scalar.infinity ≤ lower ∧
      lower ≤ corners.foldl Scalar.lesser Scalar.infinity :=
    ⟨foldl_lesser_le (by simp [corners]) hlower, le_foldl_lesser hlower (by
      simp [corners, inOrder, Extended.le_refl hlower])⟩
  have greatest : corners.foldl Scalar.greater (-Scalar.infinity) ≤ upper ∧
      upper ≤ corners.foldl Scalar.greater (-Scalar.infinity) :=
    ⟨foldl_greater_le hupper (by simp [corners, inOrder, Extended.le_refl hupper]),
      le_foldl_greater (by simp [corners]) hupper⟩
  have product : i.scale (finite n) = cornerHull corners := by
    rw [Interval.scale, point_finite]
    rfl
  refine ⟨_, product.trans (make_eq_ok_iff.mpr ⟨?_, rfl⟩), fun w => and_congr ?_ ?_⟩
  · exact Extended.le_trans least.1 (Extended.le_trans inOrder greatest.2)
  · refine Iff.trans ?_ (mulBound_le_finite_iff positive i.min)
    exact ⟨Extended.le_trans least.2, Extended.le_trans least.1⟩
  · refine Iff.trans ?_ (finite_le_mulBound_iff positive i.max)
    exact ⟨fun h => Extended.le_trans h greatest.1, fun h => Extended.le_trans h greatest.2⟩

end Interval

end HybridAutomata
