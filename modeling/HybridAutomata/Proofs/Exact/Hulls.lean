import Mathlib.Data.Set.NAry
import HybridAutomata.Expr.Range
import HybridAutomata.Proofs.Exact.Intervals

/-!
# Arithmetic on intervals is tight

The enclosure of values says that an operation on intervals misses nothing. For bounded operands it
also adds nothing: both bounds of the result are values that the operation takes on the operands.
The bounds of a sum and of a difference are taken where the operands have theirs. For products and
quotients the extremes are among the four corners, and which of them they are depends on four signs;
that the least of the corners is a corner needs no signs at all, and that it is below all values is
what the enclosure says.
-/

namespace HybridAutomata

open Extended

namespace Interval

/-! ## Least and greatest values -/

section

variable {α : Type} [Scalar α]

/-- The values that an operation takes on what two intervals contain. -/
def images (op : ArithOp) (i j : Interval α) : Set α :=
  Set.image2 op.apply {a | i.contains a = true} {b | j.contains b = true}

variable [LawfulComparisons α] {i : Interval α} {s : Set α}

open LawfulComparisons

theorem Ordered.contains_min (h : i.Ordered) : i.contains i.min = true := by
  obtain ⟨defined, _⟩ := defined_of_le h
  simpa [contains] using ⟨defined, h⟩

theorem Ordered.contains_max (h : i.Ordered) : i.contains i.max = true := by
  obtain ⟨_, defined⟩ := defined_of_le h
  simpa [contains] using ⟨h, defined⟩

omit [LawfulComparisons α] in
/-- Bounds that are taken are least and greatest if everything lies between them. -/
theorem encloses_of_mem (least : i.min ∈ s) (greatest : i.max ∈ s)
    (between : ∀ a ∈ s, i.contains a = true) : Encloses s i := by
  simp only [contains, Bool.and_eq_true, decide_eq_true_eq] at between
  exact ⟨⟨least, fun a mem => (between a mem).1⟩, ⟨greatest, fun a mem => (between a mem).2⟩⟩

omit [LawfulComparisons α] in
/-- No interval that contains the numbers is smaller. -/
theorem Encloses.containsInterval (h : Encloses s i) {j : Interval α}
    (all : ∀ a ∈ s, j.contains a = true) : j.containsInterval i = true := by
  simp only [contains, Bool.and_eq_true, decide_eq_true_eq] at all
  simpa [Interval.containsInterval] using
    ⟨(all _ h.least.1).1, (all _ h.greatest.1).2⟩

/-! ## Corners -/

theorem lesser_infinity {a : α} (h : Scalar.isFinite a = true) :
    Scalar.lesser Scalar.infinity a = a := by
  have defined := Scalar.defined_of_isFinite h
  rw [Scalar.isFinite, Bool.and_eq_true, decide_eq_true_iff, decide_eq_true_iff] at h
  have notAbove : ¬Scalar.infinity < a := fun above => (lt_iff.mp above).2 (lt_iff.mp h.2).1
  rw [Scalar.lesser, if_neg notAbove, if_pos (Scalar.isDefined_iff.mpr defined)]

theorem greater_neg_infinity {a : α} (h : Scalar.isFinite a = true) :
    Scalar.greater (-Scalar.infinity) a = a := by
  have defined := Scalar.defined_of_isFinite h
  rw [Scalar.isFinite, Bool.and_eq_true, decide_eq_true_iff, decide_eq_true_iff] at h
  have notBelow : ¬a < -Scalar.infinity := fun below => (lt_iff.mp below).2 (lt_iff.mp h.1).1
  rw [Scalar.greater, if_neg notBelow, if_pos (Scalar.isDefined_iff.mpr defined)]

/-- The first finite corner takes the place of the infinities. -/
theorem cornerHull_cons {c : α} (h : Scalar.isFinite c = true) (corners : List α) :
    cornerHull (c :: corners) =
      make (corners.foldl Scalar.lesser c) (corners.foldl Scalar.greater c) := by
  rw [cornerHull, List.foldl_cons, List.foldl_cons, lesser_infinity h, greater_neg_infinity h]

omit [LawfulComparisons α] in
theorem foldl_hullPoint (values : List α) (i : Interval α) :
    values.foldl hullPoint i =
      ⟨values.foldl Scalar.lesser i.min, values.foldl Scalar.greater i.max⟩ := by
  induction values generalizing i with
  | nil => rfl
  | cons a rest ih => exact ih _

/-- The hull of finite corners has corners as its bounds. -/
theorem exists_cornerHull_encloses {corners : List α} (nonempty : corners ≠ [])
    (finite : ∀ c ∈ corners, Scalar.isFinite c = true) :
    ∃ k, cornerHull corners = .ok k ∧ Encloses {c | c ∈ corners} k := by
  obtain ⟨c, rest, rfl⟩ := List.exists_cons_of_ne_nil nonempty
  have defined : ∀ a ∈ c :: rest, a ≤ a := fun a mem => Scalar.defined_of_isFinite (finite a mem)
  obtain ⟨here, others⟩ := List.forall_mem_cons.mp defined
  have hull := (encloses_singleton here).foldl_hullPoint others
  rw [foldl_hullPoint] at hull
  refine ⟨_, ?_, by simpa using hull⟩
  rw [cornerHull_cons (finite c List.mem_cons_self)]
  exact make_eq_ok_iff.mpr ⟨hull.least.2 hull.greatest.1, rfl⟩

end

/-! ## Exact operations on bounded intervals -/

variable {K : Type} [Field K] [LinearOrder K] [FloorRing K] [Functions K]
  {i j : Interval (Extended K)}

theorem exists_bounds (bounded : i.isBounded = true) :
    ∃ lo hi : K, i.min = finite lo ∧ i.max = finite hi := by
  rw [isBounded, Bool.and_eq_true, isFinite_iff, isFinite_iff] at bounded
  obtain ⟨⟨lo, lower⟩, hi, upper⟩ := bounded
  exact ⟨lo, hi, lower, upper⟩

/-- A bounded interval contains nothing but numbers. -/
theorem exists_of_contains (bounded : i.isBounded = true) {a : Extended K}
    (h : i.contains a = true) : ∃ x, a = finite x ∧ i.Holds x := by
  obtain ⟨lo, hi, lower, upper⟩ := exists_bounds bounded
  rw [contains, Bool.and_eq_true, decide_eq_true_iff, decide_eq_true_iff] at h
  have above := h.1
  have below := h.2
  rw [lower] at above
  rw [upper] at below
  cases a with
  | finite x => exact ⟨x, rfl, h⟩
  | undefined => exact absurd above (not_le_undefined _)
  | posInf => exact absurd below (not_posInf_le_finite _)
  | negInf => exact absurd above (not_finite_le_negInf _)

section

variable {k : Interval (Extended K)} {op : ArithOp}

/-- The bounds of an interval that encloses the values of an operation are least and greatest if
they are values of it. -/
theorem encloses_images (hi : i.isBounded = true) (hj : j.isBounded = true)
    (made : applyArith op i j = .ok k)
    (encloses : ∀ x y, i.Holds x → j.Holds y →
      ∃ z k', op.apply (finite x) (finite y) = finite z ∧
        applyArith op i j = .ok k' ∧ k'.Holds z)
    (least : k.min ∈ images op i j) (greatest : k.max ∈ images op i j) :
    Encloses (images op i j) k := by
  refine encloses_of_mem least greatest ?_
  rintro _ ⟨a, ha, b, hb, rfl⟩
  obtain ⟨x, rfl, hx⟩ := exists_of_contains hi ha
  obtain ⟨y, rfl, hy⟩ := exists_of_contains hj hb
  obtain ⟨z, k', value, made', holds⟩ := encloses x y hx hy
  obtain rfl : k = k' := Except.ok.inj (made.symm.trans made')
  rw [value]
  exact contains_iff.mpr holds

/-- An operation whose corners are finite values of it has the hull of the corners as its result. -/
theorem exists_corners_encloses (op : ArithOp) (hi : i.isBounded = true)
    (hj : j.isBounded = true) {corners : List (Extended K)} (nonempty : corners ≠ [])
    (result : applyArith op i j = cornerHull corners)
    (values : ∀ c ∈ corners, Scalar.isFinite c = true ∧ c ∈ images op i j)
    (encloses : ∀ x y, i.Holds x → j.Holds y →
      ∃ z k', op.apply (finite x) (finite y) = finite z ∧
        applyArith op i j = .ok k' ∧ k'.Holds z) :
    ∃ k, applyArith op i j = .ok k ∧ Encloses (images op i j) k := by
  obtain ⟨k, made, hull⟩ := exists_cornerHull_encloses nonempty fun c mem => (values c mem).1
  rw [← result] at made
  exact ⟨k, made, encloses_images hi hj made encloses (values _ hull.least.1).2
    (values _ hull.greatest.1).2⟩

/-- A corner of an operation is a value of it. -/
theorem corner_mem_images {f : Extended K → Extended K → Extended K} (oi : i.Ordered)
    (oj : j.Ordered) (hi : i.isBounded = true) (hj : j.isBounded = true)
    (value : ∀ x y, i.Holds x → j.Holds y → ∃ z, f (finite x) (finite y) = finite z ∧
      op.apply (finite x) (finite y) = finite z) :
    ∀ c ∈ [f i.min j.min, f i.min j.max, f i.max j.min, f i.max j.max],
      Scalar.isFinite c = true ∧ c ∈ images op i j := by
  have corner {a b : Extended K} (ha : i.contains a = true) (hb : j.contains b = true) :
      Scalar.isFinite (f a b) = true ∧ f a b ∈ images op i j := by
    obtain ⟨x, rfl, hx⟩ := exists_of_contains hi ha
    obtain ⟨y, rfl, hy⟩ := exists_of_contains hj hb
    obtain ⟨z, same, value⟩ := value x y hx hy
    rw [same]
    exact ⟨isFinite_iff.mpr ⟨z, rfl⟩, _, ha, _, hb, value⟩
  simp only [List.forall_mem_cons, List.not_mem_nil, false_imp_iff, implies_true, and_true]
  exact ⟨corner oi.contains_min oj.contains_min, corner oi.contains_min oj.contains_max,
    corner oi.contains_max oj.contains_min, corner oi.contains_max oj.contains_max⟩

variable [IsStrictOrderedRing K]

/-- The bounds of a sum are the sums of the bounds. -/
theorem exists_add_encloses (hi : i.isBounded = true) (hj : j.isBounded = true) (oi : i.Ordered)
    (oj : j.Ordered) : ∃ k, i.add j = .ok k ∧ Encloses (images .add i j) k := by
  obtain ⟨x, _, hx⟩ := exists_of_contains hi oi.contains_min
  obtain ⟨y, _, hy⟩ := exists_of_contains hj oj.contains_min
  obtain ⟨k, made, _⟩ := hx.add hy
  obtain ⟨_, rfl⟩ := make_eq_ok_iff.mp made
  refine ⟨_, made, encloses_images hi hj made (fun x y hx hy => ?_) ?_ ?_⟩
  · obtain ⟨k', made', holds⟩ := hx.add hy
    exact ⟨_, k', rfl, made', holds⟩
  · exact Set.mem_image2_of_mem oi.contains_min oj.contains_min
  · exact Set.mem_image2_of_mem oi.contains_max oj.contains_max

/-- The bounds of a difference are the differences of opposite bounds. -/
theorem exists_sub_encloses (hi : i.isBounded = true) (hj : j.isBounded = true) (oi : i.Ordered)
    (oj : j.Ordered) : ∃ k, i.sub j = .ok k ∧ Encloses (images .sub i j) k := by
  obtain ⟨x, _, hx⟩ := exists_of_contains hi oi.contains_min
  obtain ⟨y, _, hy⟩ := exists_of_contains hj oj.contains_min
  obtain ⟨k, made, _⟩ := hx.sub hy
  obtain ⟨_, rfl⟩ := make_eq_ok_iff.mp made
  refine ⟨_, made, encloses_images hi hj made (fun x y hx hy => ?_) ?_ ?_⟩
  · obtain ⟨k', made', holds⟩ := hx.sub hy
    exact ⟨_, k', finite_sub x y, made', holds⟩
  · exact Set.mem_image2_of_mem oi.contains_min oj.contains_max
  · exact Set.mem_image2_of_mem oi.contains_max oj.contains_min

theorem exists_mul_encloses (hi : i.isBounded = true) (hj : j.isBounded = true) (oi : i.Ordered)
    (oj : j.Ordered) : ∃ k, i.mul j = .ok k ∧ Encloses (images .mul i j) k := by
  refine exists_corners_encloses .mul hi hj (List.cons_ne_nil _ _) rfl
    (corner_mem_images (f := mulBound) oi oj hi hj fun x y _ _ => ?_) fun x y hx hy => ?_
  · exact ⟨x * y, mulBound_finite x y, rfl⟩
  · obtain ⟨k, made, holds⟩ := hx.mul hy
    exact ⟨_, k, rfl, made, holds⟩

theorem exists_div_encloses (hi : i.isBounded = true) (hj : j.isBounded = true) (oi : i.Ordered)
    (oj : j.Ordered) (nonzero : j.contains 0 = false) :
    ∃ k, i.div j = .ok k ∧ Encloses (images .div i j) k := by
  have quotient {y : K} (hy : j.Holds y) : y ≠ 0 := by
    rintro rfl
    rw [zero_eq, contains_iff.mpr hy] at nonzero
    cases nonzero
  have corners : i.div j =
      cornerHull [i.min / j.min, i.min / j.max, i.max / j.min, i.max / j.max] :=
    if_neg (Bool.eq_false_iff.mp nonzero)
  refine exists_corners_encloses .div hi hj (List.cons_ne_nil _ _) corners
    (corner_mem_images (f := (· / ·)) oi oj hi hj fun x y _ hy => ?_) fun x y hx hy => ?_
  · exact ⟨x / y, finite_div (quotient hy), finite_div (quotient hy)⟩
  · obtain ⟨k, made, holds⟩ := hx.div hy (quotient hy)
    exact ⟨_, k, finite_div (quotient hy), made, holds⟩

/-- On bounded intervals each of the four operations, the quotient by an interval without zero among
them, gives the smallest interval that contains its values: the bounds are the least and the
greatest value. -/
theorem applyArith_smallest (op : ArithOp) (hi : i.isBounded = true) (hj : j.isBounded = true)
    (oi : i.Ordered) (oj : j.Ordered) (notPower : op ≠ .pow)
    (divisor : op = .div → j.contains 0 = false) :
    ∃ k, applyArith op i j = .ok k ∧ Encloses (images op i j) k ∧
      ∀ k' : Interval (Extended K),
        (∀ a ∈ images op i j, k'.contains a = true) → k'.containsInterval k = true := by
  have result : ∃ k, applyArith op i j = .ok k ∧ Encloses (images op i j) k := by
    cases op with
    | add => exact exists_add_encloses hi hj oi oj
    | sub => exact exists_sub_encloses hi hj oi oj
    | mul => exact exists_mul_encloses hi hj oi oj
    | div => exact exists_div_encloses hi hj oi oj (divisor rfl)
    | pow => exact absurd rfl notPower
  obtain ⟨k, made, tight⟩ := result
  exact ⟨k, made, tight, fun _ => tight.containsInterval⟩

/-- The dividend changes its sign, and both extremes lie at the upper bound of the divisor. -/
theorem applyArith_smallest_quotient :
    let i : Interval (Extended ℚ) := ⟨finite (-1), finite 2⟩
    let j : Interval (Extended ℚ) := ⟨finite (-4), finite (-2)⟩
    i.isBounded = true ∧ j.isBounded = true ∧ i.Ordered ∧ j.Ordered ∧ j.contains 0 = false ∧
      i.div j = .ok ⟨finite (-1), finite (1 / 2)⟩ ∧
      Encloses (images .div i j) ⟨finite (-1), finite (1 / 2)⟩ := by
  intro i j
  have hi : i.isBounded = true := rfl
  have hj : j.isBounded = true := rfl
  have oi : i.Ordered := finite_le_finite.mpr (by norm_num)
  have oj : j.Ordered := finite_le_finite.mpr (by norm_num)
  have nonzero : j.contains 0 = false := by
    rw [zero_eq]
    rfl
  have quotient : i.div j = .ok ⟨finite (-1), finite (1 / 2)⟩ := by
    have corners : [i.min / j.min, i.min / j.max, i.max / j.min, i.max / j.max] =
        [finite (1 / 4), finite (1 / 2), finite (-1 / 2), finite (-1)] := by
      norm_num [i, j, finite_div]
    rw [Interval.div, if_neg (Bool.eq_false_iff.mp nonzero), corners,
      cornerHull_cons (isFinite_iff.mpr ⟨_, rfl⟩)]
    norm_num
  obtain ⟨k, made, tight, _⟩ :=
    applyArith_smallest .div hi hj oi oj (by decide) fun _ => nonzero
  obtain rfl : k = _ := Except.ok.inj (made.symm.trans quotient)
  exact ⟨hi, hj, oi, oj, nonzero, quotient, tight⟩

end

end Interval

end HybridAutomata
