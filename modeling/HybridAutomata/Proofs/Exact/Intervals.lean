import HybridAutomata.Interval
import HybridAutomata.Proofs.Exact.Fields

/-!
# Enclosure by intervals

An interval holds the numbers between its bounds, which may be infinite. Every operation on
intervals succeeds on operands that hold something, and its result holds the values of the operation
on what the operands hold. There is one lemma per operation, and nothing else of intervals is needed
for the enclosure of formulas.
-/

namespace HybridAutomata

open Extended

namespace Interval

variable {K : Type} [Field K] [LinearOrder K] [FloorRing K] [Functions K]

/-- The interval holds a number. -/
def Holds (i : Interval (Extended K)) (x : K) : Prop := i.min ≤ finite x ∧ finite x ≤ i.max

theorem contains_iff {i : Interval (Extended K)} {x : K} :
    i.contains (finite x) = true ↔ i.Holds x := by
  simp [contains, Holds]

theorem Holds.ordered {i : Interval (Extended K)} {x : K} (h : i.Holds x) : i.Ordered :=
  Extended.le_trans h.1 h.2

theorem make_of_holds {lo hi : Extended K} {x : K} (hlo : lo ≤ finite x) (hhi : finite x ≤ hi) :
    make lo hi = .ok ⟨lo, hi⟩ :=
  if_pos (Extended.le_trans hlo hhi)

/-- Bounds around a number make an interval that holds it. -/
theorem exists_make {lo hi : Extended K} {x : K} (hlo : lo ≤ finite x) (hhi : finite x ≤ hi) :
    ∃ i, make lo hi = .ok i ∧ i.Holds x :=
  ⟨_, make_of_holds hlo hhi, hlo, hhi⟩

theorem point_finite (x : K) : point (finite x) = .ok ⟨finite x, finite x⟩ :=
  make_of_holds (x := x) le_rfl le_rfl

theorem holds_point {x y : K} : Holds ⟨finite x, finite x⟩ y ↔ y = x := by
  simp [Holds, le_antisymm_iff, and_comm]

theorem holds_zero : Holds (zero : Interval (Extended K)) 0 := by
  simp [Holds, zero]

theorem holds_entire (x : K) : Holds entire x := by
  simp [Holds, entire]

/-- The bounds of an interval that holds something: the lower one is not infinite upwards, and the
upper one is not infinite downwards. -/
theorem Holds.defined {i : Interval (Extended K)} {x : K} (h : i.Holds x) :
    i.min ≠ undefined ∧ i.max ≠ undefined :=
  ⟨(defined_of_le h.1).1, (defined_of_le h.2).2⟩

/-! ## Hulls of corners -/

theorem foldl_lesser_le {items : List (Extended K)} {item : Extended K} (mem : item ∈ items)
    (h : item ≠ undefined) : items.foldl Scalar.lesser Scalar.infinity ≤ item :=
  Scalar.foldl_lesser_le (Extended.le_refl (by simp)) mem (Extended.le_refl h)

theorem le_foldl_greater {items : List (Extended K)} {item : Extended K} (mem : item ∈ items)
    (h : item ≠ undefined) : item ≤ items.foldl Scalar.greater (-Scalar.infinity) :=
  Scalar.le_foldl_greater (Extended.le_refl (by simp)) mem (Extended.le_refl h)

/-- Corners on both sides of a number suffice; undefined ones do no harm. -/
theorem exists_cornerHull {corners : List (Extended K)} {x : K}
    (below : ∃ c ∈ corners, c ≤ finite x) (above : ∃ c ∈ corners, finite x ≤ c) :
    ∃ i, cornerHull corners = .ok i ∧ i.Holds x := by
  obtain ⟨c, mem, le⟩ := below
  obtain ⟨c', mem', le'⟩ := above
  exact exists_make
    (Extended.le_trans (foldl_lesser_le mem (defined_of_le le).1) le)
    (Extended.le_trans le' (le_foldl_greater mem' (defined_of_le le').2))

theorem exists_cornerHull_of_mem {corners : List (Extended K)} {x : K} (mem : finite x ∈ corners) :
    ∃ i, cornerHull corners = .ok i ∧ i.Holds x :=
  exists_cornerHull ⟨_, mem, finite_le_finite.mpr le_rfl⟩ ⟨_, mem, finite_le_finite.mpr le_rfl⟩

/-- Not below both of two bounds and not above both. -/
def Between (lo hi b : Extended K) : Prop := (lo ≤ b ∨ hi ≤ b) ∧ (b ≤ lo ∨ b ≤ hi)

theorem Between.symm {lo hi b : Extended K} (h : Between lo hi b) : Between hi lo b :=
  ⟨h.1.symm, h.2.symm⟩

/-- If an operation stays between its values at the bounds of either operand, then its corners
enclose it. -/
theorem exists_cornerHull_of_between {f : Extended K → Extended K → Extended K}
    {i j : Interval (Extended K)} {b : Extended K} {x : K}
    (first : Between (f i.min b) (f i.max b) (finite x))
    (lower : Between (f i.min j.min) (f i.min j.max) (f i.min b))
    (upper : Between (f i.max j.min) (f i.max j.max) (f i.max b)) :
    ∃ k, cornerHull [f i.min j.min, f i.min j.max, f i.max j.min, f i.max j.max] = .ok k ∧
      k.Holds x := by
  apply exists_cornerHull
  · obtain h | h := first.1
    · obtain h' | h' := lower.1 <;> exact ⟨_, by simp, Extended.le_trans h' h⟩
    · obtain h' | h' := upper.1 <;> exact ⟨_, by simp, Extended.le_trans h' h⟩
  · obtain h | h := first.2
    · obtain h' | h' := lower.2 <;> exact ⟨_, by simp, Extended.le_trans h h'⟩
    · obtain h' | h' := upper.2 <;> exact ⟨_, by simp, Extended.le_trans h h'⟩

/-! ## Sums -/

section

variable [IsStrictOrderedRing K] {i j : Interval (Extended K)} {x y : K}

theorem Holds.neg_bounds (h : i.Holds x) : -i.max ≤ finite (-x) ∧ finite (-x) ≤ -i.min := by
  rw [← neg_finite, Extended.neg_le_neg_iff, Extended.neg_le_neg_iff]
  exact ⟨h.2, h.1⟩

theorem Holds.neg (h : i.Holds x) : ∃ k, i.neg = .ok k ∧ k.Holds (-x) :=
  exists_make h.neg_bounds.1 h.neg_bounds.2

theorem Holds.add (hx : i.Holds x) (hy : j.Holds y) :
    ∃ k, i.add j = .ok k ∧ k.Holds (x + y) :=
  exists_make (add_le_finite hx.1 hy.1) (finite_le_add hx.2 hy.2)

theorem Holds.sub (hx : i.Holds x) (hy : j.Holds y) :
    ∃ k, i.sub j = .ok k ∧ k.Holds (x - y) := by
  rw [sub_eq_add_neg]
  exact exists_make (add_le_finite hx.1 hy.neg_bounds.1) (finite_le_add hx.2 hy.neg_bounds.2)

end

/-! ## Products -/

/-- The bound in the direction of a sign; zero without a direction. -/
def boundOf : SignType → Extended K
  | .pos => posInf
  | .neg => negInf
  | .zero => finite 0

omit [LinearOrder K] [FloorRing K] [Functions K] in
theorem towards_eq_boundOf {s : SignType} (h : s ≠ 0) : (towards s : Extended K) = boundOf s := by
  cases s
  · exact absurd rfl h
  · rfl
  · rfl

theorem neg_boundOf (s : SignType) : -(boundOf s : Extended K) = boundOf (-s) := by
  cases s
  · exact congrArg finite neg_zero
  · rfl
  · rfl

theorem boundOf_mono {s t : SignType} (h : s ≤ t) : (boundOf s : Extended K) ≤ boundOf t := by
  cases s <;> cases t <;> first
    | exact absurd h (by decide)
    | simp [boundOf]

theorem mulBound_finite (x y : K) : mulBound (finite x) (finite y) = finite (x * y) := by
  rw [mulBound]
  split
  · next zero =>
      simp only [ofNat_eq, Nat.cast_zero, Bool.or_eq_true, finite_beq_finite,
        decide_eq_true_eq] at zero ⊢
      obtain rfl | rfl := zero <;> simp
  · rfl

theorem mulBound_comm (a b : Extended K) : mulBound a b = mulBound b a := by
  rw [mulBound, mulBound, Extended.mul_comm, Bool.or_comm]

theorem zero_mulBound (b : Extended K) : mulBound (finite 0) b = finite 0 := by
  simp [mulBound]

/-- An infinite factor leaves only the signs. -/
theorem mulBound_infinite {a b : Extended K} (ha : a = posInf ∨ a = negInf) (hb : b ≠ undefined) :
    mulBound a b = boundOf (a.sign * b.sign) := by
  have other (h : (a == finite 0 || b == finite 0) = false) : mulBound a b = a * b := by
    simp [mulBound, h]
  cases b with
  | undefined => exact absurd rfl hb
  | posInf => obtain rfl | rfl := ha <;> exact other (by simp)
  | negInf => obtain rfl | rfl := ha <;> exact other (by simp)
  | finite y =>
      by_cases zero : y = 0
      · rw [zero, mulBound_comm, zero_mulBound, Extended.sign, sign_zero, mul_zero]
        rfl
      · have direction : SignType.sign y ≠ 0 := sign_ne_zero.mpr zero
        obtain rfl | rfl := ha
        · rw [other (by simpa using zero)]
          exact towards_eq_boundOf (mul_ne_zero one_ne_zero direction)
        · rw [other (by simpa using zero)]
          exact towards_eq_boundOf (mul_ne_zero (show (-1 : SignType) ≠ 0 by decide) direction)

/-- A bound that is no number stays what it is under a positive factor. -/
theorem mulBound_finite_of_ne {k : K} (positive : 0 < k) {a : Extended K}
    (h : ∀ x, a ≠ finite x) : mulBound a (finite k) = a := by
  have nonzero : (a == 0 || finite k == 0) = false := by
    cases a with
    | finite x => exact absurd rfl (h x)
    | undefined => simp [positive.ne']
    | posInf => simp [positive.ne']
    | negInf => simp [positive.ne']
  have product : mulBound a (finite k) = a * finite k := by
    rw [mulBound, nonzero]
    rfl
  rw [product, mul_finite_of_ne h, sign_pos positive, mul_one]
  cases a with
  | finite x => exact absurd rfl (h x)
  | undefined => rfl
  | posInf => rfl
  | negInf => rfl

section

variable [IsStrictOrderedRing K]

/-- A positive factor keeps how a bound compares with a number. -/
theorem mulBound_le_finite_iff {k w : K} (positive : 0 < k) (a : Extended K) :
    mulBound a (finite k) ≤ finite (k * w) ↔ a ≤ finite w := by
  by_cases number : ∃ x, a = finite x
  · obtain ⟨x, rfl⟩ := number
    rw [mulBound_finite, finite_le_finite, finite_le_finite, mul_comm x,
      mul_le_mul_iff_right₀ positive]
  · rw [mulBound_finite_of_ne positive (not_exists.mp number)]
    cases a <;> simp at number ⊢

theorem finite_le_mulBound_iff {k w : K} (positive : 0 < k) (a : Extended K) :
    finite (k * w) ≤ mulBound a (finite k) ↔ finite w ≤ a := by
  by_cases number : ∃ x, a = finite x
  · obtain ⟨x, rfl⟩ := number
    rw [mulBound_finite, finite_le_finite, finite_le_finite, mul_comm x,
      mul_le_mul_iff_right₀ positive]
  · rw [mulBound_finite_of_ne positive (not_exists.mp number)]
    cases a <;> simp at number ⊢

theorem neg_mulBound {a b : Extended K} (ha : a ≠ undefined) (hb : b ≠ undefined) :
    mulBound (-a) b = -mulBound a b := by
  have infinite {a b : Extended K} (ha : a = posInf ∨ a = negInf) (hb : b ≠ undefined) :
      mulBound (-a) b = -mulBound a b := by
    rw [mulBound_infinite ha hb, neg_boundOf, mulBound_infinite _ hb, Extended.sign_neg, neg_mul]
    obtain rfl | rfl := ha <;> simp
  cases a with
  | undefined => exact absurd rfl ha
  | posInf => exact infinite (.inl rfl) hb
  | negInf => exact infinite (.inr rfl) hb
  | finite x =>
      cases b with
      | undefined => exact absurd rfl hb
      | finite y => rw [neg_finite, mulBound_finite, mulBound_finite, neg_finite, neg_mul]
      | posInf =>
          rw [mulBound_comm, mulBound_comm (finite x), mulBound_infinite (.inl rfl) (by simp),
            mulBound_infinite (.inl rfl) ha, neg_boundOf, Extended.sign_neg, mul_neg]
      | negInf =>
          rw [mulBound_comm, mulBound_comm (finite x), mulBound_infinite (.inr rfl) (by simp),
            mulBound_infinite (.inr rfl) ha, neg_boundOf, Extended.sign_neg, mul_neg]

/-- A product of bounds grows with one factor if the other one is not negative. -/
theorem mulBound_mono {a b c : Extended K} (ha : finite 0 ≤ a) (h : b ≤ c) :
    mulBound a b ≤ mulBound a c := by
  obtain ⟨hb, hc⟩ := defined_of_le h
  cases a with
  | undefined => exact absurd ha (not_le_undefined _)
  | negInf => exact absurd ha (not_finite_le_negInf _)
  | posInf =>
      rw [mulBound_infinite (.inl rfl) hb, mulBound_infinite (.inl rfl) hc]
      exact boundOf_mono (by simpa [Extended.sign] using sign_mono h)
  | finite x =>
      obtain rfl | positive := (finite_le_finite.mp ha).eq_or_lt
      · rw [zero_mulBound, zero_mulBound]
        exact finite_le_finite.mpr le_rfl
      · have upper : mulBound (finite x) posInf = posInf := by
          rw [mulBound_comm, mulBound_infinite (.inl rfl) (by simp), Extended.sign, Extended.sign,
            sign_pos positive]
          rfl
        have lower : mulBound (finite x) negInf = negInf := by
          rw [mulBound_comm, mulBound_infinite (.inr rfl) (by simp), Extended.sign, Extended.sign,
            sign_pos positive]
          rfl
        cases b <;> cases c <;> simp_all [mulBound_finite]

/-- Between two bounds, a product is between the products with these bounds. -/
theorem mulBound_between {a lo b hi : Extended K} (ha : a ≠ undefined) (hlo : lo ≤ b)
    (hhi : b ≤ hi) : Between (mulBound a lo) (mulBound a hi) (mulBound a b) := by
  obtain nonneg | nonpos := Extended.le_total (b := a) (a := finite 0) (by simp) ha
  · exact ⟨.inl (mulBound_mono nonneg hlo), .inr (mulBound_mono nonneg hhi)⟩
  · have nonneg : finite 0 ≤ -a := by simpa using Extended.neg_le_neg_iff.mpr nonpos
    have anti {b c : Extended K} (h : b ≤ c) : mulBound a c ≤ mulBound a b := by
      have mono := mulBound_mono nonneg h
      obtain ⟨hb, hc⟩ := defined_of_le h
      rwa [neg_mulBound ha hb, neg_mulBound ha hc, Extended.neg_le_neg_iff] at mono
    exact ⟨.inr (anti hhi), .inl (anti hlo)⟩

theorem Holds.mul {i j : Interval (Extended K)} {x y : K} (hx : i.Holds x) (hy : j.Holds y) :
    ∃ k, i.mul j = .ok k ∧ k.Holds (x * y) := by
  have first := mulBound_between (a := finite y) (by simp) hx.1 hx.2
  rw [mulBound_comm _ i.min, mulBound_comm _ i.max, mulBound_finite, mul_comm y x] at first
  exact exists_cornerHull_of_between first (mulBound_between hx.defined.1 hy.1 hy.2)
    (mulBound_between hx.defined.2 hy.1 hy.2)

theorem Holds.scale {i : Interval (Extended K)} {x : K} (hx : i.Holds x) (factor : K) :
    ∃ k, i.scale (finite factor) = .ok k ∧ k.Holds (x * factor) := by
  rw [Interval.scale, point_finite]
  exact hx.mul (holds_point.mpr rfl)

/-! ## Quotients -/

omit [IsStrictOrderedRing K] in
theorem infinite_div {a : Extended K} (ha : a = posInf ∨ a = negInf) {y : K} (h : 0 < y) :
    a / finite y = a := by
  have direction {a : Extended K} (ha : a = posInf ∨ a = negInf) :
      a / finite y = towards (a.sign * if y = 0 then 1 else SignType.sign y) := by
    obtain rfl | rfl := ha <;> rfl
  rw [direction ha, if_neg h.ne', sign_pos h, mul_one]
  obtain rfl | rfl := ha <;> rfl

/-- A quotient by a positive number keeps the order. -/
theorem div_mono {a b : Extended K} (h : a ≤ b) {y : K} (positive : 0 < y) :
    a / finite y ≤ b / finite y := by
  have up : (posInf : Extended K) / finite y = posInf := infinite_div (.inl rfl) positive
  have down : (negInf : Extended K) / finite y = negInf := infinite_div (.inr rfl) positive
  cases a <;> cases b <;>
    simp_all [finite_div positive.ne', div_le_div_iff_of_pos_right]

theorem neg_div_neg (a : Extended K) {b : Extended K} (h : (b == finite 0) = false) :
    -a / -b = a / b := by
  have direction {s : SignType} {y : K} (ne : y ≠ 0) :
      (towards (-s * SignType.sign (-y)) : Extended K) = towards (s * SignType.sign y) := by
    rw [Left.sign_neg, neg_mul_neg]
  cases b with
  | finite y =>
      have ne : y ≠ 0 := by simpa using h
      cases a with
      | finite x => simp [finite_div ne, finite_div (neg_ne_zero.mpr ne), neg_div_neg_eq]
      | undefined =>
          change towards (0 * if -y = 0 then 1 else SignType.sign (-y)) =
            towards (0 * if y = 0 then 1 else SignType.sign y)
          rw [zero_mul, zero_mul]
      | posInf =>
          change towards (-1 * if -y = 0 then 1 else SignType.sign (-y)) =
            towards (1 * if y = 0 then 1 else SignType.sign y)
          rw [if_neg ne, if_neg (neg_ne_zero.mpr ne), direction ne]
      | negInf =>
          change towards (1 * if -y = 0 then 1 else SignType.sign (-y)) =
            towards (-1 * if y = 0 then 1 else SignType.sign y)
          rw [if_neg ne, if_neg (neg_ne_zero.mpr ne), ← direction ne, neg_neg]
  | undefined => cases a <;> rfl
  | posInf => cases a <;> rfl
  | negInf => cases a <;> rfl

/-- Between two positive bounds of the divisor, a quotient is between the quotients by these. -/
theorem div_between_of_pos {a lo hi : Extended K} {y : K} (ha : a ≠ undefined)
    (positive : ¬lo ≤ finite 0) (hlo : lo ≤ finite y) (hhi : finite y ≤ hi) :
    Between (a / lo) (a / hi) (a / finite y) := by
  cases lo with
  | undefined => exact absurd hlo (not_undefined_le _)
  | posInf => exact absurd hlo (not_posInf_le_finite _)
  | negInf => exact absurd (negInf_le_iff.mpr (by simp)) positive
  | finite l =>
      have hl : 0 < l := not_le.mp positive
      have le : l ≤ y := hlo
      have hy : 0 < y := hl.trans_le le
      have infinite (ha : a = posInf ∨ a = negInf) :
          Between (a / finite l) (a / hi) (a / finite y) := by
        rw [infinite_div ha hl, infinite_div ha hy]
        have refl : a ≤ a := by obtain rfl | rfl := ha <;> simp
        exact ⟨.inl refl, .inl refl⟩
      cases a with
      | undefined => exact absurd rfl ha
      | posInf => exact infinite (.inl rfl)
      | negInf => exact infinite (.inr rfl)
      | finite x =>
          rw [finite_div hl.ne', finite_div hy.ne']
          have outer {z : K} (hz : y ≤ z) : finite x / finite z = finite (x / z) :=
            finite_div (hy.trans_le hz).ne'
          obtain nonneg | nonpos := le_total 0 x
          · refine ⟨.inr ?_, .inl (div_le_div_of_nonneg_left nonneg hl le)⟩
            cases hi with
            | undefined => exact absurd hhi (not_le_undefined _)
            | negInf => exact absurd hhi (not_finite_le_negInf _)
            | posInf => exact div_nonneg nonneg hy.le
            | finite h =>
                rw [outer hhi]
                exact div_le_div_of_nonneg_left nonneg hy hhi
          · have anti {c d : K} (hc : 0 < c) (h : c ≤ d) : x / c ≤ x / d := by
              have mono := div_le_div_of_nonneg_left (neg_nonneg.mpr nonpos) hc h
              rwa [neg_div, neg_div, neg_le_neg_iff] at mono
            refine ⟨.inl (anti hl le), .inr ?_⟩
            cases hi with
            | undefined => exact absurd hhi (not_le_undefined _)
            | negInf => exact absurd hhi (not_finite_le_negInf _)
            | posInf => exact div_nonpos_of_nonpos_of_nonneg nonpos hy.le
            | finite h =>
                rw [outer hhi]
                exact anti hy hhi

/-- If the bounds of the divisor have one sign, a quotient is between the quotients by these. -/
theorem div_between {a lo hi : Extended K} {y : K} (ha : a ≠ undefined)
    (hzero : ¬(lo ≤ finite 0 ∧ finite 0 ≤ hi)) (hlo : lo ≤ finite y) (hhi : finite y ≤ hi) :
    Between (a / lo) (a / hi) (a / finite y) := by
  obtain positive | negative := not_and_or.mp hzero
  · exact div_between_of_pos ha positive hlo hhi
  · have ne {b : Extended K} (h : ¬finite 0 ≤ b) : (b == finite 0) = false := by
      rw [Bool.eq_false_iff, Ne, beq_iff]
      intro same
      exact h same.2
    have ha' : -a ≠ undefined := by cases a <;> simp_all
    have outside : ¬-hi ≤ finite 0 := by
      rwa [← neg_zero, ← neg_finite, Extended.neg_le_neg_iff]
    have below : -hi ≤ finite (-y) := by rwa [← neg_finite, Extended.neg_le_neg_iff]
    have above : finite (-y) ≤ -lo := by rwa [← neg_finite, Extended.neg_le_neg_iff]
    have mirrored := div_between_of_pos ha' outside below above
    have negative_y : ¬finite 0 ≤ finite y := by
      intro h
      exact negative (Extended.le_trans h hhi)
    have negative_lo : ¬finite 0 ≤ lo := by
      intro h
      exact negative_y (Extended.le_trans h hlo)
    rw [← neg_finite, neg_div_neg a (ne negative), neg_div_neg a (ne negative_lo),
      neg_div_neg a (ne negative_y)] at mirrored
    exact mirrored.symm

theorem div_between_left {lo hi : Extended K} {x y : K} (ne : y ≠ 0) (hlo : lo ≤ finite x)
    (hhi : finite x ≤ hi) : Between (lo / finite y) (hi / finite y) (finite (x / y)) := by
  have ofPos {lo hi : Extended K} {x y : K} (positive : 0 < y) (hlo : lo ≤ finite x)
      (hhi : finite x ≤ hi) : Between (lo / finite y) (hi / finite y) (finite (x / y)) := by
    rw [← finite_div positive.ne']
    exact ⟨.inl (div_mono hlo positive), .inr (div_mono hhi positive)⟩
  obtain negative | positive := ne.lt_or_gt
  · have below : -hi ≤ finite (-x) := by rwa [← neg_finite, Extended.neg_le_neg_iff]
    have above : finite (-x) ≤ -lo := by rwa [← neg_finite, Extended.neg_le_neg_iff]
    have mirrored := ofPos (neg_pos.mpr negative) below above
    rw [← neg_finite, neg_div_neg _ (by simpa using ne), neg_div_neg _ (by simpa using ne),
      neg_div_neg_eq] at mirrored
    exact mirrored.symm
  · exact ofPos positive hlo hhi

/-- The quotient by an interval that reaches zero is all numbers; for other divisors the corners
enclose it. -/
theorem Holds.div {i j : Interval (Extended K)} {x y : K} (hx : i.Holds x) (hy : j.Holds y)
    (ne : y ≠ 0) : ∃ k, i.div j = .ok k ∧ k.Holds (x / y) := by
  rw [Interval.div]
  split
  · exact ⟨entire, rfl, holds_entire _⟩
  · next hzero =>
      rw [zero_eq, contains_iff] at hzero
      exact exists_cornerHull_of_between (div_between_left ne hx.1 hx.2)
        (div_between hx.defined.1 hzero hy.1 hy.2) (div_between hx.defined.2 hzero hy.1 hy.2)

end

end Interval

end HybridAutomata
