import HybridAutomata.Proofs.Doubles.Arithmetic
import HybridAutomata.Proofs.Faultless

/-!
# Intervals of doubles

Bounds are rounded after they are computed, and rounding keeps the order. So an operation on
intervals with their bounds in order answers with such an interval, unless a bound of the answer is
undefined. Products have no undefined bounds; sums have them where infinities of different signs are
added, and quotients where infinities are divided.
-/

namespace HybridAutomata

open Double

/-! ## Products of bounds -/

namespace Double

variable {x y : Float}

theorem beq_zero_iff : (x == 0) = true ↔ value x = Extended.finite 0 := by
  rw [LawfulComparisons.beq_iff, le_iff, le_iff, value_zero]
  constructor
  · exact fun h => Extended.eq_finite_of_le h.1 h.2
  · intro same
    rw [same]
    exact ⟨Extended.finite_le_finite.mpr le_rfl, Extended.finite_le_finite.mpr le_rfl⟩

theorem mulBound_of_zero (h : value x = .finite 0 ∨ value y = .finite 0) :
    Interval.mulBound x y = 0 := by
  rw [← beq_zero_iff, ← beq_zero_iff] at h
  exact if_pos (Bool.or_eq_true_iff.mpr h)

theorem mulBound_of_ne (h : ¬(value x = .finite 0 ∨ value y = .finite 0)) :
    Interval.mulBound x y = x * y := by
  rw [← beq_zero_iff, ← beq_zero_iff] at h
  exact if_neg fun zero => h (Bool.or_eq_true_iff.mp zero)

/-- A product of bounds is defined. -/
theorem defined_mulBound (hx : x ≤ x) (hy : y ≤ y) :
    Interval.mulBound x y ≤ Interval.mulBound x y := by
  by_cases zero : value x = .finite 0 ∨ value y = .finite 0
  · rw [mulBound_of_zero zero]
    decide
  · rw [mulBound_of_ne zero]
    obtain ⟨hx', hy'⟩ := not_or.mp zero
    exact defined_mul hx hy hx' hy'

theorem mulBound_nonneg (hx : 0 ≤ x) (hy : 0 ≤ y) : 0 ≤ Interval.mulBound x y := by
  have defined := defined_mulBound (LawfulComparisons.defined_of_le hx).2
    (LawfulComparisons.defined_of_le hy).2
  by_cases zero : value x = .finite 0 ∨ value y = .finite 0
  · rw [mulBound_of_zero zero]
    decide
  · rw [mulBound_of_ne zero] at defined ⊢
    exact mul_nonneg hx hy defined

theorem value_mulBound_comm (x y : Float) :
    value (Interval.mulBound x y) = value (Interval.mulBound y x) := by
  by_cases zero : value x = .finite 0 ∨ value y = .finite 0
  · rw [mulBound_of_zero zero, mulBound_of_zero zero.symm]
  · rw [mulBound_of_ne zero, mulBound_of_ne (zero ∘ Or.symm), value_mul, value_mul,
      Extended.mul_comm]

theorem value_neg_mulBound (x y : Float) :
    value (Interval.mulBound (-x) y) = -value (Interval.mulBound x y) := by
  have opposite : value (-x) = .finite 0 ↔ value x = .finite 0 := by
    rw [value_neg]
    constructor
    · intro h
      rw [← Extended.neg_neg (value x), h, Extended.neg_finite, neg_zero]
    · intro h
      rw [h, Extended.neg_finite, neg_zero]
  by_cases zero : value x = .finite 0 ∨ value y = .finite 0
  · rw [mulBound_of_zero zero, mulBound_of_zero (zero.imp_left opposite.mpr), value_zero,
      Extended.neg_finite, neg_zero]
  · rw [mulBound_of_ne zero, mulBound_of_ne (zero ∘ Or.imp_left opposite.mp), value_mul, value_mul,
      value_neg, Extended.neg_mul, Rounding.rounded_neg]

/-- Factors of different signs. -/
theorem mulBound_nonpos (hx : x ≤ 0) (hy : 0 ≤ y) : Interval.mulBound x y ≤ 0 := by
  have opposite := neg_nonpos (mulBound_nonneg (neg_nonneg hx) hy)
  rwa [le_iff, value_neg, value_neg_mulBound, Extended.neg_neg, ← le_iff] at opposite

theorem mulBound_nonpos' (hx : 0 ≤ x) (hy : y ≤ 0) : Interval.mulBound x y ≤ 0 := by
  rw [le_iff, value_mulBound_comm, ← le_iff]
  exact mulBound_nonpos hy hx

theorem mulBound_nonneg_of_nonpos (hx : x ≤ 0) (hy : y ≤ 0) : 0 ≤ Interval.mulBound x y := by
  have opposite := neg_nonneg (mulBound_nonpos' (neg_nonneg hx) hy)
  rwa [le_iff, value_neg, value_neg_mulBound, Extended.neg_neg, ← le_iff] at opposite

end Double

namespace Interval

/-! ## Answers without a fault -/

theorem faultless_make_iff {α : Type} [Scalar α] {a b : α} :
    Faultless Ordered (make a b) ↔ a ≤ b := by
  rw [make]
  split
  · next le => exact iff_of_true le le
  · next above => exact iff_of_false (fun h => h trivial) above

theorem ordered_entire : (entire : Interval Float).Ordered := by
  rw [Ordered]
  decide

variable {i j k : Interval Float}

/-- A sum has an answer, unless one of its bounds is undefined. -/
theorem add_faultless_iff (hi : i.Ordered) (hj : j.Ordered) : Faultless Ordered (i.add j) ↔
    Scalar.isDefined (i.min + j.min) = true ∧ Scalar.isDefined (i.max + j.max) = true := by
  simp only [Scalar.isDefined, Scalar.isDefined_iff]
  refine faultless_make_iff.trans ⟨LawfulComparisons.defined_of_le, fun defined => ?_⟩
  exact add_le_add hi hj defined.1 defined.2

theorem sub_faultless_iff (hi : i.Ordered) (hj : j.Ordered) : Faultless Ordered (i.sub j) ↔
    Scalar.isDefined (i.min - j.max) = true ∧ Scalar.isDefined (i.max - j.min) = true := by
  simp only [Scalar.isDefined, Scalar.isDefined_iff]
  refine faultless_make_iff.trans ⟨LawfulComparisons.defined_of_le, fun defined => ?_⟩
  exact sub_le_sub hi hj defined.1 defined.2

theorem neg_faultless (hi : i.Ordered) : Faultless Ordered i.neg :=
  faultless_make_iff.mpr (neg_le_neg hi)

/-! ## Corners -/

/-- The hull of corners exists if one of them is defined, and it goes around all that are. -/
theorem cornerHull_faultless {corners : List Float} (exists_defined : ∃ c ∈ corners, c ≤ c) :
    Faultless (fun k => k.Ordered ∧ ∀ c ∈ corners, c ≤ c → k.min ≤ c ∧ c ≤ k.max)
      (cornerHull corners) := by
  obtain ⟨c, mem, defined⟩ := exists_defined
  have lower {c : Float} (mem : c ∈ corners) (defined : c ≤ c) :
      corners.foldl Scalar.lesser Scalar.infinity ≤ c :=
    Scalar.foldl_lesser_le (by decide) mem defined
  have upper {c : Float} (mem : c ∈ corners) (defined : c ≤ c) :
      c ≤ corners.foldl Scalar.greater (-Scalar.infinity) :=
    Scalar.le_foldl_greater (by decide) mem defined
  have le := LawfulComparisons.le_trans (lower mem defined) (upper mem defined)
  exact .of_exists ⟨_, make_eq_ok_iff.mpr ⟨le, rfl⟩, le, fun c mem defined =>
    ⟨lower mem defined, upper mem defined⟩⟩

theorem foldl_undefined {op : Float → Float → Float} (keeps : ∀ a b : Float, ¬b ≤ b → op a b = a)
    (start : Float) {items : List Float} (undefined : ∀ c ∈ items, ¬c ≤ c) :
    items.foldl op start = start := by
  induction items with
  | nil => rfl
  | cons c items ih =>
      obtain ⟨first, others⟩ := List.forall_mem_cons.mp undefined
      rw [List.foldl_cons, keeps start c first]
      exact ih others

theorem cornerHull_faultless_iff {corners : List Float} :
    Faultless Ordered (cornerHull corners) ↔ ∃ c ∈ corners, Scalar.isDefined c = true := by
  simp only [Scalar.isDefined, Scalar.isDefined_iff]
  constructor
  · intro faultless
    by_contra none
    push Not at none
    have lower : corners.foldl Scalar.lesser Scalar.infinity = Scalar.infinity :=
      foldl_undefined (fun a _ => Scalar.lesser_of_undefined a) _ none
    have upper : corners.foldl Scalar.greater (-Scalar.infinity) = -Scalar.infinity :=
      foldl_undefined (fun a _ => Scalar.greater_of_undefined a) _ none
    rw [cornerHull, lower, upper, faultless_make_iff] at faultless
    exact absurd faultless (by decide)
  · exact fun some => (cornerHull_faultless some).mono fun _ _ h => h.1

/-! ## Products and quotients -/

/-- Products always have an answer, which goes around the products of bounds. -/
theorem mul_faultless (hi : i.Ordered) (hj : j.Ordered) :
    Faultless (fun k => k.Ordered ∧ ∀ c ∈ [mulBound i.min j.min, mulBound i.min j.max,
      mulBound i.max j.min, mulBound i.max j.max], k.min ≤ c ∧ c ≤ k.max) (i.mul j) := by
  obtain ⟨i₁, i₂⟩ := LawfulComparisons.defined_of_le hi
  obtain ⟨j₁, j₂⟩ := LawfulComparisons.defined_of_le hj
  have first := defined_mulBound i₁ j₁
  refine (cornerHull_faultless ⟨_, List.mem_cons_self, first⟩).mono fun k _ ⟨ordered, around⟩ => ?_
  refine ⟨ordered, fun c mem => around c mem ?_⟩
  simp only [List.mem_cons, List.not_mem_nil, or_false] at mem
  obtain rfl | rfl | rfl | rfl := mem
  · exact first
  · exact defined_mulBound i₁ j₂
  · exact defined_mulBound i₂ j₁
  · exact defined_mulBound i₂ j₂

/-- A quotient has an answer, unless the divisor is without zero and all quotients of bounds are
undefined. -/
theorem div_faultless_iff : Faultless Ordered (i.div j) ↔ j.contains 0 = true ∨
    ∃ c ∈ [i.min / j.min, i.min / j.max, i.max / j.min, i.max / j.max],
      Scalar.isDefined c = true := by
  rw [div]
  split
  · next zero => exact iff_of_true ordered_entire (.inl zero)
  · next nonzero => exact cornerHull_faultless_iff.trans (or_iff_right nonzero).symm

/-! ## Zero -/

/-- The interval holds zero. -/
def HoldsZero (i : Interval Float) : Prop := i.min ≤ 0 ∧ 0 ≤ i.max

theorem HoldsZero.ordered (h : i.HoldsZero) : i.Ordered := LawfulComparisons.le_trans h.1 h.2

theorem HoldsZero.mul (h : i.HoldsZero) (hj : j.Ordered) : Faultless HoldsZero (i.mul j) := by
  refine (mul_faultless h.ordered hj).mono fun k _ ⟨_, around⟩ => ?_
  obtain ⟨lower, upper⟩ := around (mulBound i.min j.min) (by simp)
  obtain ⟨lower', upper'⟩ := around (mulBound i.max j.min) (by simp)
  have defined := (LawfulComparisons.defined_of_le hj).1
  -- the products of both bounds with the same one lie on different sides of zero
  obtain nonneg | nonpos := LawfulComparisons.le_total (a := (0 : Float)) (by decide) defined
  · exact ⟨LawfulComparisons.le_trans lower (mulBound_nonpos h.1 nonneg),
      LawfulComparisons.le_trans (mulBound_nonneg h.2 nonneg) upper'⟩
  · exact ⟨LawfulComparisons.le_trans lower' (mulBound_nonpos' h.2 nonpos),
      LawfulComparisons.le_trans (mulBound_nonneg_of_nonpos h.1 nonpos) upper⟩

theorem HoldsZero.scale (h : i.HoldsZero) {factor : Float} (defined : factor ≤ factor) :
    Faultless HoldsZero (i.scale factor) := by
  rw [Interval.scale, point, make, if_pos defined]
  exact h.mul (j := ⟨factor, factor⟩) defined

/-! ## Finite numbers -/

/-- The interval holds a finite number. -/
def HoldsFinite (i : Interval Float) : Prop :=
  ∃ v, Scalar.isFinite v = true ∧ i.min ≤ v ∧ v ≤ i.max

theorem HoldsFinite.ordered (h : i.HoldsFinite) : i.Ordered := by
  obtain ⟨v, _, lower, upper⟩ := h
  exact LawfulComparisons.le_trans lower upper

theorem HoldsFinite.add (hi : i.HoldsFinite) (hj : j.HoldsZero) :
    Faultless HoldsFinite (i.add j) := by
  obtain ⟨v, finite, lower, upper⟩ := hi
  have lower' := add_le_of_nonpos finite lower hj.1
  have upper' := le_add_of_nonneg finite upper hj.2
  exact .of_exists ⟨_, if_pos (LawfulComparisons.le_trans lower' upper'), v, finite, lower', upper'⟩

theorem HoldsFinite.hull_left (h : i.HoldsFinite) (j : Interval Float) : (i.hull j).HoldsFinite := by
  obtain ⟨v, finite, lower, upper⟩ := h
  have defined := LawfulComparisons.defined_of_le lower
  have defined' := LawfulComparisons.defined_of_le upper
  exact ⟨v, finite, LawfulComparisons.le_trans (Scalar.lesser_le_left _ defined.1) lower,
    LawfulComparisons.le_trans upper (Scalar.le_greater_left _ defined'.2)⟩

/-- Bounds that are moved outwards keep a number between them. -/
theorem HoldsFinite.bloat (h : i.HoldsFinite) {amount : Float} (nonneg : 0 ≤ amount) :
    Faultless HoldsFinite (i.bloat amount) := by
  obtain ⟨v, finite, lower, upper⟩ := h
  have lower' : i.min - amount ≤ v := by
    rw [le_iff, value_sub_eq, ← le_iff]
    exact add_le_of_nonpos finite lower (neg_nonpos nonneg)
  have upper' := le_add_of_nonneg finite upper nonneg
  exact .of_exists ⟨_, if_pos (LawfulComparisons.le_trans lower' upper'), v, finite, lower', upper'⟩

/-- Bounds in order, infinite ones among them, stay so when they are moved by a finite amount. -/
theorem bloat_faultless (hi : i.Ordered) {amount : Float}
    (accepted : Scalar.isNonNegative amount = true) : Faultless Ordered (i.bloat amount) := by
  obtain ⟨finite, nonneg⟩ := Bool.and_eq_true_iff.mp accepted
  have nonneg : 0 ≤ amount := of_decide_eq_true nonneg
  obtain ⟨lower, upper⟩ := LawfulComparisons.defined_of_le hi
  have outwards : -amount ≤ amount := LawfulComparisons.le_trans (neg_nonpos nonneg) nonneg
  refine faultless_make_iff.mpr ?_
  rw [le_iff, value_sub_eq, ← le_iff]
  exact add_le_add hi outwards (defined_add_of_isFinite lower (isFinite_neg finite))
    (defined_add_of_isFinite upper finite)

end Interval

end HybridAutomata
