import HybridAutomata.Proofs.Doubles.Intervals
import HybridAutomata.Proofs.Exact.Powers

/-!
# Powers of doubles

A power with a natural exponent is multiplied out by repeated squaring, and each product is rounded.
The factors of a product are both at most one in size, or both at least one, so that zero is never
multiplied by an infinity: a power of a number is a number. Rounding keeps the order, so powers with
odd exponents do too, and those with even exponents are not below zero. Intervals of doubles have
powers for this reason.
-/

namespace HybridAutomata

namespace Double

open Extended Rounding

variable {a b a' b' : Extended ℚ}

/-! ## Repeated squaring of values -/

/-- The value of a power by repeated squaring: every product is rounded. -/
def roundedPower (acc base : Extended ℚ) (n : ℕ) : Extended ℚ :=
  let acc := if n % 2 = 1 then rounded (acc * base) else acc
  if n < 2 then acc else roundedPower acc (rounded (base * base)) (n / 2)
termination_by n

/-- One binary digit of the exponent. -/
theorem roundedPower_eq (a b : Extended ℚ) (n : ℕ) : roundedPower a b n =
    if n < 2 then (if n % 2 = 1 then rounded (a * b) else a)
    else roundedPower (if n % 2 = 1 then rounded (a * b) else a) (rounded (b * b)) (n / 2) := by
  rw [roundedPower]

theorem value_powWith (acc base : Float) (n : ℕ) :
    value (Scalar.powWith acc base n) = roundedPower (value acc) (value base) n := by
  induction n using Nat.strongRecOn generalizing acc base with
  | ind n ih =>
      have step : value (if n % 2 = 1 then acc * base else acc) =
          if n % 2 = 1 then rounded (value acc * value base) else value acc := by
        rw [apply_ite value, value_mul]
      rw [Interval.powWith_eq, roundedPower_eq, ← step]
      split
      · rfl
      · rw [ih (n / 2) (by omega), value_mul]

/-! ## Opposite factors -/

theorem roundedPower_neg_acc (a b : Extended ℚ) (n : ℕ) :
    roundedPower (-a) b n = -roundedPower a b n := by
  induction n using Nat.strongRecOn generalizing a b with
  | ind n ih =>
      have step : (if n % 2 = 1 then rounded (-a * b) else -a) =
          -(if n % 2 = 1 then rounded (a * b) else a) := by
        rw [Extended.neg_mul, rounded_neg, apply_ite Neg.neg]
      rw [roundedPower_eq, roundedPower_eq a, step]
      split
      · rfl
      · exact ih (n / 2) (by omega) _ _

theorem roundedPower_neg (a b : Extended ℚ) (n : ℕ) : roundedPower a (-b) n =
    if n % 2 = 1 then -roundedPower a b n else roundedPower a b n := by
  have square : -b * -b = b * b := by
    rw [Extended.neg_mul, Extended.mul_neg, Extended.neg_neg]
  rw [roundedPower_eq, roundedPower_eq a b, square, Extended.mul_neg, rounded_neg]
  split
  · split <;> rfl
  · split
    · exact roundedPower_neg_acc _ _ _
    · rfl

/-! ## Factors on one side of one -/

/-- Factors that are not below zero, and that are both at most one or both at least one. -/
structure Tame (a b : Extended ℚ) : Prop where
  acc : finite 0 ≤ a
  base : finite 0 ≤ b
  side : a ≤ finite 1 ∧ b ≤ finite 1 ∨ finite 1 ≤ a ∧ finite 1 ≤ b

theorem Tame.mul_ne (h : Tame a b) : a * b ≠ undefined := by
  obtain ⟨ha, hb, ⟨ha', hb'⟩ | ⟨ha', hb'⟩⟩ := h
  · obtain ⟨x, rfl⟩ := exists_finite_of_between ha ha'
    obtain ⟨y, rfl⟩ := exists_finite_of_between hb hb'
    nofun
  · have nonzero {c : Extended ℚ} (large : finite 1 ≤ c) : c ≠ finite 0 := by
      rintro rfl
      exact absurd (finite_le_finite.mp large) (by norm_num)
    exact mul_ne_undefined (defined_of_le ha).2 (defined_of_le hb).2 (nonzero ha') (nonzero hb')

theorem Tame.mul_le (h : Tame a b) (h' : Tame a' b') (acc : a ≤ a') (base : b ≤ b') :
    a * b ≤ a' * b' :=
  Extended.mul_le_mul acc base h.acc h.base h.mul_ne h'.mul_ne

theorem tame_one : Tame (finite 1) (finite 1) :=
  ⟨by simp, by simp, .inl ⟨by simp, by simp⟩⟩

theorem Tame.both (h : Tame a b) : Tame b b :=
  ⟨h.base, h.base, h.side.imp (fun le => ⟨le.2, le.2⟩) fun le => ⟨le.2, le.2⟩⟩

theorem rounded_one : rounded (finite 1) = finite 1 := by
  rw [← value_one, rounded_value]

/-- The product stays on the side of its factors. -/
theorem Tame.rounded_mul (h : Tame a b) : finite 0 ≤ rounded (a * b) ∧
    (a ≤ finite 1 ∧ b ≤ finite 1 → rounded (a * b) ≤ finite 1) ∧
      (finite 1 ≤ a ∧ finite 1 ≤ b → finite 1 ≤ rounded (a * b)) := by
  have one : (finite 1 : Extended ℚ) = rounded (finite 1 * finite 1) := by
    rw [finite_mul, mul_one, rounded_one]
  refine ⟨?_, ?_, ?_⟩
  · rw [← rounded_zero]
    exact rounded_mono (Extended.mul_nonneg h.acc h.base h.mul_ne)
  · rintro ⟨ha, hb⟩
    rw [one]
    exact rounded_mono (h.mul_le tame_one ha hb)
  · rintro ⟨ha, hb⟩
    rw [one]
    exact rounded_mono (tame_one.mul_le h ha hb)

theorem Tame.times (h : Tame a b) : Tame (rounded (a * b)) b := by
  obtain ⟨nonneg, small, large⟩ := h.rounded_mul
  exact ⟨nonneg, h.base, h.side.imp (fun le => ⟨small le, le.2⟩) fun le => ⟨large le, le.2⟩⟩

theorem Tame.square (h : Tame a b) : Tame a (rounded (b * b)) := by
  obtain ⟨nonneg, small, large⟩ := h.both.rounded_mul
  refine ⟨h.acc, nonneg, h.side.imp ?_ ?_⟩
  · exact fun le => ⟨le.1, small ⟨le.2, le.2⟩⟩
  · exact fun le => ⟨le.1, large ⟨le.2, le.2⟩⟩

/-- One binary digit of the exponent. -/
theorem Tame.step (h : Tame a b) (n : ℕ) : Tame (if n % 2 = 1 then rounded (a * b) else a) b := by
  split
  · exact h.times
  · exact h

theorem Tame.roundedPower_nonneg (h : Tame a b) (n : ℕ) : finite 0 ≤ roundedPower a b n := by
  induction n using Nat.strongRecOn generalizing a b with
  | ind n ih =>
      rw [roundedPower_eq]
      split
      · exact (h.step n).acc
      · exact ih (n / 2) (by omega) (h.step n).square

/-- Powers of numbers that are not below zero keep the order. -/
theorem Tame.roundedPower_le (h : Tame a b) (h' : Tame a' b') (acc : a ≤ a') (base : b ≤ b')
    (n : ℕ) : roundedPower a b n ≤ roundedPower a' b' n := by
  induction n using Nat.strongRecOn generalizing a b a' b' with
  | ind n ih =>
      have step : (if n % 2 = 1 then rounded (a * b) else a) ≤
          if n % 2 = 1 then rounded (a' * b') else a' := by
        split
        · exact rounded_mono (h.mul_le h' acc base)
        · exact acc
      rw [roundedPower_eq, roundedPower_eq a']
      split
      · exact step
      · refine ih (n / 2) (by omega) (h.step n).square (h'.step n).square step (rounded_mono ?_)
        exact h.both.mul_le h'.both base base

/-! ## Powers -/

variable {x y : Float}

theorem value_powNat (x : Float) (n : ℕ) :
    value (Scalar.powNat x n) = roundedPower (finite 1) (value x) n := by
  rw [Scalar.powNat, value_powWith]
  exact congrArg (roundedPower · (value x) n) value_one

theorem tame_of_nonneg (h : 0 ≤ x) : Tame (finite 1) (value x) := by
  rw [le_iff, value_zero] at h
  refine ⟨by simp, h, ?_⟩
  obtain small | large := Extended.le_total (defined_of_le h).2 (b := finite 1) nofun
  · exact .inl ⟨by simp, small⟩
  · exact .inr ⟨by simp, large⟩

theorem value_powNat_neg (x : Float) (n : ℕ) : value (Scalar.powNat (-x) n) =
    if n % 2 = 1 then -value (Scalar.powNat x n) else value (Scalar.powNat x n) := by
  rw [value_powNat, value_powNat, value_neg, roundedPower_neg]

theorem powNat_nonneg (h : 0 ≤ x) (n : ℕ) : 0 ≤ Scalar.powNat x n := by
  rw [le_iff, value_powNat, value_zero]
  exact (tame_of_nonneg h).roundedPower_nonneg n

theorem powNat_nonneg_of_even (h : x ≤ x) {n : ℕ} (even : n % 2 ≠ 1) : 0 ≤ Scalar.powNat x n := by
  obtain nonneg | nonpos := LawfulComparisons.le_total (a := (0 : Float)) (by decide) h
  · exact powNat_nonneg nonneg n
  · have mirrored := powNat_nonneg (neg_nonneg nonpos) n
    rwa [le_iff, value_powNat_neg, if_neg even, ← le_iff] at mirrored

theorem powNat_nonpos_of_odd (h : x ≤ 0) {n : ℕ} (odd : n % 2 = 1) : Scalar.powNat x n ≤ 0 := by
  have mirrored := neg_nonpos (powNat_nonneg (neg_nonneg h) n)
  rwa [le_iff, value_neg, value_powNat_neg, if_pos odd, Extended.neg_neg, ← le_iff] at mirrored

theorem powNat_le_of_nonneg (h : 0 ≤ x) (h' : x ≤ y) (n : ℕ) :
    Scalar.powNat x n ≤ Scalar.powNat y n := by
  have nonneg := LawfulComparisons.le_trans h h'
  rw [le_iff] at h' ⊢
  rw [value_powNat, value_powNat]
  exact (tame_of_nonneg h).roundedPower_le (tame_of_nonneg nonneg) (by simp) h' n

/-- Odd powers keep the order. -/
theorem powNat_le_of_odd (h : x ≤ y) {n : ℕ} (odd : n % 2 = 1) :
    Scalar.powNat x n ≤ Scalar.powNat y n := by
  obtain ⟨hx, hy⟩ := LawfulComparisons.defined_of_le h
  obtain nonneg | nonpos := LawfulComparisons.le_total (a := (0 : Float)) (by decide) hx
  · exact powNat_le_of_nonneg nonneg h n
  · obtain nonneg' | nonpos' := LawfulComparisons.le_total (a := (0 : Float)) (by decide) hy
    · exact LawfulComparisons.le_trans (powNat_nonpos_of_odd nonpos odd) (powNat_nonneg nonneg' n)
    · have mirrored := neg_le_neg (powNat_le_of_nonneg (neg_nonneg nonpos') (neg_le_neg h) n)
      rw [le_iff, value_neg, value_neg, value_powNat_neg, value_powNat_neg, if_pos odd, if_pos odd,
        Extended.neg_neg, Extended.neg_neg, ← le_iff] at mirrored
      exact mirrored

end Double

namespace Interval

open Double

variable {i : Interval Float}

theorem powNat_faultless (hi : i.Ordered) (n : ℕ) : Faultless Ordered (i.powNat n) := by
  obtain ⟨lower, upper⟩ := LawfulComparisons.defined_of_le hi
  rw [powNat]
  split
  · next odd => exact faultless_make_iff.mpr (powNat_le_of_odd hi odd)
  · next even =>
      have lo := powNat_nonneg_of_even lower even
      have hi := powNat_nonneg_of_even upper even
      have greatest := Scalar.le_greater_left (Scalar.powNat i.max n)
        (LawfulComparisons.defined_of_le lo).2
      split
      · exact faultless_make_iff.mpr (LawfulComparisons.le_trans lo greatest)
      · have least := Scalar.lesser_le_left (Scalar.powNat i.max n)
          (LawfulComparisons.defined_of_le lo).2
        exact faultless_make_iff.mpr (LawfulComparisons.le_trans least greatest)

end Interval

end HybridAutomata
