import HybridAutomata.Expr.Range
import HybridAutomata.Proofs.Exact.Intervals

/-!
# Enclosure of powers

A power with a whole exponent is monotone, or it is even and grows away from zero on either side.
Which of the two holds decides the bounds; that repeated squaring computes powers also of infinite
bounds is shown first. An exponent that is not known exactly goes through logarithm and exponential.
-/

namespace HybridAutomata

open Extended

namespace Interval

variable {K : Type} [Field K] [LinearOrder K] [IsStrictOrderedRing K] [FloorRing K] [Functions K]

/-! ## Repeated squaring -/

/-- One binary digit of the exponent. -/
theorem powWith_eq {α : Type} [Scalar α] (acc base : α) (n : ℕ) :
    Scalar.powWith acc base n =
      if n < 2 then (if n % 2 = 1 then acc * base else acc)
      else Scalar.powWith (if n % 2 = 1 then acc * base else acc) (base * base) (n / 2) := by
  rw [Scalar.powWith]

omit [IsStrictOrderedRing K] in
theorem powWith_finite (acc base : K) (n : ℕ) :
    Scalar.powWith (finite acc) (finite base) n = finite (acc * base ^ n) := by
  induction n using Nat.strongRecOn generalizing acc base with
  | ind n ih =>
      have half := Nat.div_add_mod n 2
      have step : (if n % 2 = 1 then finite acc * finite base else finite acc) =
          finite (acc * base ^ (n % 2)) := by
        obtain even | odd := Nat.mod_two_eq_zero_or_one n
        · simp [even]
        · simp [odd]
      rw [powWith_eq, step]
      split
      · next small => rw [Nat.mod_eq_of_lt small]
      · next large =>
          rw [finite_mul, ih (n / 2) (by omega)]
          congr 1
          calc acc * base ^ (n % 2) * (base * base) ^ (n / 2)
              = acc * (base ^ (2 * (n / 2)) * base ^ (n % 2)) := by
                rw [← pow_two, ← pow_mul, mul_assoc, mul_comm (base ^ (n % 2))]
            _ = acc * base ^ n := by rw [← pow_add, half]

omit [IsStrictOrderedRing K] in
theorem powNat_finite (base : K) (n : ℕ) :
    Scalar.powNat (finite base) n = finite (base ^ n) := by
  rw [Scalar.powNat, ofNat_eq, powWith_finite, Nat.cast_one, one_mul]

omit [IsStrictOrderedRing K] in
/-- Powers of an infinity have the sign of the factors taken before. -/
theorem powWith_posInf {acc : Extended K} (hacc : acc.sign ≠ 0) {n : ℕ} (hn : 0 < n) :
    Scalar.powWith acc posInf n = towards acc.sign := by
  induction n using Nat.strongRecOn generalizing acc with
  | ind n ih =>
      have times : acc * posInf = towards acc.sign := by
        rw [← mul_one acc.sign]
        cases acc <;> rfl
      rw [powWith_eq]
      split
      · next small => rw [if_pos (by omega), times]
      · next large =>
          have square : (posInf : Extended K) * posInf = posInf := rfl
          rw [square]
          split
          · rw [times, ih (n / 2) (by omega) (by rwa [sign_towards]) (by omega), sign_towards]
          · exact ih (n / 2) (by omega) hacc (by omega)

theorem powNat_posInf {n : ℕ} (hn : 0 < n) : Scalar.powNat (posInf : Extended K) n = posInf := by
  have one : (finite 1 : Extended K).sign = 1 := sign_one
  rw [Scalar.powNat, ofNat_eq, Nat.cast_one, powWith_posInf (by rw [one]; decide) hn, one]
  rfl

theorem powNat_negInf {n : ℕ} (hn : 0 < n) :
    Scalar.powNat (negInf : Extended K) n = if n % 2 = 1 then negInf else posInf := by
  have one : (finite 1 : Extended K).sign = 1 := sign_one
  have times : (finite 1 : Extended K) * negInf = negInf := by
    change towards ((finite 1 : Extended K).sign * -1) = _
    rw [one]
    rfl
  have square : (negInf : Extended K) * negInf = posInf := rfl
  rw [Scalar.powNat, ofNat_eq, Nat.cast_one, powWith_eq, times, square]
  split
  · next small => rw [if_pos (by omega), if_pos (by omega)]
  · next large =>
      split
      · have start : (negInf : Extended K).sign ≠ 0 := show (-1 : SignType) ≠ 0 by decide
        exact powWith_posInf start (by omega)
      · rw [powWith_posInf (by rw [one]; decide) (by omega), one]
        rfl

/-! ## Monotone bounds -/

section

variable {n : ℕ} {a b : Extended K}

theorem powNat_mono_of_nonneg (hn : 0 < n) (ha : finite 0 ≤ a) (h : a ≤ b) :
    Scalar.powNat a n ≤ Scalar.powNat b n := by
  cases a <;> cases b <;>
    simp_all [powNat_finite, powNat_posInf hn, pow_le_pow_left₀]

theorem powNat_mono_of_odd (hn : n % 2 = 1) (h : a ≤ b) :
    Scalar.powNat a n ≤ Scalar.powNat b n := by
  have positive : 0 < n := by omega
  have odd : Odd n := Nat.odd_iff.mpr hn
  cases a <;> cases b <;>
    simp_all [powNat_finite, powNat_posInf positive, powNat_negInf positive, odd.pow_le_pow]

theorem powNat_neg_of_even (hn : 0 < n) (even : n % 2 ≠ 1) (a : Extended K) (ha : a ≠ undefined) :
    Scalar.powNat (-a) n = Scalar.powNat a n := by
  have hn' : Even n := Nat.even_iff.mpr (by omega)
  cases a <;> simp_all [powNat_finite, powNat_posInf hn, powNat_negInf hn, hn'.neg_pow]

/-- An even power falls below zero. -/
theorem powNat_anti_of_even (hn : 0 < n) (even : n % 2 ≠ 1) (hb : b ≤ finite 0) (h : a ≤ b) :
    Scalar.powNat b n ≤ Scalar.powNat a n := by
  obtain ⟨ha, hb'⟩ := defined_of_le h
  rw [← powNat_neg_of_even hn even a ha, ← powNat_neg_of_even hn even b hb']
  refine powNat_mono_of_nonneg hn ?_ (Extended.neg_le_neg_iff.mpr h)
  simpa using Extended.neg_le_neg_iff.mpr hb

end

/-! ## Whole exponents -/

section

variable {i : Interval (Extended K)} {x : K}

theorem Holds.powNat (hx : i.Holds x) {n : ℕ} (hn : 0 < n) :
    ∃ k, i.powNat n = .ok k ∧ k.Holds (x ^ n) := by
  rw [Interval.powNat]
  split
  · next odd =>
      refine exists_make ?_ ?_
      · rw [← powNat_finite]
        exact powNat_mono_of_odd odd hx.1
      · rw [← powNat_finite]
        exact powNat_mono_of_odd odd hx.2
  · next even =>
      have hn' : Even n := Nat.even_iff.mpr (by omega)
      have upper : finite (x ^ n) ≤
          Scalar.greater (Scalar.powNat i.min n) (Scalar.powNat i.max n) := by
        rw [← powNat_finite]
        obtain nonpos | nonneg := le_total x 0
        · have le := powNat_anti_of_even hn even (b := finite x) nonpos hx.1
          exact Extended.le_trans le (le_greater_left _ (defined_of_le le).2)
        · have le := powNat_mono_of_nonneg hn (a := finite x) nonneg hx.2
          exact Extended.le_trans le (le_greater_right _ (defined_of_le le).2)
      split
      · refine exists_make ?_ upper
        rw [zero_eq]
        exact hn'.pow_nonneg x
      · next hzero =>
          refine exists_make ?_ upper
          rw [zero_eq, contains_iff, Holds, not_and_or] at hzero
          rw [← powNat_finite]
          obtain positive | negative := hzero
          · have nonneg := (Extended.le_total (b := finite 0) hx.defined.1 (by simp)).resolve_left
              positive
            have le := powNat_mono_of_nonneg hn nonneg hx.1
            exact Extended.le_trans (lesser_le_left _ (defined_of_le le).1) le
          · have nonpos := (Extended.le_total (a := finite 0) (by simp) hx.defined.2).resolve_left
              negative
            have le := powNat_anti_of_even hn even nonpos hx.2
            exact Extended.le_trans (lesser_le_right _ (defined_of_le le).1) le

/-- Every exponent of 32 bits that has an opposite among them is good. -/
theorem Holds.powInt (hx : i.Holds x) {n : ℤ} (hn : n ≠ minWord) (defined : ¬(x = 0 ∧ n < 0)) :
    ∃ k, i.powInt n = .ok k ∧ k.Holds (x ^ n) := by
  rw [Interval.powInt]
  have one : point (1 : Extended K) = .ok ⟨finite 1, finite 1⟩ := by
    rw [ofNat_eq, Nat.cast_one]
    exact point_finite 1
  split
  · next zero =>
      subst zero
      exact ⟨_, one, holds_point.mpr (zpow_zero x)⟩
  · next nonzero =>
      have positive : 0 < n.natAbs := Int.natAbs_pos.mpr nonzero
      obtain ⟨k, power, holds⟩ := hx.powNat positive
      split
      · next negative =>
          have ne : x ≠ 0 := by
            intro zero
            exact defined ⟨zero, negative⟩
          obtain ⟨q, quotient, holds'⟩ :=
            (holds_point (K := K).mpr rfl).div holds (pow_ne_zero _ ne)
          refine ⟨q, ?_, ?_⟩
          · rw [one, power]
            exact quotient
          · have opposite : n = -(n.natAbs : ℤ) := by omega
            rwa [opposite, zpow_neg, zpow_natCast, inv_eq_one_div]
      · next nonneg =>
          refine ⟨k, power, ?_⟩
          have same : n = (n.natAbs : ℤ) := by omega
          rwa [same, zpow_natCast]

/-- A whole exponent is moved into 32 bits. -/
theorem wholePart_intCast_eq (n : ℤ) :
    Scalar.wholePart minWord maxWord (finite (n : K)) =
      Max.max minWord (Min.min maxWord n) := by
  change Max.max minWord (Min.min maxWord (if (0 : K) ≤ n then ⌊(n : K)⌋ else ⌈(n : K)⌉)) = _
  rw [Int.floor_intCast, Int.ceil_intCast, ite_self]

/-- One of less than 32 bits stays as it is. -/
theorem wholePart_intCast {n : ℤ} (h : |n| < 2 ^ 31) :
    Scalar.wholePart minWord maxWord (finite (n : K)) = n := by
  rw [wholePart_intCast_eq]
  rw [abs_lt] at h
  simp only [minWord, maxWord]
  omega

/-- An exponent whose interval is one whole number is recognized. -/
theorem isWhole_intCast (n : ℤ) : Scalar.isWhole (finite (n : K)) = true := by
  have ceil : Scalar.ceil (finite (n : K)) = finite ((⌈(n : K)⌉ : ℤ) : K) := rfl
  rw [Scalar.isWhole, ceil, Int.ceil_intCast]
  simp

end

/-! ## Other exponents -/

section

variable {i : Interval (Extended K)} {x : K} {lnK expK : K → K}

omit [IsStrictOrderedRing K] in
theorem Holds.ln (laws : ExponentialLaws K lnK expK) (hx : i.Holds x)
    (positive : finite 0 < i.min) :
    ∃ k, i.mapMonotone Scalar.ln = .ok k ∧ k.Holds (lnK x) := by
  have value {y : K} (h : 0 < y) : Scalar.ln (finite y) = finite (lnK y) := by
    have nonzero : ¬(finite y == finite 0) = true := by simpa using h.ne'
    change (if (finite y == finite 0) = true then negInf else ofOption (Functions.ln y)) = _
    rw [if_neg nonzero, laws.ln_eq y h]
    rfl
  have limit : Scalar.ln (posInf : Extended K) = posInf := by
    change (if (posInf == finite (0 : K)) = true then negInf else posInf) = _
    rw [posInf_beq_finite, if_neg Bool.false_ne_true]
  obtain ⟨lo, hi⟩ := i
  obtain ⟨hlo, hhi⟩ : lo ≤ finite x ∧ finite x ≤ hi := hx
  cases lo with
  | undefined => exact absurd hlo (not_undefined_le _)
  | posInf => exact absurd hlo (not_posInf_le_finite _)
  | negInf => exact absurd positive.1 (not_finite_le_negInf _)
  | finite l =>
      have hl : 0 < l := finite_lt_finite.mp positive
      have le : l ≤ x := hlo
      refine exists_make ?_ ?_
      · rw [value hl]
        exact laws.ln_mono hl le
      · cases hi with
        | undefined => exact absurd hhi (not_le_undefined _)
        | negInf => exact absurd hhi (not_finite_le_negInf _)
        | finite h =>
            have le' : x ≤ h := hhi
            rw [value (hl.trans_le (le.trans le'))]
            exact laws.ln_mono (hl.trans_le le) le'
        | posInf =>
            rw [limit]
            exact le_posInf_iff.mpr (by simp)

omit [IsStrictOrderedRing K] in
theorem Holds.exp (laws : ExponentialLaws K lnK expK) (hx : i.Holds x) :
    ∃ k, i.mapMonotone Scalar.exp = .ok k ∧ k.Holds (expK x) := by
  have value (y : K) : Scalar.exp (finite y) = finite (expK y) := congrArg ofOption (laws.exp_eq y)
  obtain ⟨lo, hi⟩ := i
  obtain ⟨hlo, hhi⟩ : lo ≤ finite x ∧ finite x ≤ hi := hx
  refine exists_make ?_ ?_
  · cases lo with
    | undefined => exact absurd hlo (not_undefined_le _)
    | posInf => exact absurd hlo (not_posInf_le_finite _)
    | negInf => exact laws.exp_nonneg x
    | finite l =>
        rw [value]
        exact laws.exp_mono hlo
  · cases hi with
    | undefined => exact absurd hhi (not_le_undefined _)
    | negInf => exact absurd hhi (not_finite_le_negInf _)
    | posInf => exact le_posInf_iff.mpr (by simp)
    | finite h =>
        rw [value]
        exact laws.exp_mono hhi

/-- The power with a whole exponent, whether the exponent is known exactly or not. An unknown one
goes through the logarithm if the base is positive. -/
theorem Holds.pow {j : Interval (Extended K)} {n : ℤ} (hx : i.Holds x)
    (hn : j.Holds (n : K)) (bound : |n| < 2 ^ 31) (defined : ¬(x = 0 ∧ n < 0))
    (known : j.isPoint = true ∨ Exponentials K) : ∃ k, i.pow j = .ok k ∧ k.Holds (x ^ n) := by
  have ofPoint (point : j.isPoint = true) : j.min = finite (n : K) :=
    eq_finite_of_le hn.1 (Extended.le_trans hn.2 (beq_iff.mp point).2)
  have ne : n ≠ minWord := by
    rintro rfl
    exact absurd bound (by decide)
  rw [Interval.pow]
  split
  · next whole =>
      rw [ofPoint (Bool.and_eq_true_iff.mp whole).1, wholePart_intCast bound]
      exact hx.powInt ne defined
  · next notWhole =>
      have exponentials : Exponentials K := by
        refine known.resolve_left ?_
        intro point
        apply notWhole
        rw [point, ofPoint point, isWhole_intCast]
        rfl
      split
      · next positive =>
          rw [zero_eq] at positive
          obtain ⟨lnK, expK, laws⟩ := exponentials.laws
          obtain ⟨logarithm, hlog, holdsLog⟩ := hx.ln laws positive
          obtain ⟨product, hmul, holdsMul⟩ := hn.mul holdsLog
          obtain ⟨power, hexp, holdsExp⟩ := holdsMul.exp laws
          have base : finite 0 < finite x := by
            refine ⟨Extended.le_trans positive.1 hx.1, ?_⟩
            intro h
            exact positive.2 (Extended.le_trans hx.1 h)
          refine ⟨power, ?_, ?_⟩
          · rw [hlog]
            change (do (← j.mul logarithm).mapMonotone Scalar.exp) = _
            rw [hmul]
            exact hexp
          · rwa [← laws.exp_mul_ln n (finite_lt_finite.mp base)]
      · exact ⟨entire, rfl, holds_entire _⟩

end

end Interval

end HybridAutomata
