import Mathlib
import HybridAutomata.Proofs.Doubles.RoundedResults
import HybridAutomata.Proofs.Exact.Laws

/-!
# The arithmetic of doubles

Opposites of doubles are exact. Sums, differences and products are those of the values, rounded
once; what has no exact value, such as a difference of infinities, has no rounded one either. As
rounding keeps the order, so do the operations.
-/

namespace HybridAutomata

namespace Double

open Extended Rounding
open Float.Model (UnpackedFloat Format)
open Float.Model.UnpackedFloat (Sign decreaseExponent)

variable {x y z w : Float} {u v : UnpackedFloat}

theorem rounded_value (x : Float) : rounded (value x) = value x := rounded_valueOf (fits_parts x)

/-! ## Opposites -/

theorem fits_neg (h : Fits u) : Fits u.neg := by
  cases u with
  | finite => exact h
  | _ => trivial

theorem parts_neg_eq (x : Float) : parts (-x) = (parts x).neg := by
  rw [parts_neg, repacked_of_fits (fits_neg (fits_parts x))]

theorem apply_neg (s : Sign) (k : ℤ) : (-s).apply k = -s.apply k := by
  cases s with
  | positive => rfl
  | negative => exact (neg_neg k).symm

theorem valueOf_neg (u : UnpackedFloat) : valueOf u.neg = -valueOf u := by
  rcases u with (_ | _) | _ | s | ⟨s, m, e, pos⟩
  case zero => exact congrArg finite neg_zero.symm
  case finite =>
    rw [UnpackedFloat.neg, valueOf, valueOf, apply_neg, neg_finite]
    push_cast
    rw [neg_mul]
  all_goals rfl

@[simp] theorem value_neg (x : Float) : value (-x) = -value x := by
  rw [value, parts_neg_eq, valueOf_neg, value]

/-! ## Sums -/

theorem parts_add (x y : Float) :
    parts (x + y) = repacked (UnpackedFloat.add Format.binary64 (parts x) (parts y)) := rfl

theorem parts_sub (x y : Float) :
    parts (x - y) = repacked (UnpackedFloat.sub Format.binary64 (parts x) (parts y)) := rfl

theorem decreased_signed (s : Sign) (m : ℕ) {e target : ℤ} (le : target ≤ e) :
    ((s.apply (decreaseExponent m e target).1 : ℤ) : ℚ) * 2 ^ target = s.apply m * 2 ^ e := by
  have shifted := decreased_value m (e - target).toNat e
  rw [Int.toNat_of_nonneg (by omega), sub_sub_cancel] at shifted
  rw [decreaseExponent]
  cases s with
  | positive => simpa only [Sign.apply, Int.cast_natCast] using shifted
  | negative => simpa only [Sign.apply, Int.cast_neg, Int.cast_natCast, neg_mul, neg_inj] using shifted

theorem valueOf_add (hu : Fits u) (hv : Fits v) :
    valueOf (repacked (UnpackedFloat.add Format.binary64 u v)) = rounded (valueOf u + valueOf v) := by
  rcases u with (_ | _) | _ | s | ⟨s, m, e, pos⟩ <;>
    rcases v with (_ | _) | _ | t | ⟨t, m', e', pos'⟩
  case zero.zero =>
    refine valueOf_repacked_of_fits (u := UnpackedFloat.add Format.binary64 (.zero s) (.zero t)) ?_ ?_
    · cases s <;> cases t <;> trivial
    · cases s <;> cases t <;> exact congrArg finite (zero_add 0).symm
  case zero.finite => exact valueOf_repacked_of_fits hv (congrArg finite (zero_add _).symm)
  case finite.zero => exact valueOf_repacked_of_fits hu (congrArg finite (add_zero _).symm)
  case finite.finite =>
    have exact : (s.apply (decreaseExponent m e (min e e')).1 +
        t.apply (decreaseExponent m' e' (min e e')).1 : ℤ) * (2 : ℚ) ^ min e e' =
        s.apply m * 2 ^ e + t.apply m' * 2 ^ e' := by
      rw [Int.cast_add, add_mul, decreased_signed s m (min_le_left e e'),
        decreased_signed t m' (min_le_right e e')]
    obtain ⟨canonical, nearest⟩ := normalize_nearest
      (s.apply (decreaseExponent m e (min e e')).1 + t.apply (decreaseExponent m' e' (min e e')).1)
      (min e e') .positive
    rw [exact] at nearest
    exact valueOf_repacked canonical nearest
  all_goals exact valueOf_repacked_of_fits (u := UnpackedFloat.add Format.binary64 _ _) trivial rfl

@[simp] theorem value_add (x y : Float) : value (x + y) = rounded (value x + value y) := by
  rw [value, parts_add, valueOf_add (fits_parts x) (fits_parts y), value, value]

theorem unpacked_sub_eq (u v : UnpackedFloat) :
    UnpackedFloat.sub Format.binary64 u v = UnpackedFloat.add Format.binary64 u v.neg := by
  rcases u with (_ | _) | _ | s | ⟨s, m, e, pos⟩ <;>
    rcases v with (_ | _) | _ | t | ⟨t, m', e', pos'⟩
  case finite.finite =>
    simp only [UnpackedFloat.sub, UnpackedFloat.add, UnpackedFloat.neg, apply_neg, sub_eq_add_neg]
  all_goals rfl

@[simp] theorem value_sub (x y : Float) : value (x - y) = rounded (value x - value y) := by
  rw [value, parts_sub, unpacked_sub_eq, valueOf_add (fits_parts x) (fits_neg (fits_parts y)),
    valueOf_neg]
  rfl

/-! ## Products -/

/-- A product has twice as many digits, or is one of the least numbers, so that digits are only
dropped. -/
theorem exponents_le {m m' : ℕ} {e e' : ℤ} (h : Canonical m e) (h' : Canonical m' e') :
    e + e' ≤ exponentOf ((m * m' : ℕ) * 2 ^ (e + e')) := by
  have pos := Nat.mul_pos h.positive h'.positive
  rw [exponentOf, abs_of_pos (mul_two_zpow_pos pos _), log_mul_two_zpow pos]
  by_cases digits : 2 ^ 52 ≤ m * m'
  · have full : 52 ≤ (m * m').log2 := (Nat.le_log2 pos.ne').mpr digits
    omega
  · have least (k k' : ℕ) (f : ℤ) (hk : Canonical k f) (pos' : 0 < k') (small : ¬2 ^ 52 ≤ k * k') :
        f = -1074 := by
      by_contra above
      have full := hk.normal (lt_of_le_of_ne hk.least (Ne.symm above))
      exact small (full.trans (Nat.le_mul_of_pos_right k pos'))
    have first := least m m' e h h'.positive digits
    have second := least m' m e' h' h.positive (mul_comm m m' ▸ digits)
    omega

theorem apply_mul (s t : Sign) (k l : ℤ) : (s * t).apply (k * l) = s.apply k * t.apply l := by
  cases s with
  | positive =>
      cases t with
      | positive => rfl
      | negative => exact (mul_neg k l).symm
  | negative =>
      cases t with
      | positive => exact (neg_mul k l).symm
      | negative => exact (neg_mul_neg k l).symm

theorem sign_valueOf (s : Sign) {m : ℕ} {e : ℤ} (pos : 0 < m) :
    (valueOf (.finite s m e pos)).sign = (valueOf (.infinity s)).sign := by
  have positive := mul_two_zpow_pos pos e
  cases s with
  | positive =>
      rw [valueOf_positive]
      exact sign_pos positive
  | negative =>
      rw [valueOf_negative]
      exact sign_neg (neg_neg_of_pos positive)

/-- An infinite factor leaves the signs. -/
theorem infinity_mul (s t : Sign) {m : ℕ} {e : ℤ} (pos : 0 < m) :
    valueOf (.infinity s) * valueOf (.finite t m e pos) = valueOf (.infinity (s * t)) := by
  have signs : valueOf (.infinity s) * valueOf (.finite t m e pos) =
      towards ((valueOf (.infinity s)).sign * (valueOf (.infinity t)).sign) := by
    rw [← sign_valueOf t pos]
    cases s <;> rfl
  rw [signs]
  cases s <;> cases t <;> rfl

theorem valueOf_mul (hu : Fits u) (hv : Fits v) :
    valueOf (repacked (UnpackedFloat.mul Format.binary64 u v)) =
      rounded (valueOf u * valueOf v) := by
  cases u with
  | notANumber =>
      exact valueOf_repacked_of_fits (u := .notANumber) trivial (Extended.undefined_mul _).symm
  | infinity s =>
      cases v with
      | notANumber =>
          exact valueOf_repacked_of_fits (u := .notANumber) trivial (Extended.mul_undefined _).symm
      | infinity t =>
          refine valueOf_repacked_of_fits (u := .infinity (s * t)) trivial ?_
          cases s <;> cases t <;> rfl
      | zero t =>
          refine valueOf_repacked_of_fits (u := .notANumber) trivial ?_
          cases s <;> rfl
      | finite t m e pos =>
          exact valueOf_repacked_of_fits (u := .infinity (s * t)) trivial (infinity_mul s t pos).symm
  | zero s =>
      cases v with
      | notANumber =>
          exact valueOf_repacked_of_fits (u := .notANumber) trivial (Extended.mul_undefined _).symm
      | infinity t =>
          refine valueOf_repacked_of_fits (u := .notANumber) trivial ?_
          cases t <;> rfl
      | zero t =>
          exact valueOf_repacked_of_fits (u := .zero (s * t)) trivial
            (congrArg finite (zero_mul 0).symm)
      | finite =>
          exact valueOf_repacked_of_fits (u := .zero _) trivial (congrArg finite (zero_mul _).symm)
  | finite s m e pos =>
      cases v with
      | notANumber =>
          exact valueOf_repacked_of_fits (u := .notANumber) trivial (Extended.mul_undefined _).symm
      | infinity t =>
          refine valueOf_repacked_of_fits (u := .infinity (s * t)) trivial ?_
          rw [Extended.mul_comm, infinity_mul t s pos]
          cases s <;> cases t <;> rfl
      | zero =>
          exact valueOf_repacked_of_fits (u := .zero _) trivial (congrArg finite (mul_zero _).symm)
      | finite t m' e' pos' =>
          obtain ⟨canonical, nearest⟩ := roundWithAccuracy_nearest (s := s * t)
            (Nat.mul_pos pos pos') (exponents_le hu.1 hv.1)
          have exact : (((s * t).apply (m * m' : ℕ) : ℤ) : ℚ) * 2 ^ (e + e') =
              s.apply m * 2 ^ e * (t.apply m' * 2 ^ e') := by
            rw [Nat.cast_mul, apply_mul, Int.cast_mul, zpow_add₀ two_ne_zero, mul_mul_mul_comm]
          rw [exact] at nearest
          exact valueOf_repacked canonical nearest

@[simp] theorem value_mul (x y : Float) : value (x * y) = rounded (value x * value y) := by
  rw [value, parts_mul, valueOf_mul (fits_parts x) (fits_parts y), value, value]

/-! ## Values of constants -/

@[simp] theorem value_zero : value 0 = finite 0 := rfl

theorem value_one : value 1 = finite 1 := by
  have unpacked : parts 1 = .finite .positive (2 ^ 52) (-52) (by norm_num) := rfl
  rw [value, unpacked, valueOf_positive]
  norm_num

@[simp] theorem value_infinity : value Scalar.infinity = posInf := rfl

theorem isFinite_iff_value : Scalar.isFinite x = true ↔ ∃ q, value x = finite q := by
  rw [isFinite_iff, value]
  rcases parts x with (_ | _) | _ | s | ⟨s, m, e, pos⟩ <;>
    simp [valueOf, UnpackedFloat.isFinite]

theorem le_infinity (h : x ≤ x) : x ≤ Scalar.infinity := by
  rw [le_iff, value_infinity, le_posInf_iff]
  exact defined_iff.mp h

theorem neg_infinity_le (h : x ≤ x) : -Scalar.infinity ≤ x := by
  rw [le_iff, value_neg, value_infinity, neg_posInf, negInf_le_iff]
  exact defined_iff.mp h

/-! ## Operations that keep the order -/

theorem neg_le_neg (h : x ≤ y) : -y ≤ -x := by
  rw [le_iff] at h ⊢
  rwa [value_neg, value_neg, Extended.neg_le_neg_iff]

theorem defined_add_iff : x + y ≤ x + y ↔ value x + value y ≠ undefined := by
  rw [defined_iff, value_add, Ne, rounded_eq_undefined_iff]

theorem add_le_add (h : x ≤ y) (h' : z ≤ w) (lower : x + z ≤ x + z) (upper : y + w ≤ y + w) :
    x + z ≤ y + w := by
  rw [defined_add_iff] at lower upper
  rw [le_iff] at h h' ⊢
  rw [value_add, value_add]
  exact rounded_mono (Extended.add_le_add h h' lower upper)

/-- A difference is compared as the sum with the opposite. -/
theorem value_sub_eq (x y : Float) : value (x - y) = value (x + -y) := by
  rw [value_sub, value_add, value_neg]
  rfl

theorem sub_le_sub (h : x ≤ y) (h' : w ≤ z) (lower : x - z ≤ x - z) (upper : y - w ≤ y - w) :
    x - z ≤ y - w := by
  simp only [le_iff, value_sub_eq] at lower upper ⊢
  rw [← le_iff] at lower upper ⊢
  exact add_le_add h (neg_le_neg h') lower upper

/-! ## Sums with finite doubles -/

theorem isFinite_of_between (lower : Scalar.isFinite x = true) (upper : Scalar.isFinite z = true)
    (h : x ≤ y) (h' : y ≤ z) : Scalar.isFinite y = true := by
  rw [isFinite_iff_value] at lower upper ⊢
  obtain ⟨p, hp⟩ := lower
  obtain ⟨q, hq⟩ := upper
  rw [le_iff, hp] at h
  rw [le_iff, hq] at h'
  cases hy : value y <;> simp_all

theorem defined_add_of_isFinite (hx : x ≤ x) (finite : Scalar.isFinite y = true) :
    x + y ≤ x + y := by
  obtain ⟨q, hq⟩ := isFinite_iff_value.mp finite
  rw [defined_iff] at hx
  rw [defined_add_iff, hq, Ne, add_eq_undefined_iff]
  rintro (undefined | undefined | ⟨_, undefined⟩ | ⟨_, undefined⟩)
  · exact hx undefined
  all_goals cases undefined

/-- Below a finite double and below another one, a sum is not above theirs. -/
theorem add_le_of_le {p q : ℚ} (hx : value x ≤ finite p) (hy : value y ≤ finite q) :
    value (x + y) ≤ rounded (finite (p + q)) := by
  rw [value_add]
  exact rounded_mono (add_le_finite hx hy)

theorem le_add_of_le {p q : ℚ} (hx : finite p ≤ value x) (hy : finite q ≤ value y) :
    rounded (finite (p + q)) ≤ value (x + y) := by
  rw [value_add]
  exact rounded_mono (finite_le_add hx hy)

theorem add_nonneg (hx : 0 ≤ x) (hy : 0 ≤ y) : 0 ≤ x + y := by
  rw [le_iff, value_zero] at hx hy ⊢
  have sum := le_add_of_le hx hy
  rwa [add_zero, rounded_zero] at sum

theorem sub_nonneg (finite : Scalar.isFinite y = true) (h : y ≤ x) : 0 ≤ x - y := by
  obtain ⟨q, hq⟩ := isFinite_iff_value.mp finite
  have opposite : Extended.finite (-q) ≤ value (-y) := by
    rw [value_neg, hq, neg_finite]
    exact finite_le_finite.mpr le_rfl
  rw [le_iff, hq] at h
  rw [le_iff, value_sub_eq, value_zero, ← rounded_zero, ← add_neg_cancel q]
  exact le_add_of_le h opposite

/-- A number that is not above zero makes a sum with a finite double no larger. -/
theorem add_le_of_nonpos (finite : Scalar.isFinite z = true) (hx : x ≤ z) (hy : y ≤ 0) :
    x + y ≤ z := by
  obtain ⟨q, hq⟩ := isFinite_iff_value.mp finite
  rw [le_iff, hq] at hx ⊢
  rw [le_iff, value_zero] at hy
  have sum := add_le_of_le hx hy
  rwa [add_zero, ← hq, rounded_value, hq] at sum

theorem le_add_of_nonneg (finite : Scalar.isFinite z = true) (hx : z ≤ x) (hy : 0 ≤ y) :
    z ≤ x + y := by
  obtain ⟨q, hq⟩ := isFinite_iff_value.mp finite
  rw [le_iff, hq] at hx ⊢
  rw [le_iff, value_zero] at hy
  have sum := le_add_of_le hx hy
  rwa [add_zero, ← hq, rounded_value, hq] at sum

/-! ## Signs of products -/

theorem neg_nonpos (h : 0 ≤ x) : -x ≤ 0 := by
  rw [le_iff, value_zero] at h ⊢
  rwa [value_neg, ← neg_zero, ← neg_finite, Extended.neg_le_neg_iff]

theorem neg_nonneg (h : x ≤ 0) : 0 ≤ -x := by
  rw [le_iff, value_zero] at h ⊢
  rwa [value_neg, ← neg_zero, ← neg_finite, Extended.neg_le_neg_iff]

/-- The product of numbers other than zero is a number. -/
theorem defined_mul (hx : x ≤ x) (hy : y ≤ y) (hx' : value x ≠ finite 0)
    (hy' : value y ≠ finite 0) : x * y ≤ x * y := by
  rw [defined_iff] at hx hy ⊢
  rw [value_mul, Ne, rounded_eq_undefined_iff]
  exact Extended.mul_ne_undefined hx hy hx' hy'

theorem mul_nonneg (hx : 0 ≤ x) (hy : 0 ≤ y) (defined : x * y ≤ x * y) : 0 ≤ x * y := by
  rw [le_iff, value_zero] at hx hy ⊢
  rw [defined_iff, value_mul, Ne, rounded_eq_undefined_iff] at defined
  rw [value_mul, ← rounded_zero]
  exact rounded_mono (Extended.mul_nonneg hx hy defined)

end Double

end HybridAutomata
