import Mathlib
import HybridAutomata.Proofs.Doubles.Patterns

/-!
# Decimals are rounded once

A quotient of whole numbers is rounded to the nearest double: its exponent is found from the number
of binary digits, its mantissa is rounded, and the pattern of both is that of infinity where they
are too large. Thus a decimal is rounded to the nearest double, and the decimals that are not looked
at because of their size are rounded to infinity and to zero.
-/

namespace HybridAutomata

open Extended

namespace Binary64

open Rounding

variable {num den : ℕ} {q : ℤ}

/-! ## Quotients -/

theorem nearestEven_eq (positive : 0 < den) :
    (nearestEven num den : ℤ) = halfEven (num / den) := by
  have unit : (0 : ℚ) < den := Nat.cast_pos.mpr positive
  have floor : ⌊(num / den : ℚ)⌋ = (num / den : ℕ) := Rat.floor_natCast_div_natCast num den
  have fraction : Int.fract (num / den : ℚ) = (num % den : ℕ) / den :=
    Int.fract_div_natCast_eq_div_natCast_mod
  have below : Int.fract (num / den : ℚ) < 1 / 2 ↔ 2 * (num % den) < den := by
    rw [fraction, div_lt_div_iff₀ unit two_pos, one_mul, mul_comm]
    exact_mod_cast Iff.rfl
  have above : 1 / 2 < Int.fract (num / den : ℚ) ↔ den < 2 * (num % den) := by
    rw [fraction, div_lt_div_iff₀ two_pos unit, one_mul, mul_comm]
    exact_mod_cast Iff.rfl
  simp only [halfEven, below, above, floor, nearestEven, Bool.or_eq_true, Bool.and_eq_true,
    decide_eq_true_eq, beq_iff_eq]
  split_ifs <;> omega

/-- Shifting the numerator or the denominator divides by a power of two. -/
theorem shifted_div (num den : ℕ) (q : ℤ) :
    ((shifted num den q).1 / (shifted num den q).2 : ℚ) = num / den / 2 ^ q := by
  simp only [shifted, Nat.shiftLeft_eq]
  push_cast
  obtain ⟨n, rfl | rfl⟩ := q.eq_nat_or_neg
  · simp [div_div]
  · simp [div_mul_eq_mul_div]

theorem shifted_pos (num : ℕ) (positive : 0 < den) (q : ℤ) : 0 < (shifted num den q).2 := by
  change 0 < den <<< q.toNat
  rw [Nat.shiftLeft_eq]
  exact Nat.mul_pos positive (Nat.two_pow_pos _)

section

variable (hn : 0 < num) (hd : 0 < den)

include hn hd

/-- The binary digits of both numbers give the exponent of their quotient, or one more. -/
theorem log_quotient : (num.log2 - den.log2 - 1 : ℤ) ≤ Int.log 2 (num / den : ℚ) ∧
    Int.log 2 (num / den : ℚ) ≤ num.log2 - den.log2 := by
  have hd' : (0 : ℚ) < den := Nat.cast_pos.mpr hd
  have positive : (0 : ℚ) < num / den := div_pos (Nat.cast_pos.mpr hn) hd'
  have numLower : (2 : ℚ) ^ (num.log2 : ℤ) ≤ num := by exact_mod_cast Nat.log2_self_le hn.ne'
  have numUpper : (num : ℚ) < 2 ^ (num.log2 + 1 : ℤ) := by exact_mod_cast Nat.lt_log2_self (n := num)
  have denLower : (2 : ℚ) ^ (den.log2 : ℤ) ≤ den := by exact_mod_cast Nat.log2_self_le hd.ne'
  have denUpper : (den : ℚ) < 2 ^ (den.log2 + 1 : ℤ) := by exact_mod_cast Nat.lt_log2_self (n := den)
  constructor
  · refine (Int.zpow_le_iff_le_log one_lt_two positive).mp ((le_div_iff₀ hd').mpr ?_)
    calc ((2 : ℕ) : ℚ) ^ (num.log2 - den.log2 - 1 : ℤ) * den
        ≤ 2 ^ (num.log2 - den.log2 - 1 : ℤ) * 2 ^ (den.log2 + 1 : ℤ) :=
          mul_le_mul_of_nonneg_left denUpper.le (two_zpow_pos _).le
      _ = 2 ^ (num.log2 : ℤ) := by
          rw [← zpow_add₀ two_ne_zero]
          congr 1
          ring
      _ ≤ num := numLower
  · refine Int.lt_add_one_iff.mp ((Int.lt_zpow_iff_log_lt one_lt_two positive).mp ?_)
    refine (div_lt_iff₀ hd').mpr ?_
    calc (num : ℚ) < 2 ^ (num.log2 + 1 : ℤ) := numUpper
      _ = ((2 : ℕ) : ℚ) ^ (num.log2 - den.log2 + 1 : ℤ) * 2 ^ (den.log2 : ℤ) := by
          rw [Nat.cast_ofNat, ← zpow_add₀ two_ne_zero]
          congr 1
          ring
      _ ≤ ((2 : ℕ) : ℚ) ^ (num.log2 - den.log2 + 1 : ℤ) * den :=
          mul_le_mul_of_nonneg_left denLower (two_zpow_pos _).le

/-- Whether a quotient has too many digits before the point is whether its exponent is larger. -/
theorem two_binade_le_iff (q : ℤ) :
    2 * binade ≤ (shifted num den q).1 / (shifted num den q).2 ↔
      q + 53 ≤ Int.log 2 (num / den : ℚ) := by
  have positive : (0 : ℚ) < num / den := div_pos (Nat.cast_pos.mpr hn) (Nat.cast_pos.mpr hd)
  have unit := shifted_pos num hd q
  rw [Nat.le_div_iff_mul_le unit, ← Int.zpow_le_iff_le_log one_lt_two positive, Nat.cast_ofNat,
    add_comm q, zpow_add₀ two_ne_zero, ← le_div_iff₀ (two_zpow_pos q), ← shifted_div,
    le_div_iff₀ (Nat.cast_pos.mpr unit), show 2 * binade = 2 ^ 53 from rfl]
  exact_mod_cast Iff.rfl

theorem exponentOf_eq : Binary64.exponentOf num den = Rounding.exponentOf (num / den) := by
  have positive : (0 : ℚ) < num / den := div_pos (Nat.cast_pos.mpr hn) (Nat.cast_pos.mpr hd)
  obtain ⟨lower, upper⟩ := log_quotient hn hd
  rw [Rounding.exponentOf, abs_of_pos positive, Binary64.exponentOf, minExponent]
  simp only [two_binade_le_iff hn hd, Int.ofNat_eq_natCast]
  split_ifs <;> omega

/-- The pattern is made of the rounded mantissa and the exponent. -/
theorem bitsOfQuotient_eq : ∃ m : ℕ,
    (m : ℤ) = halfEven (num / den / 2 ^ Rounding.exponentOf (num / den)) ∧
      bitsOfQuotient num den =
        min infinityBits (pattern m (Rounding.exponentOf (num / den))) := by
  generalize exponent : Rounding.exponentOf (num / den) = q
  refine ⟨nearestEven (shifted num den q).1 (shifted num den q).2, ?_, ?_⟩
  · rw [nearestEven_eq (shifted_pos num hd q), shifted_div]
  · rw [← exponent, ← exponentOf_eq hn hd]
    rfl

end

end Binary64

namespace Rounding

variable {x : ℚ} {f : ℤ}

/-! ## Numbers outside the range -/

theorem nearest_two_zpow (least : -1074 ≤ f) : nearest (2 ^ f) = 2 ^ f := by
  have exponent : exponentOf (2 ^ f) ≤ f := by
    have log : Int.log 2 ((2 : ℚ) ^ f) = f := by exact_mod_cast Int.log_zpow (R := ℚ) one_lt_two f
    rw [exponentOf, abs_of_pos (two_zpow_pos f), log]
    omega
  rw [← one_mul (2 ^ f : ℚ), ← Int.cast_one] at exponent ⊢
  exact nearest_of_multiple exponent

theorem rounded_of_bound_le (h : bound ≤ x) : rounded (finite x) = posInf :=
  rounded_of_ge ((nearest_two_zpow (f := 1024) (by omega)).symm.trans_le (nearest_mono h))

/-- A number below half of the least double is nearest to zero. -/
theorem nearest_of_small (nonneg : 0 ≤ x) (small : x < 2 ^ (-1075 : ℤ)) : nearest x = 0 := by
  obtain rfl | positive := nonneg.eq_or_lt
  · exact nearest_zero
  have log : Int.log 2 x < -1075 := (Int.lt_zpow_iff_log_lt one_lt_two positive).mp small
  have exponent : exponentOf x = -1074 := by
    rw [exponentOf, abs_of_pos positive]
    omega
  have half : x / 2 ^ (-1074 : ℤ) < 1 / 2 := by
    rw [div_lt_iff₀ (two_zpow_pos _)]
    refine small.trans_eq ?_
    rw [show (-1075 : ℤ) = -1 + -1074 from rfl, zpow_add₀ two_ne_zero]
    norm_num
  have fraction : 0 ≤ x / 2 ^ (-1074 : ℤ) := div_nonneg nonneg (two_zpow_pos _).le
  have floor : ⌊x / 2 ^ (-1074 : ℤ)⌋ = 0 := Int.floor_eq_zero_iff.mpr ⟨fraction, by linarith⟩
  have down : halfEven (x / 2 ^ (-1074 : ℤ)) = 0 := by
    rw [halfEven, Int.fract, floor, Int.cast_zero, sub_zero, if_pos half]
  rw [nearest, exponent, down, Int.cast_zero, zero_mul]

end Rounding

namespace Double

open Rounding Binary64
open Float.Model (UnpackedFloat Format)

variable {m num den : ℕ} {e : ℤ}

/-- A quotient is rounded to the nearest double. -/
theorem value_bitsOfQuotient (hn : 0 < num) (hd : 0 < den) :
    value (Float.ofBits (UInt64.ofNat (bitsOfQuotient num den))) = rounded (finite (num / den)) := by
  have positive : (0 : ℚ) < num / den := div_pos (Nat.cast_pos.mpr hn) (Nat.cast_pos.mpr hd)
  obtain ⟨m, mantissa, bits⟩ := bitsOfQuotient_eq hn hd
  obtain ⟨digits, normal⟩ := rounded_mantissa_bounds positive mantissa
  have least : -1074 ≤ Rounding.exponentOf (num / den) := le_max_right _ _
  have same : (m : ℚ) * 2 ^ Rounding.exponentOf (num / den) = nearest (num / den) := by
    rw [nearest, ← mantissa, Int.cast_natCast]
  obtain small | large := lt_or_ge (pattern m (Rounding.exponentOf (num / den))) infinityBits
  · have below := magnitude_lt_bound small
    rw [magnitude_pattern digits least normal, same] at below
    rw [bits, min_eq_right small.le, value_ofBits small, magnitude_pattern digits least normal, same,
      rounded_finite]
    rwa [abs_of_nonneg (nearest_nonneg positive.le)]
  · have infinite := bound_le_of_infinityBits_le digits least normal large
    rw [bits, min_eq_left large, rounded_of_ge (same ▸ infinite)]
    rfl

/-! ## Decimals -/

/-- A whole number with few enough digits goes through a machine word. -/
theorem value_ofNat (small : m < 2 ^ 53) : value (Float.ofNat m) = rounded (finite m) := by
  have word : m.toUInt64.toNat = m := Nat.mod_eq_of_lt (small.trans (by decide))
  have product : Float.ofNat m = m.toUInt64.toFloat * Float.ofBits 0x3FF0000000000000 :=
    dif_pos ⟨small, Nat.zero_le 22⟩
  have one : value (Float.ofBits 0x3FF0000000000000) = finite 1 := value_one
  have factor : value m.toUInt64.toFloat = rounded (finite m) := by
    obtain ⟨canonical, nearest⟩ := normalize_nearest m.toUInt64.toNat 0 .positive
    refine (valueOf_repacked (x := m) canonical ?_).trans rfl
    rw [nearest, zpow_zero, mul_one, Int.cast_natCast, word]
  rw [product, value_mul, factor, one, Extended.mul_one, ← factor, rounded_value]

/-- The number of digits says how large a number is. -/
theorem toDigits_bounds (positive : 0 < m) :
    (10 : ℚ) ^ ((Nat.toDigits 10 m).length - 1 : ℤ) ≤ m ∧
      (m : ℚ) < 10 ^ ((Nat.toDigits 10 m).length : ℤ) := by
  generalize length : (Nat.toDigits 10 m).length = n
  have some : 0 < n := length ▸ Nat.length_toDigits_pos
  constructor
  · obtain rfl | more : n = 1 ∨ 0 < n - 1 := by omega
    · simpa using Nat.one_le_iff_ne_zero.mpr positive.ne'
    · have lower : 10 ^ (n - 1) ≤ m := by
        by_contra below
        have short := (Nat.length_toDigits_le_iff (by decide) more).mpr (not_le.mp below)
        omega
      rw [show (n - 1 : ℤ) = (n - 1 : ℕ) by omega, zpow_natCast]
      exact_mod_cast lower
  · have upper := (Nat.length_toDigits_le_iff (by decide) some).mp length.le
    rw [zpow_natCast]
    exact_mod_cast upper

theorem bound_le_ten_zpow : bound ≤ (10 : ℚ) ^ (310 : ℤ) := by
  have powers : 2 ^ 1024 ≤ 10 ^ 310 := by decide +kernel
  change (2 : ℚ) ^ ((1024 : ℕ) : ℤ) ≤ 10 ^ ((310 : ℕ) : ℤ)
  rw [zpow_natCast, zpow_natCast]
  exact_mod_cast powers

theorem ten_zpow_lt : (10 : ℚ) ^ (-331 : ℤ) < 2 ^ (-1075 : ℤ) := by
  have powers : 2 ^ 1075 < 10 ^ 331 := by decide +kernel
  change (10 : ℚ) ^ (-((331 : ℕ) : ℤ)) < 2 ^ (-((1075 : ℕ) : ℤ))
  rw [zpow_neg, zpow_neg, zpow_natCast, zpow_natCast,
    inv_lt_inv₀ (pow_pos (by norm_num) _) (pow_pos two_pos _)]
  exact_mod_cast powers

theorem tenTo_div (m : ℕ) (e : ℤ) :
    ((m * tenTo e.toNat : ℕ) / tenTo (-e).toNat : ℚ) = m * 10 ^ e := by
  have power (n : ℕ) : tenTo n = 10 ^ n := rfl
  rw [power, power]
  obtain ⟨n, rfl | rfl⟩ := e.eq_nat_or_neg
  · simp
  · simp [div_eq_mul_inv]

/-- A decimal is rounded to the nearest double. -/
theorem value_ofDecimal (m : ℕ) (e : ℤ) : value (ofDecimal m e) = rounded (finite (m * 10 ^ e)) := by
  rw [ofDecimal]
  obtain rfl | positive := Nat.eq_zero_or_pos m
  · rw [if_pos rfl, Nat.cast_zero, zero_mul, rounded_zero]
    rfl
  rw [if_neg positive.ne']
  split
  · next whole =>
      rw [value_ofNat whole.2, whole.1, zpow_zero, mul_one]
  obtain ⟨lower, upper⟩ := toDigits_bounds positive
  have unit : (0 : ℚ) < 10 ^ e := zpow_pos (by norm_num) e
  dsimp only
  split
  · next large =>
      rw [Int.ofNat_eq_natCast] at large
      rw [rounded_of_bound_le]
      · rfl
      calc bound ≤ (10 : ℚ) ^ (310 : ℤ) := bound_le_ten_zpow
        _ ≤ 10 ^ ((Nat.toDigits 10 m).length - 1 + e : ℤ) :=
            zpow_le_zpow_right₀ (by norm_num) (by omega)
        _ = 10 ^ ((Nat.toDigits 10 m).length - 1 : ℤ) * 10 ^ e := zpow_add₀ (by norm_num) _ _
        _ ≤ m * 10 ^ e := mul_le_mul_of_nonneg_right lower unit.le
  split
  · next small =>
      rw [Int.ofNat_eq_natCast] at small
      have zero : nearest (m * 10 ^ e) = 0 := by
        refine nearest_of_small (mul_pos (Nat.cast_pos.mpr positive) unit).le ?_
        calc m * (10 : ℚ) ^ e ≤ 10 ^ ((Nat.toDigits 10 m).length : ℤ) * 10 ^ e :=
              mul_le_mul_of_nonneg_right upper.le unit.le
          _ = 10 ^ ((Nat.toDigits 10 m).length + e : ℤ) := (zpow_add₀ (by norm_num) _ _).symm
          _ ≤ 10 ^ (-331 : ℤ) := zpow_le_zpow_right₀ (by norm_num) (by omega)
          _ < 2 ^ (-1075 : ℤ) := ten_zpow_lt
      rw [rounded_finite (by rw [zero, abs_zero]; exact bound_pos), zero]
      rfl
  · have some (n : ℕ) : 0 < tenTo n := Nat.pow_pos (by decide)
    rw [value_bitsOfQuotient (Nat.mul_pos positive (some _)) (some _), tenTo_div]

end Double

end HybridAutomata
