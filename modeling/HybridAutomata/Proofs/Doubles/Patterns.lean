import Mathlib
import HybridAutomata.Decimal.Double
import HybridAutomata.Proofs.Doubles.Arithmetic

/-!
# Patterns of doubles

The significand and the exponent that are taken from a pattern are the mantissa and the exponent of
the double with that pattern. Adding a mantissa to a shifted exponent gives the pattern of their
number, also where the mantissa is the least one that has too many digits. Doubles other than zero
with the same value are the same.
-/

namespace HybridAutomata

namespace Binary64

variable {bits m : ℕ} {e : ℤ}

/-- The number that a pattern without sign stands for. -/
def magnitude (bits : ℕ) : ℚ := significand bits * 2 ^ exponent bits

/-- The pattern that a mantissa and an exponent make. -/
def pattern (m : ℕ) (e : ℤ) : ℕ := (e - minExponent).toNat * binade + m

theorem significand_of_lt (h : bits < binade) :
    significand bits = bits ∧ exponent bits = -1074 := by
  refine ⟨if_pos h, ?_⟩
  rw [exponent, Nat.div_eq_of_lt h]
  rfl

theorem significand_of_ge (h : binade ≤ bits) :
    significand bits = binade + bits % binade ∧ exponent bits = (bits / binade : ℕ) - 1075 := by
  refine ⟨if_neg h.not_gt, ?_⟩
  have whole : 1 ≤ bits / binade := (Nat.le_div_iff_mul_le (by decide)).mpr (by rwa [one_mul])
  rw [exponent, max_eq_right (by exact_mod_cast whole), minExponent]
  ring

/-- The patterns between those of zero and of infinity are those of canonical numbers. -/
theorem canonical_of_pattern (positive : 0 < bits) (small : bits < infinityBits) :
    Double.Canonical (significand bits) (exponent bits) ∧ exponent bits ≤ 971 := by
  obtain below | above := lt_or_ge bits binade
  · obtain ⟨mantissa, exponent⟩ := significand_of_lt below
    rw [mantissa, exponent]
    rw [binade] at below
    exact ⟨⟨positive, by omega, by omega, by omega⟩, by omega⟩
  · obtain ⟨mantissa, exponent⟩ := significand_of_ge above
    rw [mantissa, exponent]
    simp only [infinityBits, binade] at small above ⊢
    exact ⟨⟨by omega, by omega, by omega, by omega⟩, by omega⟩

theorem magnitude_zero : magnitude 0 = 0 := by
  rw [magnitude, (significand_of_lt (by decide)).1, Nat.cast_zero, zero_mul]

theorem magnitude_pos (positive : 0 < bits) (small : bits < infinityBits) : 0 < magnitude bits :=
  Double.mul_two_zpow_pos (canonical_of_pattern positive small).1.positive (exponent bits)

theorem magnitude_lt_bound (small : bits < infinityBits) : magnitude bits < Rounding.bound := by
  obtain rfl | positive := Nat.eq_zero_or_pos bits
  · rw [magnitude_zero]
    exact Rounding.bound_pos
  · obtain ⟨canonical, exponent⟩ := canonical_of_pattern positive small
    exact canonical.lt_bound exponent

/-! ## Mantissas that are rounded -/

section

variable (digits : m ≤ 2 ^ 53) (least : -1074 ≤ e) (normal : -1074 < e → 2 ^ 52 ≤ m)

include digits least normal

/-- The least mantissa with too many digits is that of twice the least normal one. -/
theorem magnitude_pattern : magnitude (pattern m e) = m * 2 ^ e := by
  rw [magnitude]
  obtain below | above := lt_or_ge (pattern m e) binade
  · obtain ⟨mantissa, exponent⟩ := significand_of_lt below
    rw [mantissa, exponent]
    simp only [pattern, minExponent, binade] at below ⊢
    obtain rfl : e = -1074 := by omega
    simp
  · obtain ⟨mantissa, exponent⟩ := significand_of_ge above
    rw [mantissa, exponent]
    simp only [pattern, minExponent, binade] at above ⊢
    obtain rfl | short := digits.eq_or_lt
    · have half : 4503599627370496 + ((e - -1074).toNat * 4503599627370496 + 2 ^ 53) %
          4503599627370496 = 2 ^ 52 := by omega
      have twice : (((e - -1074).toNat * 4503599627370496 + 2 ^ 53) / 4503599627370496 : ℕ) -
          (1075 : ℤ) = e + 1 := by omega
      rw [half, twice, zpow_add_one₀ two_ne_zero]
      push_cast
      ring
    · have same : 4503599627370496 + ((e - -1074).toNat * 4503599627370496 + m) %
          4503599627370496 = m := by omega
      have same' : (((e - -1074).toNat * 4503599627370496 + m) / 4503599627370496 : ℕ) -
          (1075 : ℤ) = e := by omega
      rw [same, same']

/-- The patterns from that of infinity on are those of numbers that are too large. -/
theorem bound_le_of_infinityBits_le (large : infinityBits ≤ pattern m e) :
    Rounding.bound ≤ m * 2 ^ e := by
  simp only [pattern, infinityBits, minExponent, binade] at large
  obtain ⟨k, mantissa, exponent⟩ : ∃ k : ℕ, 2 ^ k ≤ m ∧ 1024 ≤ k + e := by
    obtain ⟨rfl, above⟩ | above : m = 2 ^ 53 ∧ 971 ≤ e ∨ 972 ≤ e := by omega
    · exact ⟨53, le_rfl, by omega⟩
    · exact ⟨52, normal (by omega), by omega⟩
  calc Rounding.bound ≤ 2 ^ (k + e) := zpow_le_zpow_right₀ one_le_two exponent
    _ = 2 ^ k * 2 ^ e := by rw [zpow_add₀ two_ne_zero, zpow_natCast]
    _ ≤ m * 2 ^ e :=
        mul_le_mul_of_nonneg_right (by exact_mod_cast mantissa) (Rounding.two_zpow_pos e).le

end

end Binary64

namespace Double

open Extended Binary64
open Float.Model (UnpackedFloat Format)
open Float.Model.UnpackedFloat (Sign unpackSign unpackExponent unpackMantissa)

variable {x y : Float} {bits : ℕ}

/-! ## Unpacking -/

theorem toNat_unpackExponent (b : BitVec Format.binary64.numBits) :
    (unpackExponent b).toNat = b.toNat / 2 ^ 52 % 2 ^ 11 := by
  rw [Float.Model.UnpackedFloat.unpackExponent_def, BitVec.extractLsb'_toNat,
    Nat.shiftRight_eq_div_pow]

theorem toNat_unpackMantissa (b : BitVec Format.binary64.numBits) :
    (unpackMantissa b).toNat = b.toNat % 2 ^ 52 := by
  rw [Float.Model.UnpackedFloat.unpackMantissa_def, BitVec.extractLsb'_toNat, Nat.shiftRight_zero]

theorem sign_unpack (b : BitVec Format.binary64.numBits) :
    Sign.ofBitVec (unpackSign b) = if signBit ≤ b.toNat then .negative else .positive := by
  have bound : b.toNat < 2 ^ 64 := b.isLt
  have bit : (unpackSign b).toNat = b.toNat / 2 ^ 63 % 2 := by
    rw [Float.Model.UnpackedFloat.unpackSign_def, BitVec.extractLsb'_toNat,
      Nat.shiftRight_eq_div_pow]
    rfl
  split
  · next set =>
      have one : unpackSign b = 1 := by
        refine BitVec.eq_of_toNat_eq (bit.trans ?_)
        change _ = 1
        rw [signBit] at set
        omega
      rw [one]
      rfl
  · next clear =>
      have zero : unpackSign b = 0 := by
        refine BitVec.eq_of_toNat_eq (bit.trans ?_)
        change _ = 0
        rw [signBit] at clear
        omega
      rw [zero]
      rfl

section

variable (b : BitVec Format.binary64.numBits) (low : b.toNat % signBit = bits)

include low

theorem unpackExponent_ne (small : bits < infinityBits) : unpackExponent b ≠ -1 := by
  intro ones
  have field := toNat_unpackExponent b
  rw [ones, show (-1 : BitVec Format.binary64.exponentBits).toNat = 2047 from rfl] at field
  simp only [infinityBits, signBit, binade] at low small
  omega

theorem unpackExponent_eq_zero (below : bits < binade) : unpackExponent b = 0 := by
  refine BitVec.eq_of_toNat_eq ((toNat_unpackExponent b).trans ?_)
  change _ = 0
  simp only [signBit, binade] at low below
  omega

theorem unpack_zero (zero : bits = 0) :
    UnpackedFloat.unpack Format.binary64 b = .zero (.ofBitVec (unpackSign b)) := by
  have ones := unpackExponent_ne b low (zero ▸ by decide)
  have exponent := unpackExponent_eq_zero b low (zero ▸ by decide)
  have mantissa : unpackMantissa b = 0 := by
    refine BitVec.eq_of_toNat_eq ((toNat_unpackMantissa b).trans ?_)
    change _ = 0
    simp only [signBit] at low
    omega
  exact (if_neg ones).trans ((if_pos exponent).trans (dif_pos mantissa))

/-- A pattern between those of zero and of infinity is taken apart in the same way. -/
theorem unpack_finite (small : bits < infinityBits) (pos : 0 < significand bits)
    (positive : 0 < bits) : UnpackedFloat.unpack Format.binary64 b =
      .finite (.ofBitVec (unpackSign b)) (significand bits) (exponent bits) pos := by
  have ones := unpackExponent_ne b low small
  have field := toNat_unpackExponent b
  have digits := toNat_unpackMantissa b
  have bias : Format.binary64.exponentBias = 1023 := rfl
  obtain below | above := lt_or_ge bits binade
  · obtain ⟨mantissa, exponent⟩ := significand_of_lt below
    have none := unpackExponent_eq_zero b low below
    simp only [signBit, binade] at low below
    have some : unpackMantissa b ≠ 0 := by
      intro zero
      rw [zero, show (0 : BitVec 52).toNat = 0 from rfl] at digits
      omega
    refine (if_neg ones).trans ((if_pos none).trans ((dif_neg some).trans (finite_congr ?_ ?_)))
    · rw [mantissa, digits]
      omega
    · rw [exponent, none, bias]
      rfl
  · obtain ⟨mantissa, exponent⟩ := significand_of_ge above
    simp only [signBit, infinityBits, binade] at low above small mantissa exponent
    have some : unpackExponent b ≠ 0 := by
      intro zero
      rw [zero, show (0 : BitVec Format.binary64.exponentBits).toNat = 0 from rfl] at field
      omega
    refine (if_neg ones).trans ((if_neg some).trans (finite_congr ?_ ?_))
    · refine (toNat_one_append (unpackMantissa b)).trans ?_
      rw [mantissa, digits]
      omega
    · change ((unpackExponent b).toNat : ℤ) - (Format.binary64.exponentBias + (52 : ℕ)) = _
      rw [exponent, field, bias]
      omega

/-! ## Values -/

theorem valueOf_unpack (small : bits < infinityBits) :
    valueOf (UnpackedFloat.unpack Format.binary64 b) =
      if signBit ≤ b.toNat then -finite (magnitude bits) else finite (magnitude bits) := by
  obtain zero | positive := Nat.eq_zero_or_pos bits
  · rw [unpack_zero b low zero, zero, magnitude_zero, valueOf, neg_finite, neg_zero, ite_self]
  · have pos := (canonical_of_pattern positive small).1.positive
    rw [unpack_finite b low small pos positive, sign_unpack]
    split
    · rw [valueOf_negative, neg_finite, magnitude]
    · rw [valueOf_positive, magnitude]

end

/-- The double with a pattern is what the pattern stands for. -/
theorem value_ofBits (small : bits < infinityBits) :
    value (Float.ofBits (UInt64.ofNat bits)) = finite (magnitude bits) := by
  have pattern : (UInt64.ofNat bits).toBitVec.toNat = bits :=
    Nat.mod_eq_of_lt (small.trans (by decide))
  have unsigned : bits < signBit := small.trans (by decide)
  have same : parts (Float.ofBits (UInt64.ofNat bits)) =
      UnpackedFloat.unpack Format.binary64 (UInt64.ofNat bits).toBitVec :=
    repacked_of_fits (fits_unpack _)
  have low : (UInt64.ofNat bits).toBitVec.toNat % signBit = bits := by
    rw [pattern, Nat.mod_eq_of_lt unsigned]
  rw [value, same, valueOf_unpack _ low small, pattern, if_neg unsigned.not_ge]

theorem value_of_magnitude (small : magnitudeBits x < infinityBits) : value x =
    if isNegative x then -finite (magnitude (magnitudeBits x))
    else finite (magnitude (magnitudeBits x)) := by
  rw [value, parts_eq, valueOf_unpack x.toBits.toBitVec rfl small]
  simp only [isNegative, decide_eq_true_eq]
  rfl

/-- A finite double has a pattern below that of infinity. -/
theorem magnitudeBits_lt (h : Scalar.isFinite x = true) : magnitudeBits x < infinityBits := by
  by_contra large
  have ones : @unpackExponent Format.binary64 x.toBits.toBitVec = -1 := by
    refine BitVec.eq_of_toNat_eq ((toNat_unpackExponent _).trans ?_)
    change x.toBits.toNat / 2 ^ 52 % 2 ^ 11 = 2047
    have bound := Nat.mod_lt x.toBits.toNat (show 0 < signBit by decide)
    simp only [magnitudeBits, infinityBits, signBit, binade] at large bound
    omega
  rw [isFinite_iff, parts_eq] at h
  by_cases zero : @unpackMantissa Format.binary64 x.toBits.toBitVec = 0
  · rw [show UnpackedFloat.unpack Format.binary64 x.toBits.toBitVec = .infinity _ from
      (if_pos ones).trans (if_pos zero)] at h
    cases h
  · rw [show UnpackedFloat.unpack Format.binary64 x.toBits.toBitVec = .notANumber from
      (if_pos ones).trans (if_neg zero)] at h
    cases h

/-! ## Doubles with the same value -/

theorem eq_of_parts_eq (h : parts x = parts y) : x = y :=
  Float.toBits_inj.mp (UInt64.toBitVec_inj.mp
    ((Float.Model.UnpackedFloat.unpack_inj_of_valid x.toModel.valid y.toModel.valid).mp h))

/-- Only the two zeros have the same value. -/
theorem eq_of_value_eq {q : ℚ} (hx : value x = finite q) (hy : value y = finite q)
    (nonzero : q ≠ 0) : x = y := by
  have le : x ≤ y := by rw [le_iff, hx, hy, finite_le_finite]
  have ge : y ≤ x := by rw [le_iff, hx, hy, finite_le_finite]
  obtain same | ⟨⟨s, zero⟩, _⟩ :=
    eq_or_zero_of_compare (beq_iff.mp (LawfulComparisons.beq_iff.mpr ⟨le, ge⟩))
  · exact eq_of_parts_eq same
  · rw [value, zero] at hx
    exact absurd (Extended.finite.inj hx).symm nonzero

end Double

end HybridAutomata
