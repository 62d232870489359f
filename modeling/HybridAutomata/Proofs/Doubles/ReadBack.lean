import Mathlib
import HybridAutomata.Proofs.Decimal.WrittenNumbers
import HybridAutomata.Proofs.Doubles.ShortestDecimals

/-!
# Finite doubles are read back

What is written for a finite double is read as that double: its digits are those of the shortest
decimal in its neighbourhood, to all of which it is the nearest double, and a zero keeps its sign. A
formula has its zeros written without a sign; these are read as equal numbers.
-/

namespace HybridAutomata

namespace Double

open Extended Rounding Binary64 Token

variable {x : Float} {bits : ℕ}

/-- Shifting the zeros of a decimal into its digits does not change the number. -/
theorem toScalar_ofDecimal (d : Decimal) :
    value (Numeral.toScalar (Numeral.ofDecimal false d)) = rounded (finite d.value) := by
  refine (value_ofDecimal _ _).trans (congrArg (rounded ∘ finite) ?_)
  have power : (tenTo d.exponent.toNat : ℚ) = 10 ^ d.exponent.toNat := by
    rw [tenTo, Nat.pow_eq, Nat.cast_pow, Nat.cast_ofNat]
  rw [Decimal.value, Nat.cast_mul, mul_assoc, power]
  congr 1
  rw [← zpow_natCast, ← zpow_add₀ (by norm_num)]
  congr 1
  omega

/-- A double without sign is read from its shortest decimal. -/
theorem value_shortest (positive : 0 < bits) (small : bits < infinityBits) :
    value (Numeral.toScalar (Numeral.ofDecimal false (shortest bits))) =
      finite (magnitude bits) := by
  have nearest := nearest_shortest positive small
  rw [toScalar_ofDecimal, rounded_finite, nearest]
  rw [nearest, abs_of_pos (magnitude_pos positive small)]
  exact magnitude_lt_bound small

theorem toScalar_ofDecimal_true (d : Decimal) :
    (Numeral.toScalar (Numeral.ofDecimal true d) : Float) =
      -Numeral.toScalar (Numeral.ofDecimal false d) := rfl

/-- The sign bit of a double is the sign that is read in front of its digits. -/
theorem toScalar_shortest (finite : Scalar.isFinite x = true) (nonzero : magnitudeBits x ≠ 0) :
    Numeral.toScalar (Numeral.ofDecimal (isNegative x) (shortest (magnitudeBits x))) = x := by
  have positive := Nat.pos_of_ne_zero nonzero
  have small := magnitudeBits_lt finite
  have read := value_shortest positive small
  have above := magnitude_pos positive small
  have same := value_of_magnitude small
  cases sign : isNegative x with
  | false =>
      rw [sign, if_neg Bool.false_ne_true] at same
      exact eq_of_value_eq read same above.ne'
  | true =>
      rw [sign, if_pos rfl, neg_finite] at same
      refine eq_of_value_eq ?_ same (neg_ne_zero.mpr above.ne')
      rw [toScalar_ofDecimal_true, value_neg, read, neg_finite]

/-- A double without significant bits is a zero. -/
theorem eq_zero_of_magnitudeBits (zero : magnitudeBits x = 0) :
    x = if isNegative x then -Float.ofBits 0 else Float.ofBits 0 := by
  have bound : x.toBits.toNat < 2 ^ 64 := x.toBits.toNat_lt
  simp only [magnitudeBits, signBit] at zero
  refine Float.toBits_inj.mp (UInt64.toNat_inj.mp ?_)
  cases sign : isNegative x with
  | false =>
      have clear : ¬2 ^ 63 ≤ x.toBits.toNat := of_decide_eq_false sign
      change x.toBits.toNat = 0
      omega
  | true =>
      have set : 2 ^ 63 ≤ x.toBits.toNat := of_decide_eq_true sign
      change x.toBits.toNat = 2 ^ 63
      omega

/-- A finite double is read back from its written form. -/
theorem ofString?_text (finite : Scalar.isFinite x = true) :
    Scalar.ofString? (text x) = some x := by
  have minus (w : String) : ("-" ++ w).toList = '-' :: w.toList := by
    rw [String.toList_append]
    rfl
  rw [text_of_isFinite finite, Scalar.ofString?, Numeral.ofString?, signed]
  by_cases zero : magnitudeBits x = 0
  · have same := eq_zero_of_magnitudeBits zero
    rw [if_pos zero]
    cases sign : isNegative x with
    | false =>
        rw [sign, if_neg Bool.false_ne_true] at same
        exact congrArg some same.symm
    | true =>
        rw [sign, if_pos rfl] at same
        exact congrArg some same.symm
  · obtain ⟨plain, opposite⟩ := Numeral.ofList?_positional (shortest (magnitudeBits x))
    have read := toScalar_shortest finite zero
    rw [if_neg zero]
    cases sign : isNegative x with
    | false =>
        rw [sign] at read
        rw [if_neg Bool.false_ne_true, plain, Option.map_some, read]
    | true =>
        rw [sign] at read
        rw [if_pos rfl, minus, opposite, Option.map_some, read]

/-! ## Numbers in formulas -/

/-- In a formula a zero is written without a sign, and every other number as elsewhere. -/
theorem exists_formatNumber (finite : Scalar.isFinite x = true) :
    ∃ word n, IsNumberText word.toList ∧ Numeral.ofList? word.toList = some n ∧
      (formatNumber x = word ∧ (n.toScalar == x) = true ∨
        formatNumber x = "-" ++ word ∧ (-n.toScalar == x) = true ∧ x < 0) := by
  by_cases zero : (x == Float.ofBits 0) = true
  · refine ⟨"0", .decimal false 0 0, isNumberText_of_all rfl rfl, rfl, .inl ⟨if_pos zero, ?_⟩⟩
    exact zero_beq zero
  have nonzero : magnitudeBits x ≠ 0 := by
    intro nothing
    refine zero ?_
    rw [eq_zero_of_magnitudeBits nothing]
    split <;> rfl
  have written : formatNumber x = signed x (shortest (magnitudeBits x)).positional :=
    (if_neg zero).trans ((text_of_isFinite finite).trans (congrArg (signed x) (if_neg nonzero)))
  have read := toScalar_shortest finite nonzero
  have same := beq_self_of_isFinite finite
  refine ⟨_, _, Decimal.isNumberText_positional (shortest (magnitudeBits x)),
    (Numeral.ofList?_positional (shortest (magnitudeBits x))).1, ?_⟩
  rw [written, signed]
  cases sign : isNegative x with
  | false =>
      rw [sign] at read
      rw [read]
      exact .inl ⟨rfl, same⟩
  | true =>
      rw [sign, toScalar_ofDecimal_true] at read
      rw [read]
      exact .inr ⟨rfl, same, lt_zero_of_isNegative sign finite zero⟩

end Double

end HybridAutomata
