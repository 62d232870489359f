import HybridAutomata.Proofs.Exact.Fields

/-!
# Scalars that compute exactly

Where a theorem needs no more than exact arithmetic on the finite scalars, it is stated for every
type of scalars whose finite ones are the numbers of an ordered field. What lies beside them
(infinities, undefined numbers) and what the named functions give is left open.
-/

namespace HybridAutomata

/-- The finite scalars are the numbers of a field with an order, and arithmetic and comparisons on
them are those of the field. A quotient by zero is not finite. The named functions are arbitrary,
and so are powers, except that the exponents zero and one mean what they should. -/
class ExactScalar (K : outParam Type) (α : Type) [Field K] [LinearOrder K] [Scalar α] where
  number : K → α
  isFinite_iff {a : α} : Scalar.isFinite a = true ↔ ∃ x, a = number x
  number_zero : number 0 = 0
  number_one : number 1 = 1
  number_neg (x : K) : number (-x) = -number x
  number_add (x y : K) : number (x + y) = number x + number y
  number_sub (x y : K) : number (x - y) = number x - number y
  number_mul (x y : K) : number (x * y) = number x * number y
  number_div (x : K) {y : K} : y ≠ 0 → number (x / y) = number x / number y
  div_number_zero (x : K) : Scalar.isFinite (number x / number 0) = false
  pow_number_zero (x : K) : Scalar.pow (number x) (number 0) = number 1
  pow_number_one (x : K) : Scalar.pow (number x) (number 1) = number x
  number_le_iff {x y : K} : number x ≤ number y ↔ x ≤ y
  number_lt_iff {x y : K} : number x < number y ↔ x < y
  number_beq (x y : K) : (number x == number y) = decide (x = y)

namespace ExactScalar

variable {K α : Type} [Field K] [LinearOrder K] [Scalar α] [ExactScalar K α] {x y : K}

theorem isFinite_number (x : K) : Scalar.isFinite (number x : α) = true := isFinite_iff.mpr ⟨x, rfl⟩

theorem number_injective : Function.Injective (number : K → α) := by
  intro x y h
  have same : ((number x : α) == number y) = true := by
    rw [h, number_beq, decide_eq_true rfl]
  rw [number_beq] at same
  exact of_decide_eq_true same

theorem number_inj : (number x : α) = number y ↔ x = y := number_injective.eq_iff

theorem number_neg_one : (number (-1) : α) = -1 := by rw [number_neg, number_one]

theorem number_beq_symmetric (x y : K) :
    ((number x : α) == number y) = ((number y : α) == number x) := by
  rw [number_beq, number_beq, decide_eq_decide, eq_comm]

/-- A quotient that is a number has a divisor other than zero. -/
theorem div_eq_number_iff {z : K} :
    (number x / number y : α) = number z ↔ y ≠ 0 ∧ z = x / y := by
  constructor
  · intro h
    have nonzero : y ≠ 0 := by
      rintro rfl
      have finite := isFinite_number (α := α) z
      rw [← h, div_number_zero] at finite
      cases finite
    rw [← number_div x nonzero, number_inj] at h
    exact ⟨nonzero, h.symm⟩
  · rintro ⟨nonzero, rfl⟩
    exact (number_div x nonzero).symm

end ExactScalar

/-! ## Extended numbers -/

section

open Extended

variable {K : Type} [Field K] [LinearOrder K] [FloorRing K] [Functions K] [IntegerPowers K]

/-- A field with infinities and an undefined number beside it. -/
instance : ExactScalar K (Extended K) where
  number := finite
  isFinite_iff := Extended.isFinite_iff
  number_zero := zero_eq.symm
  number_one := by rw [ofNat_eq, Nat.cast_one]
  number_neg _ := rfl
  number_add _ _ := rfl
  number_sub x y := (finite_sub x y).symm
  number_mul _ _ := rfl
  number_div x _ h := (finite_div h).symm
  div_number_zero x := by
    have quotient : finite x / finite 0 = towards (SignType.sign x) := if_pos rfl
    rw [quotient]
    cases SignType.sign x <;> rfl
  pow_number_zero x := by
    have power := IntegerPowers.pow_intCast x 0
    rw [Int.cast_zero, if_neg (by simp), zpow_zero] at power
    exact congrArg ofOption power
  pow_number_one x := by
    have power := IntegerPowers.pow_intCast x 1
    rw [Int.cast_one, if_neg (by simp), zpow_one] at power
    exact congrArg ofOption power
  number_le_iff := finite_le_finite
  number_lt_iff := finite_lt_finite
  number_beq := finite_beq_finite

end

end HybridAutomata
