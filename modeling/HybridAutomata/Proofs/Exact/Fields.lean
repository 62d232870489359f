import Mathlib.Analysis.SpecialFunctions.Pow.Real
import HybridAutomata.Proofs.Exact.Numbers

/-!
# Laws of functions

The theorems about values use two laws at most: powers with whole exponents are repeated products
and their inverses, and logarithm and exponential turn powers into products. The real functions
satisfy both; over the rationals the first one can be kept.
-/

namespace HybridAutomata

section

variable (K : Type) [Field K] [LinearOrder K] [Functions K]

/-- A whole exponent means a repeated product or its inverse. -/
class IntegerPowers : Prop where
  pow_intCast (x : K) (n : ℤ) :
    Functions.pow x (n : K) = if x = 0 ∧ n < 0 then none else some (x ^ n)

/-- The functions `ln` and `exp` keep the order and turn powers into products. -/
structure ExponentialLaws (ln exp : K → K) : Prop where
  ln_eq (x : K) : 0 < x → Functions.ln x = some (ln x)
  exp_eq (x : K) : Functions.exp x = some (exp x)
  ln_mono {x y : K} : 0 < x → x ≤ y → ln x ≤ ln y
  exp_mono : Monotone exp
  exp_nonneg (x : K) : 0 ≤ exp x
  exp_mul_ln {x : K} (n : ℤ) : 0 < x → exp (n * ln x) = x ^ n

/-- There are a logarithm and an exponential. -/
class Exponentials : Prop where
  laws : ∃ ln exp : K → K, ExponentialLaws K ln exp

end

/-! ## The rationals -/

/-- The rationals have the powers with whole exponents. -/
instance : Functions ℚ where
  pi := none
  sin _ := none
  cos _ := none
  tan _ := none
  exp _ := none
  ln _ := none
  sqrt _ := none
  pow x y := if y.den = 1 then if x = 0 ∧ y.num < 0 then none else some (x ^ y.num) else none

instance : IntegerPowers ℚ where
  pow_intCast x n := by
    change (if (n : ℚ).den = 1 then _ else _) = _
    rw [if_pos (Rat.den_intCast n), Rat.num_intCast]

/-! ## The reals -/

/-- A power has no value for an inverse of zero and for a root of a negative number. -/
noncomputable instance : Functions ℝ where
  pi := some Real.pi
  sin x := some (Real.sin x)
  cos x := some (Real.cos x)
  tan x := if Real.cos x = 0 then none else some (Real.tan x)
  exp x := some (Real.exp x)
  ln x := if 0 < x then some (Real.log x) else none
  sqrt x := if 0 ≤ x then some (Real.sqrt x) else none
  pow x y :=
    if (x = 0 ∧ y < 0) ∨ (x < 0 ∧ y ≠ ⌊y⌋) then none else some (x ^ y)

instance : IntegerPowers ℝ where
  pow_intCast x n := by
    change (if (x = 0 ∧ (n : ℝ) < 0) ∨ (x < 0 ∧ (n : ℝ) ≠ ⌊(n : ℝ)⌋) then _ else _) = _
    simp only [Int.floor_intCast, ne_eq, not_true_eq_false, and_false, or_false, Int.cast_lt_zero,
      Real.rpow_intCast]

instance : Exponentials ℝ where
  laws := by
    refine ⟨Real.log, Real.exp, {
      ln_eq := fun x positive => if_pos positive
      exp_eq := fun _ => rfl
      ln_mono := Real.log_le_log
      exp_mono := Real.exp_monotone
      exp_nonneg := Real.exp_nonneg
      exp_mul_ln := fun n positive => ?_ }⟩
    rw [← Real.log_zpow, Real.exp_log (zpow_pos positive n)]

end HybridAutomata
