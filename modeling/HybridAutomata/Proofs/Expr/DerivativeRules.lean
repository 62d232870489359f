import HybridAutomata.Expr.Derivative

/-!
# The rules of differentiation

What the partial derivative is, not simplified, for each operation. In each rule the operands are
differentiated already. A rule is used for a formula in which the name occurs; for any other one the
derivative is zero.
-/

namespace HybridAutomata

namespace Expr

variable {α : Type} [Scalar α] {name : String} {e l r dl dr : Expr α}

theorem rawDerivative_of_isCondition (condition : e.isCondition = true) :
    rawDerivative name e = .error (.notNumeric e) := by
  unfold rawDerivative
  rw [if_pos condition]

theorem rawDerivative_of_free (condition : e.isCondition = false)
    (free : e.mentions name = false) : rawDerivative name e = .ok (.num 0) := by
  unfold rawDerivative
  simp [condition, free]

theorem rawDerivative_var : rawDerivative name (.var name : Expr α) = .ok (.num 1) := by
  rw [rawDerivative]
  simp [isCondition, mentions]

theorem rawDerivative_neg (occurs : (neg l).mentions name = true)
    (hl : rawDerivative name l = .ok dl) : rawDerivative name (neg l) = .ok (neg dl) := by
  rw [rawDerivative]
  simp only [isCondition, occurs]
  rw [hl]
  rfl

theorem rawDerivative_add (occurs : (add l r).mentions name = true)
    (hl : rawDerivative name l = .ok dl) (hr : rawDerivative name r = .ok dr) :
    rawDerivative name (add l r) = .ok (add dl dr) := by
  rw [rawDerivative]
  simp only [isCondition, occurs]
  rw [hl, hr]
  rfl

theorem rawDerivative_sub (occurs : (sub l r).mentions name = true)
    (hl : rawDerivative name l = .ok dl) (hr : rawDerivative name r = .ok dr) :
    rawDerivative name (sub l r) = .ok (sub dl dr) := by
  rw [rawDerivative]
  simp only [isCondition, occurs]
  rw [hl, hr]
  rfl

theorem rawDerivative_mul (occurs : (mul l r).mentions name = true)
    (hl : rawDerivative name l = .ok dl) (hr : rawDerivative name r = .ok dr) :
    rawDerivative name (mul l r) = .ok (add (mul dl r) (mul l dr)) := by
  rw [rawDerivative]
  simp only [isCondition, occurs]
  rw [hl, hr]
  rfl

theorem rawDerivative_div (occurs : (div l r).mentions name = true)
    (hl : rawDerivative name l = .ok dl) (hr : rawDerivative name r = .ok dr) :
    rawDerivative name (div l r) =
      .ok (div (sub (mul dl r) (mul l dr)) (pow r (.num 2))) := by
  rw [rawDerivative]
  simp only [isCondition, occurs]
  rw [hl, hr]
  rfl

/-- The rule for exponents without the name. -/
theorem rawDerivative_pow (occurs : (pow l r).mentions name = true)
    (free : r.mentions name = false) (hl : rawDerivative name l = .ok dl) :
    rawDerivative name (pow l r) = .ok (mul (mul r (pow l (sub r (.num 1)))) dl) := by
  rw [rawDerivative]
  simp only [isCondition, occurs]
  rw [hl]
  simp only [free]
  rfl

end Expr

end HybridAutomata
