import Mathlib.Algebra.CharZero.Infinite
import Mathlib.Algebra.Polynomial.Derivative
import Mathlib.Algebra.Polynomial.Roots
import HybridAutomata.Proofs.Exact.Differentiation
import HybridAutomata.Proofs.Exact.Values

/-!
# The linear coefficient

A formula built from numbers and names by negation, the four operations, with divisors free of a
name, and powers with natural exponents is a polynomial in that name. Its symbolic derivative,
simplified, stands for the derivative of that polynomial, also where a factor of the unsimplified
derivative is undefined. A derivative without names stands for one number wherever the name is, so
the polynomial is affine, and the coefficient that is found is its slope.
-/

namespace HybridAutomata

open ExactScalar Polynomial Success

namespace Expr

variable {K α : Type} [Field K] [LinearOrder K] [Scalar α] [ExactScalar K α]

/-! ## Polynomials in a name -/

/-- The formulas that are polynomials in a name: what does not mention the name is a number, and an
exponent is a natural number, written out or as a term without names. -/
inductive IsPolynomialIn (u : String) : Expr α → Prop where
  | free {e : Expr α} : e.mentions u = false → IsPolynomialIn u e
  | var : IsPolynomialIn u (.var u)
  | neg {e : Expr α} : IsPolynomialIn u e → IsPolynomialIn u (neg e)
  | add {l r : Expr α} : IsPolynomialIn u l → IsPolynomialIn u r → IsPolynomialIn u (add l r)
  | sub {l r : Expr α} : IsPolynomialIn u l → IsPolynomialIn u r → IsPolynomialIn u (sub l r)
  | mul {l r : Expr α} : IsPolynomialIn u l → IsPolynomialIn u r → IsPolynomialIn u (mul l r)
  | div {l r : Expr α} : IsPolynomialIn u l → r.mentions u = false → IsPolynomialIn u (div l r)
  | pow {l r : Expr α} (n : ℕ) : IsPolynomialIn u l → r.names = [] →
      r.simplify = .num (number (n : K)) → IsPolynomialIn u (pow l r)

/-- A polynomial that a formula stands for when one name varies, and a formula whose simplified form
stands for the derivative of the polynomial. -/
structure Differentiates (env : String → Option α) (u : String) (e : Expr α) (p : K[X])
    (d : Expr α) : Prop where
  derivative : rawDerivative u e = .ok d
  value (s : K) : Means (Function.update env u (some (number s))) e (.number (p.eval s))
  slope (s : K) :
    Means (Function.update env u (some (number s))) d.simplify (.number (p.derivative.eval s))

section

variable {env : String → Option α} {e l r dl dr : Expr α} {u : String} {p q : K[X]} {a b x : K}

theorem differentiates_of_free (free : e.mentions u = false) (h : Means env e (.number x)) :
    Differentiates env u e (C x) (.num 0) where
  derivative := rawDerivative_of_free h.isCondition_eq_false free
  value s := by
    rw [eval_C]
    exact h.update free _
  slope s := by
    rw [derivative_C, eval_zero]
    exact means_zero

theorem differentiates_var : Differentiates env u (.var u) (X : K[X]) (.num 1) where
  derivative := rawDerivative_var
  value s := by
    rw [eval_X]
    exact .var (Function.update_self ..)
  slope s := by
    rw [derivative_X, eval_one]
    exact means_one

theorem differentiates_neg (hl : Differentiates env u l p dl)
    (m : (neg l).mentions u = true) :
    Differentiates env u (neg l) (-p) (neg dl) where
  derivative := rawDerivative_neg m hl.derivative
  value s := by
    rw [eval_neg]
    exact .neg (hl.value s)
  slope s := by
    rw [derivative_neg, eval_neg]
    exact means_simplifyUnary (.neg (hl.slope s))

theorem differentiates_add (hl : Differentiates env u l p dl) (hr : Differentiates env u r q dr)
    (m : (add l r).mentions u = true) :
    Differentiates env u (add l r) (p + q) (add dl dr) where
  derivative := rawDerivative_add m hl.derivative hr.derivative
  value s := by
    rw [eval_add]
    exact means_add.mpr ⟨_, _, hl.value s, hr.value s, rfl⟩
  slope s := by
    rw [derivative_add, eval_add]
    exact means_simplify_arith (hl.slope s) (hr.slope s) (number_add ..).symm

theorem differentiates_sub (hl : Differentiates env u l p dl) (hr : Differentiates env u r q dr)
    (m : (sub l r).mentions u = true) :
    Differentiates env u (sub l r) (p - q) (sub dl dr) where
  derivative := rawDerivative_sub m hl.derivative hr.derivative
  value s := by
    rw [eval_sub]
    exact means_sub.mpr ⟨_, _, hl.value s, hr.value s, rfl⟩
  slope s := by
    rw [derivative_sub, eval_sub]
    exact means_simplify_arith (hl.slope s) (hr.slope s) (number_sub ..).symm

theorem differentiates_mul (hl : Differentiates env u l p dl) (hr : Differentiates env u r q dr)
    (m : (mul l r).mentions u = true) :
    Differentiates env u (mul l r) (p * q) (add (mul dl r) (mul l dr)) where
  derivative := rawDerivative_mul m hl.derivative hr.derivative
  value s := by
    rw [eval_mul]
    exact means_mul.mpr ⟨_, _, hl.value s, hr.value s, rfl⟩
  slope s := by
    rw [derivative_mul, eval_add, eval_mul, eval_mul]
    exact means_simplify_product_rule (hl.value s) (hr.value s) (hl.slope s) (hr.slope s)

variable [NaturalPowers K α]

/-- A divisor without the name is a constant factor. -/
theorem differentiates_div (hl : Differentiates env u l p dl) (m : (div l r).mentions u = true)
    (free : r.mentions u = false) (hb : Means env r (.number b)) (nonzero : b ≠ 0) :
    Differentiates env u (div l r) (p * C b⁻¹)
      (div (sub (mul dl r) (mul l (.num 0))) (pow r (.num 2))) where
  derivative := rawDerivative_div m hl.derivative (differentiates_of_free free hb).derivative
  value s := by
    rw [eval_mul, eval_C]
    exact means_div.mpr ⟨_, b, hl.value s, hb.update free _, nonzero, (div_eq_mul_inv _ _).symm⟩
  slope s := by
    have still : Means (Function.update env u (some (number s))) (num (0 : α)).simplify
      (.number (0 : K)) := means_zero
    have quotient := means_simplify_quotient_rule (hl.value s) (hb.update free _) nonzero
      (hl.slope s) still
    have cancelled : (p.derivative.eval s * b - p.eval s * 0) / b ^ 2 =
        (p * C b⁻¹).derivative.eval s := by
      rw [derivative_mul, derivative_C, mul_zero, mul_zero, sub_zero, add_zero, eval_mul, eval_C,
        pow_two, mul_div_mul_right _ _ nonzero, div_eq_mul_inv]
    rwa [cancelled] at quotient

omit [Field K] [LinearOrder K] [Scalar α] [ExactScalar K α] [NaturalPowers K α] in
theorem mentions_of_names_eq_nil (closed : r.names = []) : r.mentions u = false := by
  rw [Bool.eq_false_iff, Ne, mentions_iff, closed]
  exact List.not_mem_nil

/-- The power rule, with an exponent that becomes a literal when it is simplified. -/
theorem differentiates_pow (hl : Differentiates env u l p dl) (m : (pow l r).mentions u = true)
    (closed : r.names = []) {n : ℕ} (literal : r.simplify = .num (number (n : K)))
    (hr : Means env r (.number b)) :
    Differentiates env u (pow l r) (p ^ n) (mul (mul r (pow l (sub r (.num 1)))) dl) where
  derivative := rawDerivative_pow m (mentions_of_names_eq_nil closed) hl.derivative
  value s := by
    obtain rfl : b = n := by
      have simplified := simplify_eq_num_of_means r closed hr
      exact number_inj.mp (Expr.num.inj (simplified.symm.trans literal))
    refine means_arith.mpr ⟨_, _, hl.value s, hr.update (mentions_of_names_eq_nil closed) _, ?_⟩
    rw [eval_pow]
    exact NaturalPowers.pow_natCast _ n
  slope s := by
    have simplified : (mul (mul r (pow l (sub r (.num 1)))) dl).simplify =
        (mul (mul (.num (number (n : K))) (pow l (sub (.num (number (n : K))) (.num 1))))
          dl).simplify := by
      simp only [simplify, literal]
    have power := means_simplify_power_rule n (hl.value s) (hl.slope s)
    rw [simplified, derivative_pow, eval_mul, eval_mul, eval_C, eval_pow]
    exact power

/-- Every polynomial in a name is differentiated as one. -/
theorem IsPolynomialIn.exists_differentiates (h : e.IsPolynomialIn u)
    (hx : Means env e (.number x)) : ∃ p d, Differentiates (K := K) env u e p d := by
  induction h generalizing x with
  | free free => exact ⟨C x, .num 0, differentiates_of_free free hx⟩
  | var => exact ⟨X, .num 1, differentiates_var⟩
  | @neg e _ ih =>
      cases m : (Expr.neg e).mentions u with
      | false => exact ⟨_, _, differentiates_of_free m hx⟩
      | true =>
          obtain ⟨a, ha, _⟩ := means_neg.mp hx
          obtain ⟨p, d, he⟩ := ih ha
          exact ⟨_, _, differentiates_neg he m⟩
  | @add l r _ _ ihl ihr =>
      cases m : (Expr.add l r).mentions u with
      | false => exact ⟨_, _, differentiates_of_free m hx⟩
      | true =>
          obtain ⟨a, b, ha, hb, _⟩ := means_add.mp hx
          obtain ⟨p, dl, hl⟩ := ihl ha
          obtain ⟨q, dr, hr⟩ := ihr hb
          exact ⟨_, _, differentiates_add hl hr m⟩
  | @sub l r _ _ ihl ihr =>
      cases m : (Expr.sub l r).mentions u with
      | false => exact ⟨_, _, differentiates_of_free m hx⟩
      | true =>
          obtain ⟨a, b, ha, hb, _⟩ := means_sub.mp hx
          obtain ⟨p, dl, hl⟩ := ihl ha
          obtain ⟨q, dr, hr⟩ := ihr hb
          exact ⟨_, _, differentiates_sub hl hr m⟩
  | @mul l r _ _ ihl ihr =>
      cases m : (Expr.mul l r).mentions u with
      | false => exact ⟨_, _, differentiates_of_free m hx⟩
      | true =>
          obtain ⟨a, b, ha, hb, _⟩ := means_mul.mp hx
          obtain ⟨p, dl, hl⟩ := ihl ha
          obtain ⟨q, dr, hr⟩ := ihr hb
          exact ⟨_, _, differentiates_mul hl hr m⟩
  | @div l r _ free ih =>
      cases m : (Expr.div l r).mentions u with
      | false => exact ⟨_, _, differentiates_of_free m hx⟩
      | true =>
          obtain ⟨a, b, ha, hb, nonzero, _⟩ := means_div.mp hx
          obtain ⟨p, dl, hl⟩ := ih ha
          exact ⟨_, _, differentiates_div hl m free hb nonzero⟩
  | @pow l r n _ closed literal ih =>
      cases m : (Expr.pow l r).mentions u with
      | false => exact ⟨_, _, differentiates_of_free m hx⟩
      | true =>
          obtain ⟨a, b, ha, hb, _⟩ := means_arith.mp hx
          obtain ⟨p, dl, hl⟩ := ih ha
          exact ⟨_, _, differentiates_pow hl m closed literal hb⟩

/-! ## The coefficient -/

omit [LinearOrder K] [NaturalPowers K α] in
/-- A polynomial whose derivative is a constant is affine. -/
theorem eval_eq_of_derivative_eq_C [CharZero K] {c : K} (h : p.derivative = C c) (s t : K) :
    p.eval t = p.eval s + c * (t - s) := by
  have rest : (p - C c * X).derivative = 0 := by
    rw [derivative_sub, derivative_C_mul_X, h, sub_self]
  obtain ⟨b, hb⟩ : ∃ b, p = C b + C c * X :=
    ⟨_, sub_eq_iff_eq_add.mp (eq_C_of_derivative_eq_zero rest)⟩
  rw [hb, eval_add, eval_add, eval_C, eval_C, eval_C_mul, eval_C_mul, eval_X, eval_X]
  ring

/-- A coefficient that is found is a number, and what the formula stands for is affine in the name
with that slope. -/
theorem IsPolynomialIn.affine_of_linearCoefficient [CharZero K] (h : e.IsPolynomialIn u)
    {coefficient : α} (found : e.linearCoefficient? u = some coefficient)
    (start : env u = some (number a)) (hx : Means env e (.number x)) :
    ∃ c, coefficient = number c ∧
      ∀ s, Means (Function.update env u (some (number s))) e (.number (x + c * (s - a))) := by
  obtain ⟨p, d, differentiates⟩ := h.exists_differentiates hx
  have derived : e.derivative u = .ok d.simplify := by
    rw [derivative, differentiates.derivative]
    rfl
  simp only [linearCoefficient?, derived] at found
  split at found
  · next closed =>
      have names := names_eq_nil_of_vars (List.isEmpty_iff.mp closed)
      -- without names in it, the derivative stands for one number wherever the name is
      have constant (s : K) : coefficient = number (p.derivative.eval s) := by
        have evaluated : d.simplify.eval (fun _ => none) = .ok (number (p.derivative.eval s)) := by
          rw [← eval_of_means _ (differentiates.slope s)]
          exact eval_congr _ (by simp [names])
        rw [evaluated] at found
        exact (Option.some.inj found).symm
      have := CharZero.infinite K
      have slope : p.derivative = C (p.derivative.eval 0) := by
        apply Polynomial.funext
        intro s
        rw [eval_C, ← number_inj (α := α), ← constant s, ← constant 0]
      have here : x = p.eval a := by
        have value := differentiates.value a
        rw [← start, Function.update_eq_self] at value
        exact number_inj.mp (Except.ok.inj
          ((eval_of_means e hx).symm.trans (eval_of_means e value)))
      refine ⟨p.derivative.eval 0, constant 0, fun s => ?_⟩
      rw [here, ← eval_eq_of_derivative_eq_C slope]
      exact differentiates.value s
  · cases found

omit [NaturalPowers K α] in
/-- A formula with a coefficient stands for a number where it is defined throughout. -/
theorem exists_means_of_linearCoefficient {coefficient : α}
    (found : e.linearCoefficient? u = some coefficient) (defined : DefinedThroughout env e) :
    ∃ y, Means env e (.number y) := by
  obtain ⟨c, value, _⟩ | ⟨b, truth⟩ := defined e (.whole e)
  · obtain ⟨y, _, means⟩ := means_of_eval e defined value
    exact ⟨y, means⟩
  · rw [linearCoefficient?, derivative,
      rawDerivative_of_isCondition (isCondition_of_holds env truth)] at found
    cases found

/-- The coefficient that is found for a name is the slope of the formula in that name: wherever the
formula is defined throughout, its value is the coefficient times the number that the name stands
for, plus the value that it has with the name at zero, where it is defined as well. -/
theorem IsPolynomialIn.eval_eq_slope_mul_add [CharZero K] {f : Expr α} {name : String}
    (polynomial : f.IsPolynomialIn name) {coefficient : α}
    (found : f.linearCoefficient? name = some coefficient) {env : String → Option α} {a : K}
    (start : env name = some (number a)) (defined : DefinedThroughout env f) :
    ∃ slope rest : K, coefficient = number slope ∧
      DefinedThroughout (Function.update env name (some (number 0))) f ∧
      f.eval (Function.update env name (some (number 0))) = .ok (number rest) ∧
      f.eval env = .ok (number (slope * a + rest)) := by
  obtain ⟨y, value⟩ := exists_means_of_linearCoefficient found defined
  obtain ⟨slope, rfl, affine⟩ := polynomial.affine_of_linearCoefficient found start value
  have atZero := affine 0
  refine ⟨slope, y + slope * (0 - a), rfl, definedThroughout_of_means atZero,
    eval_of_means f atZero, ?_⟩
  have total : slope * a + (y + slope * (0 - a)) = y := by ring
  rw [total]
  exact eval_of_means f value

open Extended in
/-- The formula `(y ^ 2 - 3 * u) / 2 + u ^ 1` has the slope `-1 / 2` in `u`. -/
theorem eval_eq_neg_half_mul_add :
    let env : String → Option (Extended ℚ) := fun name =>
      if name = "u" then some (finite 4) else some (finite 3)
    let f : Expr (Extended ℚ) :=
      add (div (sub (pow (.var "y") (.num (finite 2))) (mul (.num (finite 3)) (.var "u")))
        (.num (finite 2))) (pow (.var "u") (.num (finite 1)))
    f.IsPolynomialIn "u" ∧ f.linearCoefficient? "u" = some (finite (-1 / 2)) ∧
      DefinedThroughout env f ∧
      f.eval (Function.update env "u" (some (finite 0))) = .ok (finite (9 / 2)) ∧
      f.eval env = .ok (finite (-1 / 2 * 4 + 9 / 2)) := by
  intro env f
  have polynomial : f.IsPolynomialIn "u" := by
    refine .add (.div (.sub (.free rfl) (.mul (.free rfl) .var)) rfl) (.pow 1 .var rfl ?_)
    rw [Nat.cast_one]
    rfl
  have found : f.linearCoefficient? "u" = some (finite (-1 / 2)) := by
    have read : (f.linearCoefficient? "u").bind number? = some (-1 / 2) := by decide +kernel
    obtain ⟨c, found, literal⟩ := Option.bind_eq_some_iff.mp read
    rw [found, number?_eq_some_iff.mp literal]
  have value : Means env f (.number (5 / 2)) := by
    have u : Means env (.var "u") (.number 4) := .var rfl
    have y : Means env (.var "y") (.number 3) := .var rfl
    have square : Means env (pow (.var "y") (.num (finite 2))) (.number 9) :=
      (means_pow_nat (n := 2)).mpr ⟨3, y, by norm_num⟩
    have product : Means env (mul (.num (finite 3)) (.var "u")) (.number 12) :=
      means_mul.mpr ⟨3, 4, .num 3, u, by norm_num⟩
    have same : Means env (pow (.var "u") (.num (finite 1))) (.number 4) :=
      (means_pow_nat (n := 1)).mpr ⟨4, u, by norm_num⟩
    have half := means_div.mpr ⟨-3, 2, means_sub.mpr ⟨9, 12, square, product, by norm_num⟩, .num 2,
      by norm_num, rfl⟩
    exact means_add.mpr ⟨-3 / 2, 4, half, same, by norm_num⟩
  have defined := definedThroughout_of_means value
  obtain ⟨slope, rest, same, _, atZero, total⟩ :=
    polynomial.eval_eq_slope_mul_add found (a := 4) rfl defined
  obtain rfl : -1 / 2 = slope := finite.inj same
  obtain rfl : rest = 9 / 2 := by
    have sum : -1 / 2 * 4 + rest = 5 / 2 :=
      finite.inj (Except.ok.inj (total.symm.trans (eval_of_means f value)))
    linarith
  exact ⟨polynomial, found, defined, atZero, total⟩

end

end Expr

end HybridAutomata
