import Mathlib.Algebra.DualNumber
import Mathlib.LinearAlgebra.Pi
import HybridAutomata.Proofs.Exact.Simplification
import HybridAutomata.Proofs.Expr.DerivativeRules
import HybridAutomata.Proofs.Expr.Substitution

/-!
# Differentiation computes with dual numbers

A rational formula can be evaluated over the dual numbers `a + b ε`: each name moves from its value
at some rate, and the coefficient of `ε` is the rate at which the formula moves. Symbolic
differentiation computes that coefficient, along one name and along a flow: what it returns,
simplified, has it as its value wherever the formula is defined.

The coefficient is linear in the rates of the names. That is what makes the sum over the names of a
flow, each differentiated on its own, the derivative along the flow.
-/

namespace HybridAutomata

open DualNumber ExactScalar Success TrivSqZeroExt

/-- Powers with natural exponents are repeated products. -/
class NaturalPowers (K : outParam Type) (α : Type) [Field K] [LinearOrder K] [Scalar α]
    [ExactScalar K α] : Prop where
  number_two : number 2 = (2 : α)
  pow_natCast (x : K) (n : ℕ) : Scalar.pow (number x : α) (number (n : K)) = number (x ^ n)

instance {K : Type} [Field K] [LinearOrder K] [FloorRing K] [Functions K] [IntegerPowers K] :
    NaturalPowers K (Extended K) where
  number_two := by
    rw [Extended.ofNat_eq]
    rfl
  pow_natCast x n := by
    have power := IntegerPowers.pow_intCast x n
    rw [Int.cast_natCast, if_neg (by simp), zpow_natCast] at power
    exact congrArg Extended.ofOption power

namespace Expr

variable {K α : Type} [Field K] [LinearOrder K] [Scalar α] [ExactScalar K α]

/-- Formulas built from numbers and names by the four operations, and by powers whose exponent is a
natural number that is written out. -/
inductive IsRational : Expr α → Prop
  | num (c : α) : IsRational (.num c)
  | var (name : String) : IsRational (.var name)
  | neg {e : Expr α} : IsRational e → IsRational (neg e)
  | add {l r : Expr α} : IsRational l → IsRational r → IsRational (add l r)
  | sub {l r : Expr α} : IsRational l → IsRational r → IsRational (sub l r)
  | mul {l r : Expr α} : IsRational l → IsRational r → IsRational (mul l r)
  | div {l r : Expr α} : IsRational l → IsRational r → IsRational (div l r)
  | pow {e : Expr α} (n : ℕ) : IsRational e → IsRational (pow e (.num (number (n : K))))

/-- What a formula stands for over the dual numbers, where each name moves from its value at its
rate. A quotient needs a divisor that is not infinitesimal. -/
inductive DualMeans (env : String → Option α) (rate : String → K) : Expr α → K[ε] → Prop
  | num (x : K) : DualMeans env rate (.num (number x)) (inl x)
  | var {name : String} {x : K} (value : env name = some (number x)) :
      DualMeans env rate (.var name) (inl x + inr (rate name))
  | neg {e : Expr α} {a : K[ε]} : DualMeans env rate e a → DualMeans env rate (neg e) (-a)
  | add {l r : Expr α} {a b : K[ε]} : DualMeans env rate l a → DualMeans env rate r b →
      DualMeans env rate (add l r) (a + b)
  | sub {l r : Expr α} {a b : K[ε]} : DualMeans env rate l a → DualMeans env rate r b →
      DualMeans env rate (sub l r) (a - b)
  | mul {l r : Expr α} {a b : K[ε]} : DualMeans env rate l a → DualMeans env rate r b →
      DualMeans env rate (mul l r) (a * b)
  | div {l r : Expr α} {a b : K[ε]} : DualMeans env rate l a → DualMeans env rate r b →
      b.fst ≠ 0 → DualMeans env rate (div l r) (a * b⁻¹)
  | pow {e : Expr α} {a : K[ε]} (n : ℕ) : DualMeans env rate e a →
      DualMeans env rate (pow e (.num (number (n : K)))) (a ^ n)

variable {env : String → Option α} {rate : String → K} {e l r : Expr α} {y a b : K}

/-! ## The value over the dual numbers -/

/-- A formula has at most one value over the dual numbers. -/
theorem DualMeans.unique [CharZero K] {z w : K[ε]} (h : DualMeans env rate e z)
    (h' : DualMeans env rate e w) : z = w := by
  induction h generalizing w with
  | num x =>
      generalize literal : (number x : α) = c at h'
      cases h' with
      | num x' => rw [number_inj.mp literal]
  | var value =>
      cases h' with
      | var value' => rw [number_inj.mp (Option.some.inj (value.symm.trans value'))]
  | neg _ ih =>
      cases h' with
      | neg he => rw [ih he]
  | add _ _ ihl ihr =>
      cases h' with
      | add hl hr => rw [ihl hl, ihr hr]
  | sub _ _ ihl ihr =>
      cases h' with
      | sub hl hr => rw [ihl hl, ihr hr]
  | mul _ _ ihl ihr =>
      cases h' with
      | mul hl hr => rw [ihl hl, ihr hr]
  | div _ _ _ ihl ihr =>
      cases h' with
      | div hl hr _ => rw [ihl hl, ihr hr]
  | pow n _ ih =>
      generalize literal : (number (n : K) : α) = c at h'
      cases h' with
      | pow n' he => rw [ih he, Nat.cast_injective (number_inj.mp literal)]

/-- Where no name of a formula moves, the formula does not. -/
theorem DualMeans.snd_eq_zero {z : K[ε]} (h : DualMeans env rate e z)
    (still : ∀ name ∈ e.names, rate name = 0) : z.snd = 0 := by
  induction h with
  | num x => exact snd_inl ..
  | @var name x value =>
      rw [still name (by simp [names]), inr_zero, add_zero]
      exact snd_inl ..
  | neg _ ih => rw [snd_neg, ih still, neg_zero]
  | @add l r a b _ _ ihl ihr =>
      have fixed := List.forall_mem_append.mp (by simpa only [names] using still)
      rw [snd_add, ihl fixed.1, ihr fixed.2, add_zero]
  | @sub l r a b _ _ ihl ihr =>
      have fixed := List.forall_mem_append.mp (by simpa only [names] using still)
      rw [snd_sub, ihl fixed.1, ihr fixed.2, sub_zero]
  | @mul l r a b _ _ ihl ihr =>
      have fixed := List.forall_mem_append.mp (by simpa only [names] using still)
      rw [DualNumber.snd_mul, ihl fixed.1, ihr fixed.2, mul_zero, zero_mul, add_zero]
  | @div l r a b _ _ _ ihl ihr =>
      have fixed := List.forall_mem_append.mp (by simpa only [names] using still)
      simp [ihl fixed.1, ihr fixed.2]
  | @pow e a n _ ih =>
      have fixed := List.forall_mem_append.mp (by simpa only [names] using still)
      simp [TrivSqZeroExt.snd_pow, ih fixed.1]

/-- A value over the dual numbers, taken apart. -/
theorem DualMeans.of_parts {z : K[ε]} {δ : K} (h : DualMeans env rate e z) (value : z.fst = y)
    (moves : z.snd = δ) : DualMeans env rate e (inl y + inr δ) := by
  rwa [← value, ← moves, inl_fst_add_inr_snd_eq]

theorem means_pow_nat [NaturalPowers K α] {n : ℕ} :
    Means env (pow e (.num (number (n : K)))) (.number y) ↔
      ∃ a, Means env e (.number a) ∧ y = a ^ n := by
  simp only [means_arith, means_num, ArithOp.apply, number_inj]
  constructor
  · rintro ⟨a, _, operand, rfl, power⟩
    rw [NaturalPowers.pow_natCast, number_inj] at power
    exact ⟨a, operand, power.symm⟩
  · rintro ⟨a, operand, rfl⟩
    exact ⟨a, n, operand, rfl, NaturalPowers.pow_natCast a n⟩

/-- Where a rational formula stands for a number it has a value over the dual numbers, whose
coefficient is linear in the rates. -/
theorem IsRational.exists_gradient [NaturalPowers K α] (h : e.IsRational)
    (value : Means env e (.number y)) : ∃ gradient : (String → K) →ₗ[K] K,
      ∀ rate, DualMeans env rate e (inl y + inr (gradient rate)) := by
  induction h generalizing y with
  | num c =>
      obtain rfl := means_num.mp value
      refine ⟨0, fun rate => ?_⟩
      rw [LinearMap.zero_apply, inr_zero, add_zero]
      exact .num y
  | var name =>
      cases value with
      | var found => exact ⟨LinearMap.proj name, fun rate => .var found⟩
  | neg _ ih =>
      obtain ⟨a, operand, rfl⟩ := means_neg.mp value
      obtain ⟨gradient, means⟩ := ih operand
      exact ⟨-gradient, fun rate => (means rate).neg.of_parts (by simp) (by simp)⟩
  | add _ _ ihl ihr =>
      obtain ⟨a, b, left, right, rfl⟩ := means_add.mp value
      obtain ⟨gl, hl⟩ := ihl left
      obtain ⟨gr, hr⟩ := ihr right
      exact ⟨gl + gr, fun rate => ((hl rate).add (hr rate)).of_parts (by simp) (by simp)⟩
  | sub _ _ ihl ihr =>
      obtain ⟨a, b, left, right, rfl⟩ := means_sub.mp value
      obtain ⟨gl, hl⟩ := ihl left
      obtain ⟨gr, hr⟩ := ihr right
      exact ⟨gl - gr, fun rate => ((hl rate).sub (hr rate)).of_parts (by simp) (by simp)⟩
  | mul _ _ ihl ihr =>
      obtain ⟨a, b, left, right, rfl⟩ := means_mul.mp value
      obtain ⟨gl, hl⟩ := ihl left
      obtain ⟨gr, hr⟩ := ihr right
      refine ⟨a • gr + b • gl, fun rate => ((hl rate).mul (hr rate)).of_parts (by simp) ?_⟩
      simp [mul_comm]
  | div _ _ ihl ihr =>
      obtain ⟨a, b, left, right, nonzero, rfl⟩ := means_div.mp value
      obtain ⟨gl, hl⟩ := ihl left
      obtain ⟨gr, hr⟩ := ihr right
      refine ⟨b⁻¹ • gl - (a / b ^ 2) • gr, fun rate =>
        ((hl rate).div (hr rate) (by simpa using nonzero)).of_parts (by simp [div_eq_mul_inv]) ?_⟩
      simp
      field_simp
      ring
  | pow n _ ih =>
      obtain ⟨a, operand, rfl⟩ := means_pow_nat.mp value
      obtain ⟨gradient, means⟩ := ih operand
      refine ⟨(n * a ^ (n - 1)) • gradient, fun rate =>
        ((means rate).pow n).of_parts (by simp) ?_⟩
      simp [mul_assoc]

theorem DualMeans.means [NaturalPowers K α] {z : K[ε]} (h : DualMeans env rate e z) :
    Means env e (.number z.fst) := by
  induction h with
  | num x => exact .num x
  | @var name x value =>
      rw [fst_add, fst_inl, fst_inr, add_zero]
      exact .var value
  | neg _ ih => exact .neg ih
  | add _ _ ihl ihr => exact means_add.mpr ⟨_, _, ihl, ihr, fst_add ..⟩
  | sub _ _ ihl ihr => exact means_sub.mpr ⟨_, _, ihl, ihr, fst_sub ..⟩
  | mul _ _ ihl ihr => exact means_mul.mpr ⟨_, _, ihl, ihr, fst_mul ..⟩
  | div _ _ nonzero ihl ihr =>
      refine means_div.mpr ⟨_, _, ihl, ihr, nonzero, ?_⟩
      rw [fst_mul, fst_inv, div_eq_mul_inv]
  | pow n _ ih => exact means_pow_nat.mpr ⟨_, ih, fst_pow ..⟩

/-! ## Simplified derivatives -/

/-- Simplification of an operation on formulas whose simplified forms stand for numbers. -/
theorem means_simplify_arith {op : ArithOp} (left : Means env l.simplify (.number a))
    (right : Means env r.simplify (.number b))
    (result : op.apply (number a : α) (number b) = number y) :
    Means env (.binary (.arith op) l r : Expr α).simplify (.number y) := by
  rw [simplify]
  exact means_simplifyBinary (.arith left right result)

/-- The literals that come of a power of a number are finite. -/
theorem isFinite_of_simplifyBinary_pow {c d : α} (operand : Means env l (.number a))
    (literal : simplifyBinary (.arith .pow) l (.num c) = .num d) : Scalar.isFinite d = true := by
  have simplified (l : Expr α) (operand : Means env l (.number a))
      (literal : simplifyPow l (.num c) = .num d) : Scalar.isFinite d = true := by
    simp only [simplifyPow] at literal
    split at literal
    · obtain rfl : 1 = d := Expr.num.inj literal
      rw [← number_one]
      exact isFinite_number _
    · split at literal
      · rw [literal, means_num] at operand
        rw [operand]
        exact isFinite_number _
      · cases literal
  simp only [simplifyBinary] at literal
  split at literal
  · next base _ exponent =>
      cases exponent
      cases folded : foldArith .pow base c with
      | none =>
          rw [folded] at literal
          exact simplified _ operand literal
      | some f =>
          rw [folded, Option.getD_some] at literal
          obtain ⟨rfl, isFinite⟩ := eq_of_foldArith folded
          exact Expr.num.inj literal ▸ isFinite
  · exact simplified _ operand literal

/-- A product with a literal zero is zero if the other factor is no infinite literal. -/
theorem simplifyBinary_zero_mul_of_finite
    (finite : ∀ d, r = .num d → Scalar.isFinite d = true) :
    simplifyBinary (.arith .mul) (.num (number (0 : K))) r = .num (0 : α) := by
  have absorbed (r : Expr α) : simplifyMul (.num (number (0 : K))) r = .num (0 : α) := by
    unfold simplifyMul
    rw [if_pos]
    rw [← number_zero]
    simp [isNum, numWhere, num?, Option.filter, number_beq]
  simp only [simplifyBinary]
  split
  · next c d left =>
      cases left
      obtain ⟨x, rfl⟩ := isFinite_iff.mp (finite d rfl)
      cases folded : foldArith .mul (number (0 : K)) (number x : α) with
      | none =>
          exact absurd folded (by simp [foldArith, ArithOp.apply, ← number_mul, isFinite_number])
      | some f =>
          rw [Option.getD_some, (eq_of_foldArith folded).1, ArithOp.apply, ← number_mul, zero_mul,
            number_zero]
  · exact absorbed _

/-- The product rule. -/
theorem means_simplify_product_rule {dl dr : Expr α} {δl δr : K} (left : Means env l (.number a))
    (right : Means env r (.number b)) (slopeL : Means env dl.simplify (.number δl))
    (slopeR : Means env dr.simplify (.number δr)) :
    Means env (add (mul dl r) (mul l dr)).simplify (.number (δl * b + a * δr)) := by
  have first : Means env (mul dl r).simplify (.number (δl * b)) :=
    means_simplify_arith slopeL (means_simplify r right) (number_mul ..).symm
  have second : Means env (mul l dr).simplify (.number (a * δr)) :=
    means_simplify_arith (means_simplify l left) slopeR (number_mul ..).symm
  exact means_simplify_arith first second (number_add ..).symm

/-- The quotient rule. -/
theorem means_simplify_quotient_rule [NaturalPowers K α] {dl dr : Expr α} {δl δr : K}
    (left : Means env l (.number a)) (right : Means env r (.number b)) (nonzero : b ≠ 0)
    (slopeL : Means env dl.simplify (.number δl)) (slopeR : Means env dr.simplify (.number δr)) :
    Means env (div (sub (mul dl r) (mul l dr)) (pow r (.num 2))).simplify
      (.number ((δl * b - a * δr) / b ^ 2)) := by
  have first : Means env (mul dl r).simplify (.number (δl * b)) :=
    means_simplify_arith slopeL (means_simplify r right) (number_mul ..).symm
  have second : Means env (mul l dr).simplify (.number (a * δr)) :=
    means_simplify_arith (means_simplify l left) slopeR (number_mul ..).symm
  have numerator : Means env (sub (mul dl r) (mul l dr)).simplify (.number (δl * b - a * δr)) :=
    means_simplify_arith first second (number_sub ..).symm
  have square : Means env (pow r (.num 2)).simplify (.number (b ^ 2)) := by
    have literal : (2 : α) = number ((2 : ℕ) : K) := by
      rw [Nat.cast_ofNat, NaturalPowers.number_two]
    rw [literal]
    exact means_simplify _ (means_pow_nat.mpr ⟨b, right, rfl⟩)
  exact means_simplify_arith numerator square (number_div _ (pow_ne_zero 2 nonzero)).symm

/-- The power rule. Where the exponent is zero the product with it is zero, although the power with
an exponent less by one may be undefined. -/
theorem means_simplify_power_rule [NaturalPowers K α] {dl : Expr α} {δ : K} (n : ℕ)
    (operand : Means env l (.number a)) (slope : Means env dl.simplify (.number δ)) :
    Means env (mul (mul (.num (number (n : K))) (pow l (sub (.num (number (n : K))) (.num 1))))
      dl).simplify (.number (n * a ^ (n - 1) * δ)) := by
  have decreased : (sub (.num (number (n : K))) (.num 1)).simplify =
      .num (number (n - 1 : K) : α) := by
    simp [simplify, simplifyBinary, foldArith, ArithOp.apply, ← number_one, ← number_sub,
      isFinite_number]
  have base := means_simplify l operand
  refine means_simplify_arith (a := n * a ^ (n - 1)) (b := δ) ?_ slope (number_mul ..).symm
  rw [simplify, simplify, simplify, decreased]
  cases n with
  | zero =>
      rw [Nat.cast_zero, zero_mul, simplifyBinary_zero_mul_of_finite]
      · exact means_zero
      · intro d literal
        exact isFinite_of_simplifyBinary_pow base literal
  | succ k =>
      rw [Nat.cast_succ, add_sub_cancel_right, Nat.add_sub_cancel]
      have power : Means env (pow l.simplify (.num (number (k : K)))) (.number (a ^ k)) :=
        means_pow_nat.mpr ⟨a, base, rfl⟩
      exact means_simplifyBinary
        (means_mul.mpr ⟨_, _, .num _, means_simplifyBinary power, rfl⟩)

/-- The derivative along one name computes the coefficient where only that name moves, at rate
one. -/
theorem DualMeans.exists_derivative [NaturalPowers K α] {name : String} {z : K[ε]}
    (h : DualMeans env (Pi.single name 1) e z) :
    ∃ d, rawDerivative name e = .ok d ∧ Means env d.simplify (.number z.snd) := by
  -- where the name does not occur, the derivative is zero whatever the formula is
  have still {e : Expr α} {z : K[ε]} (h : DualMeans env (Pi.single name 1) e z)
      (condition : e.isCondition = false) (free : e.mentions name = false) :
      ∃ d, rawDerivative name e = .ok d ∧ Means env d.simplify (.number z.snd) := by
    refine ⟨.num 0, rawDerivative_of_free condition free, ?_⟩
    rw [h.snd_eq_zero]
    · exact means_zero
    · intro other occurs
      refine Pi.single_eq_of_ne ?_ 1
      rintro rfl
      rw [(mentions_iff other e).mpr occurs] at free
      cases free
  induction h with
  | num x => exact still (.num x) rfl rfl
  | @var other x value =>
      cases m : (Expr.var other : Expr α).mentions name with
      | false => exact still (.var value) rfl m
      | true =>
          obtain rfl : other = name := by simpa [mentions] using m
          refine ⟨.num 1, rawDerivative_var, ?_⟩
          rw [snd_add, snd_inl, snd_inr, Pi.single_eq_same, zero_add]
          exact means_one
  | @neg l a hl ih =>
      cases m : (Expr.neg l).mentions name with
      | false => exact still hl.neg rfl m
      | true =>
          obtain ⟨dl, derivedL, slopeL⟩ := ih
          refine ⟨_, rawDerivative_neg m derivedL, ?_⟩
          rw [snd_neg, simplify]
          exact means_simplifyUnary (.neg slopeL)
  | @add l r a b hl hr ihl ihr =>
      cases m : (Expr.add l r).mentions name with
      | false => exact still (hl.add hr) rfl m
      | true =>
          obtain ⟨dl, derivedL, slopeL⟩ := ihl
          obtain ⟨dr, derivedR, slopeR⟩ := ihr
          refine ⟨_, rawDerivative_add m derivedL derivedR, ?_⟩
          exact means_simplify_arith slopeL slopeR (number_add ..).symm
  | @sub l r a b hl hr ihl ihr =>
      cases m : (Expr.sub l r).mentions name with
      | false => exact still (hl.sub hr) rfl m
      | true =>
          obtain ⟨dl, derivedL, slopeL⟩ := ihl
          obtain ⟨dr, derivedR, slopeR⟩ := ihr
          refine ⟨_, rawDerivative_sub m derivedL derivedR, ?_⟩
          exact means_simplify_arith slopeL slopeR (number_sub ..).symm
  | @mul l r a b hl hr ihl ihr =>
      cases m : (Expr.mul l r).mentions name with
      | false => exact still (hl.mul hr) rfl m
      | true =>
          obtain ⟨dl, derivedL, slopeL⟩ := ihl
          obtain ⟨dr, derivedR, slopeR⟩ := ihr
          refine ⟨_, rawDerivative_mul m derivedL derivedR, ?_⟩
          rw [DualNumber.snd_mul, add_comm]
          exact means_simplify_product_rule hl.means hr.means slopeL slopeR
  | @div l r a b hl hr nonzero ihl ihr =>
      cases m : (Expr.div l r).mentions name with
      | false => exact still (hl.div hr nonzero) rfl m
      | true =>
          obtain ⟨dl, derivedL, slopeL⟩ := ihl
          obtain ⟨dr, derivedR, slopeR⟩ := ihr
          refine ⟨_, rawDerivative_div m derivedL derivedR, ?_⟩
          have quotient : (a * b⁻¹).snd = (a.snd * b.fst - a.fst * b.snd) / b.fst ^ 2 := by
            simp
            field_simp
            ring
          rw [quotient]
          exact means_simplify_quotient_rule hl.means hr.means nonzero slopeL slopeR
  | @pow l a n hl ih =>
      cases m : (Expr.pow l (.num (number (n : K)))).mentions name with
      | false => exact still (hl.pow n) rfl m
      | true =>
          obtain ⟨dl, derivedL, slopeL⟩ := ih
          refine ⟨_, rawDerivative_pow m rfl derivedL, ?_⟩
          have power : (a ^ n).snd = n * a.fst ^ (n - 1) * a.snd := by
            simp [mul_assoc]
          rw [power]
          exact means_simplify_power_rule n hl.means slopeL

/-! ## Flows -/

/-- The rates of all names along a flow: each name that flows has the rate that its formula stands
for, and the others rest. -/
structure Along (env : String → Option α) (flows : List (String × Expr α)) (rate : String → K) :
    Prop where
  distinct : (flows.map Prod.fst).Nodup
  moving : ∀ flow ∈ flows, Means env flow.2 (.number (rate flow.1))
  resting : ∀ name ∉ flows.map Prod.fst, rate name = 0

section

variable {name : String} {speed : Expr α} {flows : List (String × Expr α)}

theorem Along.eq_zero (h : Along env [] rate) : rate = 0 := by
  funext name
  exact h.resting name List.not_mem_nil

theorem Along.tail (h : Along env ((name, speed) :: flows) rate) :
    Along env flows (Function.update rate name 0) where
  distinct := (List.nodup_cons.mp h.distinct).2
  moving flow mem := by
    have other : flow.1 ≠ name := by
      rintro rfl
      exact (List.nodup_cons.mp h.distinct).1 (List.mem_map.mpr ⟨flow, mem, rfl⟩)
    rw [Function.update_of_ne other]
    exact h.moving flow (.tail _ mem)
  resting other absent := by
    by_cases same : other = name
    · rw [same, Function.update_self]
    · rw [Function.update_of_ne same]
      refine h.resting other fun mem => ?_
      obtain rfl | mem := List.mem_cons.mp mem
      · exact same rfl
      · exact absent mem

omit [LinearOrder K] in
/-- A linear function of the rates, split into the part of one name and that of the others. -/
theorem gradient_eq_add (gradient : (String → K) →ₗ[K] K) (rate : String → K) (name : String) :
    gradient rate =
      gradient (Pi.single name 1) * rate name + gradient (Function.update rate name 0) := by
  have parts : rate = rate name • Pi.single name 1 + Function.update rate name 0 := by
    funext other
    by_cases same : other = name
    · subst same
      simp
    · simp [same]
  conv_lhs => rw [parts, map_add, map_smul, smul_eq_mul, mul_comm]

/-- The derivative along one name stands for the coefficient at rate one. -/
theorem exists_derivative_of_gradient [NaturalPowers K α] {gradient : (String → K) →ₗ[K] K}
    (means : ∀ rate, DualMeans env rate e (inl y + inr (gradient rate))) (name : String) :
    ∃ d, e.derivative name = .ok d ∧ Means env d (.number (gradient (Pi.single name 1))) := by
  obtain ⟨d, derived, slope⟩ := (means (Pi.single name 1)).exists_derivative
  refine ⟨d.simplify, ?_, ?_⟩
  · rw [derivative, derived]
    rfl
  · rwa [snd_add, snd_inl, snd_inr, zero_add] at slope

/-- The terms of the derivative along a flow. The induction is on the flow: for the names that are
left, those done so far rest. -/
theorem exists_lieTerms [NaturalPowers K α] {gradient : (String → K) →ₗ[K] K}
    (means : ∀ rate, DualMeans env rate e (inl y + inr (gradient rate)))
    (along : Along env flows rate) :
    ∃ terms xs, e.lieTerms flows = .ok terms ∧
      List.Forall₂ (fun term x => Means env term (.number x)) terms xs ∧
      gradient rate = xs.sum := by
  induction flows generalizing rate with
  | nil =>
      rw [along.eq_zero]
      exact ⟨[], [], rfl, .nil, map_zero gradient⟩
  | cons flow flows ih =>
      obtain ⟨name, speed⟩ := flow
      obtain ⟨terms, xs, success, each, total⟩ := ih along.tail
      rw [lieTerms, gradient_eq_add gradient rate name, total]
      cases occurs : e.mentions name with
      | true =>
          obtain ⟨d, derived, slope⟩ := exists_derivative_of_gradient means name
          have term : Means env (mul d speed) (.number (gradient (Pi.single name 1) * rate name)) :=
            means_mul.mpr ⟨_, _, slope, along.moving (name, speed) (.head _), rfl⟩
          refine ⟨mul d speed :: terms, _ :: xs, ?_, .cons term each, List.sum_cons.symm⟩
          rw [if_pos rfl, derived, success]
          rfl
      | false =>
          have unmoved : gradient (Pi.single name 1) = 0 := by
            have still := (means (Pi.single name 1)).snd_eq_zero fun other mem => by
              refine Pi.single_eq_of_ne ?_ 1
              rintro rfl
              rw [(mentions_iff other e).mpr mem] at occurs
              cases occurs
            rwa [snd_add, snd_inl, snd_inr, zero_add] at still
          refine ⟨terms, xs, ?_, each, ?_⟩
          · rw [if_neg Bool.false_ne_true, success]
          · rw [unmoved, zero_mul, zero_add]

theorem means_foldl_add {terms : List (Expr α)} {xs : List K}
    (means : List.Forall₂ (fun term x => Means env term (.number x)) terms xs)
    (start : Means env e (.number y)) :
    Means env (terms.foldl add e) (.number (y + xs.sum)) := by
  induction means generalizing e y with
  | nil =>
      rw [List.sum_nil, add_zero]
      exact start
  | cons first _ ih =>
      rw [List.sum_cons, ← add_assoc]
      exact ih (means_add.mpr ⟨_, _, start, first, rfl⟩)

theorem means_sum {terms : List (Expr α)} {xs : List K}
    (means : List.Forall₂ (fun term x => Means env term (.number x)) terms xs) :
    Means env (sum terms) (.number xs.sum) := by
  cases means with
  | nil => exact means_zero
  | cons first others =>
      rw [List.sum_cons]
      exact means_foldl_add others first

end

/-- A rational formula that is defined throughout stands for a number. -/
theorem IsRational.exists_means (h : e.IsRational) (defined : DefinedThroughout env e) :
    ∃ y, Means env e (.number y) := by
  obtain ⟨c, value, _⟩ | ⟨b, truth⟩ := defined e (.whole e)
  · obtain ⟨y, _, means⟩ := means_of_eval e defined value
    exact ⟨y, means⟩
  · cases h <;> cases truth

/-- Where a rational formula is defined throughout, its derivative along a flow, and along one name,
is found, and has the value of the coefficient of `ε` of the formula over the dual numbers: with
every name moving at the rate of its flow, and with that name alone moving at rate one. -/
theorem IsRational.derivatives_eq_dual [CharZero K] [NaturalPowers K α] {f : Expr α}
    (rational : f.IsRational) (defined : DefinedThroughout env f) :
    (∀ flows (rate : String → K), Along env flows rate →
      ∃ d, f.lieDerivative flows = .ok d ∧ (∃! z, DualMeans env rate f z) ∧
        ∀ z, DualMeans env rate f z → d.eval env = .ok (number z.snd)) ∧
    ∀ name, ∃ d, f.derivative name = .ok d ∧ (∃! z, DualMeans env (Pi.single name 1) f z) ∧
      ∀ z, DualMeans env (Pi.single name (1 : K)) f z → d.eval env = .ok (number z.snd) := by
  obtain ⟨y, value⟩ := rational.exists_means defined
  obtain ⟨gradient, means⟩ := rational.exists_gradient value
  have only {rate : String → K} {z : K[ε]} (h : DualMeans env rate f z) :
      z.snd = gradient rate := by
    rw [h.unique (means rate), snd_add, snd_inl, snd_inr, zero_add]
  constructor
  · intro flows rate along
    obtain ⟨terms, xs, success, each, total⟩ := exists_lieTerms means along
    have slope := means_simplify _ (means_sum each)
    refine ⟨(sum terms).simplify, ?_, ⟨_, means rate, fun z h => h.unique (means rate)⟩, ?_⟩
    · rw [lieDerivative, success]
      rfl
    · intro z h
      rw [only h, total]
      exact eval_of_means _ slope
  · intro name
    obtain ⟨d, success, slope⟩ := exists_derivative_of_gradient means name
    refine ⟨d, success, ⟨_, means _, fun z h => h.unique (means _)⟩, ?_⟩
    intro z h
    rw [only h]
    exact eval_of_means _ slope

open Extended in
/-- Where `x` moves at the rate `v` and `v` at the rate `-x`, the formula `x ^ 2 / v` moves at the
rate `2 * x + x ^ 3 / v ^ 2`. -/
theorem quotient_derivative_eq_dual :
    let env : String → Option (Extended ℚ) := fun name =>
      if name = "x" then some (finite 3) else some (finite 2)
    let rate : String → ℚ := Function.update (Function.update 0 "x" 2) "v" (-3)
    let f : Expr (Extended ℚ) := div (pow (.var "x") (.num (finite 2))) (.var "v")
    let flows : List (String × Expr (Extended ℚ)) := [("x", .var "v"), ("v", neg (.var "x"))]
    f.IsRational ∧ DefinedThroughout env f ∧ Along env flows rate ∧
      ∃ d, f.lieDerivative flows = .ok d ∧ d.eval env = .ok (finite (51 / 4)) := by
  intro env rate f flows
  have rational : f.IsRational := .div (.pow 2 (.var "x")) (.var "v")
  have x : DualMeans env rate (.var "x") (inl 3 + inr (rate "x")) := .var rfl
  have v : DualMeans env rate (.var "v") (inl 2 + inr (rate "v")) := .var rfl
  have value := (x.pow 2).div v (by simp)
  have defined : DefinedThroughout env f := definedThroughout_of_means value.means
  have along : Along env flows rate := {
    distinct := by decide
    moving := by
      intro flow mem
      obtain rfl | rfl : flow = _ ∨ flow = _ := by simpa [flows] using mem
      · exact .var rfl
      · exact means_neg.mpr ⟨3, .var rfl, rfl⟩
    resting := by
      intro name absent
      obtain ⟨notX, notV⟩ : name ≠ "x" ∧ name ≠ "v" := by simpa [flows] using absent
      simp [rate, notX, notV] }
  obtain ⟨d, success, _, eval⟩ := (rational.derivatives_eq_dual defined).1 flows rate along
  refine ⟨rational, defined, along, d, success, (eval _ value).trans ?_⟩
  congr
  simp [rate]
  norm_num

end Expr

end HybridAutomata
