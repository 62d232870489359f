import HybridAutomata.Expr.Eval
import HybridAutomata.Proofs.Exact.Fields

/-!
# Laws beyond the finite numbers

Some laws of a field also hold for infinities and undefined numbers, because an undefined number
goes through both sides, and because a product with an infinity depends on signs alone. They are
what a rewriting may use where it does not know that its operands are finite. Products and
quotients of zero do not belong to them: the other operand has to be finite or at least defined.
-/

namespace HybridAutomata

namespace Extended

variable {K : Type} [Field K] [LinearOrder K] [FloorRing K] [Functions K]

/-! ## Sums -/

protected theorem zero_add (a : Extended K) : finite 0 + a = a := by
  cases a with
  | finite x => rw [finite_add, zero_add]
  | _ => rfl

protected theorem add_zero (a : Extended K) : a + finite 0 = a := by
  cases a with
  | finite x => rw [finite_add, add_zero]
  | _ => rfl

protected theorem sub_eq_add_neg (a b : Extended K) : a - b = a + -b := rfl

protected theorem sub_neg_eq_add (a b : Extended K) : a - -b = a + b := by
  rw [Extended.sub_eq_add_neg, Extended.neg_neg]

protected theorem sub_zero (a : Extended K) : a - finite 0 = a := by
  rw [Extended.sub_eq_add_neg, neg_finite, neg_zero, Extended.add_zero]

protected theorem zero_sub (a : Extended K) : finite 0 - a = -a := by
  rw [Extended.sub_eq_add_neg, Extended.zero_add]

/-- Infinities have a sum if they are the same one. -/
theorem add_eq_undefined_iff {a b : Extended K} : a + b = undefined ↔
    a = undefined ∨ b = undefined ∨ a = posInf ∧ b = negInf ∨ a = negInf ∧ b = posInf := by
  cases a <;> cases b <;> simp [HAdd.hAdd, Add.add, Extended.add]

protected theorem add_le_add [IsStrictOrderedRing K] {a b c d : Extended K} (h : a ≤ b)
    (h' : c ≤ d) (lower : a + c ≠ undefined) (upper : b + d ≠ undefined) : a + c ≤ b + d := by
  rw [Ne, add_eq_undefined_iff] at lower upper
  cases a <;> cases b <;> simp at h <;> cases c <;> cases d <;> simp at h' <;>
    simp_all [HAdd.hAdd, Add.add, Extended.add]
  exact add_le_add h h'

/-! ## Products -/

section

variable {a b : Extended K}

/-- Unless both factors are finite, a product is an infinity or undefined, by the signs. -/
theorem mul_eq_towards (h : ∀ x y, ¬(a = finite x ∧ b = finite y)) :
    a * b = towards (a.sign * b.sign) := by
  cases a <;> cases b <;> first
    | rfl
    | exact absurd ⟨rfl, rfl⟩ (h _ _)

protected theorem undefined_mul (a : Extended K) : undefined * a = undefined := by
  rw [mul_eq_towards (by simp)]
  exact congrArg towards (zero_mul a.sign)

protected theorem mul_undefined (a : Extended K) : a * undefined = undefined := by
  rw [Extended.mul_comm, Extended.undefined_mul]

omit [Field K] [LinearOrder K] [FloorRing K] [Functions K] in
theorem towards_ne_finite (s : SignType) (x : K) : (towards s : Extended K) ≠ finite x := by
  cases s <;> simp [towards]

theorem towards_neg (s : SignType) : (towards (-s) : Extended K) = -towards s := by
  cases s <;> rfl

/-- Only finite factors have a finite product. -/
theorem exists_finite_of_mul {x : K} (h : a * b = finite x) :
    ∃ y z, a = finite y ∧ b = finite z := by
  by_contra none
  push Not at none
  rw [mul_eq_towards fun y z both => none y z both.1 both.2] at h
  exact towards_ne_finite _ x h

variable [IsStrictOrderedRing K]

protected theorem sign_mul (a b : Extended K) : (a * b).sign = a.sign * b.sign := by
  cases a <;> cases b <;> first
    | exact sign_mul _ _
    | rw [mul_eq_towards (by simp), sign_towards]

protected theorem neg_mul (a b : Extended K) : -a * b = -(a * b) := by
  have signs : (towards ((-a).sign * b.sign) : Extended K) = -towards (a.sign * b.sign) := by
    rw [Extended.sign_neg, neg_mul, towards_neg]
  cases a <;> cases b <;> first
    | exact congrArg finite (neg_mul _ _)
    | exact signs

protected theorem mul_neg (a b : Extended K) : a * -b = -(a * b) := by
  rw [Extended.mul_comm, Extended.neg_mul, Extended.mul_comm b]

protected theorem mul_assoc (a b c : Extended K) : a * b * c = a * (b * c) := by
  by_cases finite : ∃ x y z, a = finite x ∧ b = finite y ∧ c = finite z
  · obtain ⟨x, y, z, rfl, rfl, rfl⟩ := finite
    exact congrArg Extended.finite (mul_assoc x y z)
  · have left : a * b * c = towards ((a * b).sign * c.sign) := by
      refine mul_eq_towards fun u z ⟨hu, hz⟩ => ?_
      obtain ⟨x, y, ha, hb⟩ := exists_finite_of_mul hu
      exact finite ⟨x, y, z, ha, hb, hz⟩
    have right : a * (b * c) = towards (a.sign * (b * c).sign) := by
      refine mul_eq_towards fun x u ⟨hx, hu⟩ => ?_
      obtain ⟨y, z, hb, hc⟩ := exists_finite_of_mul hu
      exact finite ⟨x, y, z, hx, hb, hc⟩
    rw [left, right, Extended.sign_mul, Extended.sign_mul, mul_assoc]

protected theorem one_mul (a : Extended K) : finite 1 * a = a := by
  have one : (finite (1 : K)).sign = 1 := sign_one
  cases a with
  | finite x => rw [finite_mul, one_mul]
  | _ =>
      rw [mul_eq_towards (by simp), one, one_mul]
      rfl

protected theorem mul_one (a : Extended K) : a * finite 1 = a := by
  rw [Extended.mul_comm, Extended.one_mul]

protected theorem neg_one_mul (a : Extended K) : finite (-1) * a = -a := by
  rw [← neg_finite, Extended.neg_mul, Extended.one_mul]

end

/-! ## Signs -/

section

variable {a b : Extended K}

omit [FloorRing K] [Functions K] in
theorem sign_ne_zero_of_ne (h : a ≠ undefined) (h' : a ≠ finite 0) : a.sign ≠ 0 := by
  cases a with
  | finite x => exact sign_ne_zero.mpr fun zero => h' (congrArg finite zero)
  | undefined => exact absurd rfl h
  | posInf => exact (show (1 : SignType) ≠ 0 by decide)
  | negInf => exact (show (-1 : SignType) ≠ 0 by decide)

theorem exists_finite_of_between {x y : K} (lower : finite x ≤ a) (upper : a ≤ finite y) :
    ∃ z, a = finite z := by
  cases a <;> simp_all

theorem zero_le_iff_sign : finite 0 ≤ a ↔ a ≠ undefined ∧ 0 ≤ a.sign := by
  cases a with
  | finite x => simp [Extended.sign, sign_nonneg_iff]
  | undefined => simp
  | posInf => simp [Extended.sign]
  | negInf => simp [Extended.sign]

theorem mul_ne_undefined (ha : a ≠ undefined) (hb : b ≠ undefined) (ha' : a ≠ finite 0)
    (hb' : b ≠ finite 0) : a * b ≠ undefined := by
  by_cases numbers : ∃ x y, a = finite x ∧ b = finite y
  · obtain ⟨x, y, rfl, rfl⟩ := numbers
    nofun
  · rw [mul_eq_towards fun x y both => numbers ⟨x, y, both⟩]
    have direction := mul_ne_zero (sign_ne_zero_of_ne ha ha') (sign_ne_zero_of_ne hb hb')
    cases sign : a.sign * b.sign with
    | zero => exact absurd sign direction
    | pos => nofun
    | neg => nofun

protected theorem mul_nonneg [IsStrictOrderedRing K] (ha : finite 0 ≤ a) (hb : finite 0 ≤ b)
    (defined : a * b ≠ undefined) : finite 0 ≤ a * b := by
  rw [zero_le_iff_sign] at ha hb ⊢
  rw [Extended.sign_mul]
  refine ⟨defined, ?_⟩
  have first := ha.2
  have second := hb.2
  revert first second
  generalize a.sign = s
  generalize b.sign = t
  decide +revert

/-- Products of numbers that are not below zero keep the order. -/
protected theorem mul_le_mul [IsStrictOrderedRing K] {c d : Extended K} (h : a ≤ c) (h' : b ≤ d)
    (ha : finite 0 ≤ a) (hb : finite 0 ≤ b) (lower : a * b ≠ undefined)
    (upper : c * d ≠ undefined) : a * b ≤ c * d := by
  have hc := Extended.le_trans ha h
  have hd := Extended.le_trans hb h'
  by_cases numbers : ∃ x y, c = finite x ∧ d = finite y
  · obtain ⟨z, w, rfl, rfl⟩ := numbers
    obtain ⟨x, rfl⟩ := exists_finite_of_between ha h
    obtain ⟨y, rfl⟩ := exists_finite_of_between hb h'
    exact finite_le_finite.mpr (mul_le_mul (finite_le_finite.mp h) (finite_le_finite.mp h')
      (finite_le_finite.mp hb) (finite_le_finite.mp hc))
  · have direction := (zero_le_iff_sign.mp (Extended.mul_nonneg hc hd upper)).2
    rw [Extended.sign_mul] at direction
    rw [mul_eq_towards (a := c) fun x y both => numbers ⟨x, y, both⟩] at upper ⊢
    cases sign : c.sign * d.sign with
    | zero =>
        rw [sign] at upper
        exact absurd rfl upper
    | pos => exact le_posInf_iff.mpr lower
    | neg =>
        rw [sign] at direction
        exact absurd direction (by decide)

end

/-! ## Quotients and powers -/

protected theorem div_one [IsStrictOrderedRing K] (a : Extended K) : a / finite 1 = a := by
  have sign : (if (1 : K) = 0 then (1 : SignType) else SignType.sign (1 : K)) = 1 := by simp
  cases a with
  | finite x => rw [finite_div one_ne_zero, div_one]
  | undefined => exact congrArg (fun s => towards ((undefined : Extended K).sign * s)) sign
  | posInf => exact congrArg (fun s => towards ((posInf : Extended K).sign * s)) sign
  | negInf => exact congrArg (fun s => towards ((negInf : Extended K).sign * s)) sign

protected theorem zero_div {b : Extended K} (defined : b ≠ undefined) (nonzero : b ≠ finite 0) :
    finite 0 / b = finite 0 := by
  cases b with
  | finite y => rw [finite_div fun zero => nonzero (congrArg finite zero), zero_div]
  | undefined => exact absurd rfl defined
  | posInf => rfl
  | negInf => rfl

variable [IntegerPowers K]

protected theorem pow_zero (a : Extended K) : Scalar.pow a (finite 0) = finite 1 := by
  cases a with
  | finite x =>
      have power := IntegerPowers.pow_intCast x 0
      rw [Int.cast_zero, if_neg (by simp), zpow_zero] at power
      exact congrArg ofOption power
  | _ => exact if_pos rfl

protected theorem pow_one [IsStrictOrderedRing K] (a : Extended K) :
    Scalar.pow a (finite 1) = a := by
  cases a with
  | finite x =>
      have power := IntegerPowers.pow_intCast x 1
      rw [Int.cast_one, if_neg (by simp), zpow_one] at power
      exact congrArg ofOption power
  | undefined => exact if_neg one_ne_zero
  | posInf => simp [Scalar.pow, Extended.pow]
  | negInf => simp [Scalar.pow, Extended.pow, not_lt.mpr (zero_le_one (α := K))]

end Extended

/-! ## Comparisons -/

namespace Comparison

open Extended

variable {K : Type} [Field K] [LinearOrder K] [FloorRing K] [Functions K] {a b : Extended K}

end Comparison

end HybridAutomata
