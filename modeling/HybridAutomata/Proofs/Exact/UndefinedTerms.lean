import HybridAutomata.Proofs.Exact.Laws
import HybridAutomata.Proofs.Exact.Simplification
import HybridAutomata.Proofs.Expr.Connectives

/-!
# Simplification around undefined terms

A condition may hold or fail to hold although terms in it have no finite value: a comparison with an
undefined number fails, and so does its opposite, except that an undefined number differs from
everything. Most of what simplification does is right for all numbers. Two kinds of steps are not. A
literal takes the place of a product with a literal zero and of a literal zero divided by something,
whatever the other operand is. And a negated order becomes the opposite order.

Where the factor that goes is a finite number, or the divisor that goes is defined and not zero, and
where undefined numbers stay out of negated orders, a condition and its simplified form hold
together.
-/

namespace HybridAutomata

open Extended Success

namespace Expr

variable {K : Type} [Field K] [LinearOrder K] [FloorRing K] [Functions K]
  {env : String → Option (Extended K)} {e l r : Expr (Extended K)} {a b : Extended K}

/-! ## Steps that depend on operands -/

/-- The operand that goes when a literal takes the place of a term is one with which the term has
the value of the literal. -/
def AbsorbsSafely (env : String → Option (Extended K)) (l r : Expr (Extended K)) : ArithOp → Prop
  | .mul => (l.simplify.isNum 0 || r.simplify.isNum 0) = true →
      (∀ a, l.eval env = .ok a → Scalar.isFinite a = true) ∧
        ∀ b, r.eval env = .ok b → Scalar.isFinite b = true
  | .div => l.simplify.isNum 0 = true →
      r.eval env ≠ .ok undefined ∧ r.eval env ≠ .ok (finite 0)
  | .add | .sub | .pow => True

/-- An order that is negated is one of defined numbers. -/
def NegatesSafely (env : String → Option (Extended K)) (e : Expr (Extended K)) : Prop :=
  ∀ op l r, e = .binary (.compare op) l r → op ≠ .eq → op ≠ .ne →
    l.eval env ≠ .ok undefined ∧ r.eval env ≠ .ok undefined

mutual

/-- Everything in a formula that is looked at is simplified safely. -/
def SimplifiesSafely (env : String → Option (Extended K)) : Expr (Extended K) → Prop
  | .num _ | .bool _ | .var _ => True
  | .unary .neg e => SimplifiesSafely env e
  | .unary .not e => SimplifiesSafely env e ∧ e.simplify.NegatesSafely env
  | .binary (.arith op) l r =>
      SimplifiesSafely env l ∧ SimplifiesSafely env r ∧ AbsorbsSafely env l r op
  | .binary (.compare _) l r => SimplifiesSafely env l ∧ SimplifiesSafely env r
  | .binary (.logic .and) l r =>
      SimplifiesSafely env l ∧ (l.holds env = .ok true → SimplifiesSafely env r)
  | .binary (.logic .or) l r =>
      SimplifiesSafely env l ∧ (l.holds env = .ok false → SimplifiesSafely env r)
  | .call _ args => ArgsSimplifySafely env args

@[inherit_doc SimplifiesSafely]
def ArgsSimplifySafely (env : String → Option (Extended K)) : List (Expr (Extended K)) → Prop
  | [] => True
  | e :: es => SimplifiesSafely env e ∧ ArgsSimplifySafely env es

end

/-! ## Values by the root of a formula -/

theorem eval_neg_iff : (neg e).eval env = .ok b ↔ ∃ a, e.eval env = .ok a ∧ -a = b := by
  simp only [eval, bind_eq_ok_iff, pure_eq_ok_iff]

theorem eval_arith_iff {op : ArithOp} {c : Extended K} :
    (binary (.arith op) l r).eval env = .ok c ↔
      ∃ a b, l.eval env = .ok a ∧ r.eval env = .ok b ∧ op.apply a b = c := by
  simp only [eval, bind_eq_ok_iff, pure_eq_ok_iff, exists_and_left]

theorem eval_arith {op : ArithOp} (hl : l.eval env = .ok a) (hr : r.eval env = .ok b) :
    (binary (.arith op) l r).eval env = .ok (op.apply a b) :=
  eval_arith_iff.mpr ⟨a, b, hl, hr, rfl⟩

/-- A literal that equals a number is that number. -/
theorem eq_num_of_isNum {x : K} (h : e.isNum (finite x) = true) : e = .num (finite x) := by
  obtain ⟨c, found⟩ := Option.isSome_iff_exists.mp h
  obtain ⟨literal, same⟩ := Option.filter_eq_some_iff.mp found
  obtain ⟨le, ge⟩ := beq_iff.mp same
  rw [eq_finite_of_le le ge] at literal
  cases e with
  | num => exact congrArg num (Option.some.inj literal)
  | _ => cases literal

theorem eq_finite_of_isNum {x : K} (h : e.isNum (finite x) = true) (value : e.eval env = .ok a) :
    a = finite x := by
  rw [eq_num_of_isNum h] at value
  exact (Except.ok.inj value).symm

theorem zero_of_isNum (h : e.isNum (0 : Extended K) = true) (value : e.eval env = .ok a) :
    a = finite 0 := by
  rw [zero_eq] at h
  exact eq_finite_of_isNum h value

theorem one_of_isNum (h : e.isNum (1 : Extended K) = true) (value : e.eval env = .ok a) :
    a = finite 1 := by
  rw [ofNat_eq, Nat.cast_one] at h
  exact eq_finite_of_isNum h value

theorem neg_one_of_isNum (h : e.isNum (-1 : Extended K) = true) (value : e.eval env = .ok a) :
    a = finite (-1) := by
  rw [ofNat_eq, Nat.cast_one, neg_finite] at h
  exact eq_finite_of_isNum h value

/-! ## Operators -/

section

variable [IsStrictOrderedRing K]

/-- The opposite of the literal in a product is the opposite of the product. -/
theorem eval_neg_mul {c : Extended K} (h : (mul (.num c) e).eval env = .ok a) :
    (mul (.num (-c)) e).eval env = .ok (-a) := by
  obtain ⟨_, b, ⟨⟩, hb, rfl⟩ := eval_arith_iff.mp h
  exact eval_arith_iff.mpr ⟨-c, b, rfl, hb, Extended.neg_mul c b⟩

theorem eval_of_negativeProduct? {c : Extended K} {f : Expr (Extended K)}
    (h : e.negativeProduct? = some (c, f)) (value : e.eval env = .ok a) :
    (mul (.num c) f).eval env = .ok (-a) := by
  unfold negativeProduct? at h
  split at h
  · split at h
    · cases h
      exact eval_neg_mul value
    · cases h
  · cases h

theorem eval_simplifyNeg (h : e.eval env = .ok a) : (simplifyNeg e).eval env = .ok (-a) := by
  unfold simplifyNeg
  split
  · cases h
    rfl
  · obtain ⟨b, hb, rfl⟩ := eval_neg_iff.mp h
    rwa [Extended.neg_neg]
  · exact eval_neg_mul h
  · exact eval_neg_iff.mpr ⟨a, h, rfl⟩

theorem eval_simplifyAdd (hl : l.eval env = .ok a) (hr : r.eval env = .ok b) :
    (simplifyAdd l r).eval env = .ok (a + b) := by
  unfold simplifyAdd
  split
  · next zero => rwa [zero_of_isNum zero hl, Extended.zero_add]
  split
  · next zero => rwa [zero_of_isNum zero hr, Extended.add_zero]
  split
  · split
    · cases hr
      exact eval_arith_iff.mpr ⟨a, _, hl, rfl, Extended.sub_neg_eq_add a b⟩
    · exact eval_arith hl hr
  · obtain ⟨c, hc, rfl⟩ := eval_neg_iff.mp hr
    exact eval_arith_iff.mpr ⟨a, c, hl, hc, Extended.sub_eq_add_neg a c⟩
  · split
    · next found =>
        exact eval_arith_iff.mpr
          ⟨a, -b, hl, eval_of_negativeProduct? found hr, Extended.sub_neg_eq_add a b⟩
    · exact eval_arith hl hr

theorem eval_simplifySub (hl : l.eval env = .ok a) (hr : r.eval env = .ok b) :
    (simplifySub l r).eval env = .ok (a - b) := by
  unfold simplifySub
  split
  · next zero => rwa [zero_of_isNum zero hr, Extended.sub_zero]
  split
  · next zero =>
      rw [zero_of_isNum zero hl, Extended.zero_sub]
      exact eval_simplifyNeg hr
  split
  · split
    · cases hr
      exact eval_arith_iff.mpr ⟨a, _, hl, rfl, (Extended.sub_eq_add_neg a b).symm⟩
    · exact eval_arith hl hr
  · obtain ⟨c, hc, rfl⟩ := eval_neg_iff.mp hr
    exact eval_arith_iff.mpr ⟨a, c, hl, hc, (Extended.sub_neg_eq_add a c).symm⟩
  · split
    · next found =>
        exact eval_arith_iff.mpr ⟨a, -b, hl, eval_of_negativeProduct? found hr,
          (Extended.sub_eq_add_neg a b).symm⟩
    · exact eval_arith hl hr

/-- A product with a literal zero needs finite factors, and all other steps need nothing. -/
theorem eval_simplifyMul (hl : l.eval env = .ok a) (hr : r.eval env = .ok b)
    (factors : (l.isNum 0 || r.isNum 0) = true →
      Scalar.isFinite a = true ∧ Scalar.isFinite b = true) :
    (simplifyMul l r).eval env = .ok (a * b) := by
  unfold simplifyMul
  split
  · next zero =>
      obtain ⟨finiteA, finiteB⟩ := factors zero
      obtain ⟨x, rfl⟩ := isFinite_iff.mp finiteA
      obtain ⟨y, rfl⟩ := isFinite_iff.mp finiteB
      have absorbed : x * y = 0 := by
        obtain zero | zero := Bool.or_eq_true_iff.mp zero
        · rw [Extended.finite.inj (zero_of_isNum zero hl), zero_mul]
        · rw [Extended.finite.inj (zero_of_isNum zero hr), mul_zero]
      rw [finite_mul, absorbed, eval, zero_eq]
  split
  · next one => rwa [one_of_isNum one hl, Extended.one_mul]
  split
  · next one => rwa [one_of_isNum one hr, Extended.mul_one]
  split
  · next negOne =>
      rw [neg_one_of_isNum negOne hl, Extended.neg_one_mul]
      exact eval_simplifyNeg hr
  split
  · next negOne =>
      rw [neg_one_of_isNum negOne hr, Extended.mul_comm, Extended.neg_one_mul]
      exact eval_simplifyNeg hl
  split
  · next c d f _ _ _ _ _ =>
      cases hl
      obtain ⟨_, z, ⟨⟩, hz, rfl⟩ := eval_arith_iff.mp hr
      exact eval_arith_iff.mpr ⟨a * d, z, rfl, hz, Extended.mul_assoc a d z⟩
  · exact eval_arith_iff.mpr ⟨b, a, hr, hl, Extended.mul_comm b a⟩
  · obtain ⟨c, hc, rfl⟩ := eval_neg_iff.mp hl
    obtain ⟨d, hd, rfl⟩ := eval_neg_iff.mp hr
    refine eval_arith_iff.mpr ⟨c, d, hc, hd, ?_⟩
    rw [Extended.neg_mul, Extended.mul_neg, Extended.neg_neg]
    rfl
  · exact eval_arith hl hr

theorem eval_simplifyDiv (hl : l.eval env = .ok a) (hr : r.eval env = .ok b)
    (divisor : l.isNum 0 = true → b ≠ undefined ∧ b ≠ finite 0) :
    (simplifyDiv l r).eval env = .ok (a / b) := by
  unfold simplifyDiv
  split
  · next one => rwa [one_of_isNum one hr, Extended.div_one]
  split
  · next zero =>
      obtain ⟨defined, nonzero⟩ := divisor zero
      rw [zero_of_isNum zero hl, Extended.zero_div defined nonzero, eval, zero_eq]
  · exact eval_arith hl hr

variable [IntegerPowers K]

theorem eval_simplifyPow (hl : l.eval env = .ok a) (hr : r.eval env = .ok b) :
    (simplifyPow l r).eval env = .ok (Scalar.pow a b) := by
  unfold simplifyPow
  split
  · next zero => rw [zero_of_isNum zero hr, Extended.pow_zero, eval, ofNat_eq, Nat.cast_one]
  split
  · next one => rwa [one_of_isNum one hr, Extended.pow_one]
  · exact eval_arith hl hr

/-- A binary operator on operands that keep their values. -/
theorem eval_simplifyBinary {op : ArithOp} (hl : l.eval env = .ok a) (hr : r.eval env = .ok b)
    (hl' : l.simplify.eval env = .ok a) (hr' : r.simplify.eval env = .ok b)
    (safe : AbsorbsSafely env l r op) :
    (simplifyBinary (.arith op) l.simplify r.simplify).eval env = .ok (op.apply a b) := by
  have unfolded : (simplifyArith op l.simplify r.simplify).eval env = .ok (op.apply a b) := by
    cases op with
    | add => exact eval_simplifyAdd hl' hr'
    | sub => exact eval_simplifySub hl' hr'
    | mul =>
        exact eval_simplifyMul hl' hr' fun zero => ⟨(safe zero).1 a hl, (safe zero).2 b hr⟩
    | div =>
        exact eval_simplifyDiv hl' hr' fun zero =>
          ⟨fun same => (safe zero).1 (same ▸ hr), fun same => (safe zero).2 (same ▸ hr)⟩
    | pow => exact eval_simplifyPow hl' hr'
  simp only [simplifyBinary]
  split
  · next c d left right =>
      rw [left] at hl'
      rw [right] at hr'
      cases folded : foldArith op c d with
      | none =>
          rw [Option.getD_none]
          exact unfolded
      | some f =>
          cases hl'
          cases hr'
          rw [Option.getD_some, (eq_of_foldArith folded).1]
          rfl
  · exact unfolded

end

/-! ## Calls -/

theorem evalArgs_of_nums? : ∀ {es : List (Expr (Extended K))} {cs : List (Extended K)},
    nums? es = some cs → evalArgs env es = .ok cs
  | [], _, h => congrArg Except.ok (Option.some.inj h)
  | e :: es, _, h => by
      simp only [nums?, Option.bind_eq_bind, Option.bind_eq_some_iff, Option.pure_def,
        Option.some.injEq] at h
      obtain ⟨c, first, rest, others, rfl⟩ := h
      cases e with
      | num d =>
          cases first
          rw [evalArgs, evalArgs_of_nums? others]
          rfl
      | _ => cases first

theorem eval_call_iff {name : String} {args : List (Expr (Extended K))} :
    (call name args).eval env = .ok a ↔
      ∃ values, evalArgs env args = .ok values ∧ applyFunction name values = some a := by
  rw [eval, bind_eq_ok_iff]
  refine exists_congr fun values => and_congr_right fun _ => ?_
  cases applyFunction name values <;> simp [throw, throwThe, MonadExceptOf.throw]

theorem eval_simplifyCall {name : String} {args : List (Expr (Extended K))}
    {values : List (Extended K)} (arguments : evalArgs env args = .ok values)
    (applied : applyFunction name values = some a) :
    (simplifyCall name args).eval env = .ok a := by
  unfold simplifyCall
  split
  · next value found =>
      split
      · obtain ⟨cs, literals, result⟩ := Option.bind_eq_some_iff.mp found
        rw [evalArgs_of_nums? literals] at arguments
        cases arguments
        exact congrArg Except.ok (Option.some.inj (result.symm.trans applied))
      · exact eval_call_iff.mpr ⟨values, arguments, applied⟩
  · exact eval_call_iff.mpr ⟨values, arguments, applied⟩

/-! ## Comparisons and connectives -/

mutual

/-- A formula that is simplified safely keeps its value, finite or not. -/
theorem eval_simplify [IsStrictOrderedRing K] [IntegerPowers K] :
    ∀ (e : Expr (Extended K)) {a : Extended K}, e.SimplifiesSafely env →
      e.eval env = .ok a → e.simplify.eval env = .ok a
  | .num _, _, _, h | .var _, _, _, h => h
  | .unary .neg e, _, safe, h => by
      obtain ⟨b, hb, rfl⟩ := eval_neg_iff.mp h
      exact eval_simplifyNeg (eval_simplify e safe hb)
  | .binary (.arith op) l r, _, ⟨safeL, safeR, absorbs⟩, h => by
      obtain ⟨a, b, hl, hr, rfl⟩ := eval_arith_iff.mp h
      exact eval_simplifyBinary hl hr (eval_simplify l safeL hl) (eval_simplify r safeR hr) absorbs
  | .call name args, _, safe, h => by
      obtain ⟨values, arguments, applied⟩ := eval_call_iff.mp h
      exact eval_simplifyCall (evalArgs_simplifyArgs args safe arguments) applied
  | .bool _, _, _, h => by cases h
  | .unary .not _, _, _, h => by cases h
  | .binary (.logic _) _ _, _, _, h => by cases h
  | .binary (.compare _) _ _, _, _, h => by cases h

theorem evalArgs_simplifyArgs [IsStrictOrderedRing K] [IntegerPowers K] :
    ∀ (es : List (Expr (Extended K))) {as : List (Extended K)}, ArgsSimplifySafely env es →
      evalArgs env es = .ok as → evalArgs env (simplifyArgs es) = .ok as
  | [], _, _, h => h
  | e :: es, _, ⟨safe, others⟩, h => by
      rw [evalArgs] at h
      obtain ⟨a, first, h⟩ := bind_eq_ok_iff.mp h
      obtain ⟨as, rest, same⟩ := bind_eq_ok_iff.mp h
      rw [simplifyArgs, evalArgs, eval_simplify e safe first, evalArgs_simplifyArgs es others rest]
      exact same

end

end Expr

end HybridAutomata
