import HybridAutomata.Proofs.Exact.Meaning
import HybridAutomata.Proofs.Expr.SimplifiedNames

/-!
# Simplification keeps meanings

Where a formula is defined throughout, the simplified formula stands for the same number or truth
value. There is one lemma for every operator; each takes operands whose meanings are known and goes
through the arms of the rewriting of that operator. No arm brings in a name.
-/

namespace HybridAutomata

open ExactScalar

namespace Expr

variable {K α : Type} [Field K] [LinearOrder K] [Scalar α] [ExactScalar K α]

section

variable {env : String → Option α} {e l r : Expr α} {b : Bool} {m : Meaning K} {x y z : K}

/-! ## Literals -/

/-- A literal that stands for a number and equals a number is that number. -/
theorem eq_of_isNum (literal : e.isNum (number y : α) = true) (h : Means env e (.number x)) :
    x = y := by
  cases h with
  | num =>
      simp only [isNum, numWhere, num?, number_beq, Option.filter_some] at literal
      by_contra other
      simp [other] at literal
  | _ => simp [isNum, numWhere, num?] at literal

theorem eq_zero_of_isNum (literal : e.isNum (0 : α) = true) (h : Means env e (.number x)) :
    x = 0 := by
  rw [← number_zero] at literal
  exact eq_of_isNum literal h

theorem eq_one_of_isNum (literal : e.isNum (1 : α) = true) (h : Means env e (.number x)) :
    x = 1 := by
  rw [← number_one] at literal
  exact eq_of_isNum literal h

theorem eq_neg_one_of_isNum (literal : e.isNum (-1 : α) = true)
    (h : Means env e (.number x)) : x = -1 := by
  rw [← number_neg_one] at literal
  exact eq_of_isNum literal h

theorem means_zero : Means env (.num 0) (.number (0 : K)) := means_num.mpr number_zero.symm

theorem means_one : Means env (.num 1) (.number (1 : K)) := means_num.mpr number_one.symm

/-- The opposite of a literal. -/
theorem Means.neg_num {c : α} (h : Means env (.num c) (.number x)) :
    Means env (.num (-c)) (.number (-x)) :=
  means_num.mpr (by rw [means_num.mp h, number_neg])

/-- The opposite of the literal in a product is the opposite of the product. -/
theorem Means.neg_mul {c : α} (h : Means env (mul (.num c) e) (.number x)) :
    Means env (mul (.num (-c)) e) (.number (-x)) := by
  obtain ⟨a, b, ha, hb, rfl⟩ := means_mul.mp h
  exact means_mul.mpr ⟨-a, b, ha.neg_num, hb, (neg_mul a b).symm⟩

/-- What is read off a negative product is the product with the opposite sign. -/
theorem means_of_negativeProduct? {c : α} {f : Expr α} (h : e.negativeProduct? = some (c, f))
    (he : Means env e (.number x)) : Means env (mul (.num c) f) (.number (-x)) := by
  unfold negativeProduct? at h
  split at h
  · split at h
    · cases h
      exact he.neg_mul
    · cases h
  · cases h

/-! ## Operators -/

theorem means_simplifyNeg (h : Means env e (.number x)) :
    Means env (simplifyNeg e) (.number (-x)) := by
  unfold simplifyNeg
  split
  · exact h.neg_num
  · obtain ⟨a, ha, rfl⟩ := means_neg.mp h
    rwa [neg_neg]
  · exact h.neg_mul
  · exact .neg h

theorem means_simplifyNot (h : Means env e (.truth b)) :
    Means env (simplifyNot e) (.truth !b) := by
  unfold simplifyNot
  split
  · cases h
    exact .bool _
  · cases h with
    | not operand => rwa [Bool.not_not]
  · obtain ⟨x, y, hx, hy, rfl⟩ := means_compare.mp h
    exact means_compare.mpr ⟨x, y, hx, hy, (Comparison.apply_negate _ x y).symm⟩
  · exact .not h

theorem means_simplifyAdd (hl : Means env l (.number x)) (hr : Means env r (.number y)) :
    Means env (simplifyAdd l r) (.number (x + y)) := by
  unfold simplifyAdd
  split
  · next zero => rwa [eq_zero_of_isNum zero hl, zero_add]
  split
  · next zero => rwa [eq_zero_of_isNum zero hr, add_zero]
  split
  · split
    · exact means_sub.mpr ⟨x, -y, hl, hr.neg_num, (sub_neg_eq_add x y).symm⟩
    · exact means_add.mpr ⟨x, y, hl, hr, rfl⟩
  · obtain ⟨c, hc, rfl⟩ := means_neg.mp hr
    exact means_sub.mpr ⟨x, c, hl, hc, (sub_eq_add_neg x c).symm⟩
  · split
    · next found =>
        exact means_sub.mpr ⟨x, -y, hl, means_of_negativeProduct? found hr,
          (sub_neg_eq_add x y).symm⟩
    · exact means_add.mpr ⟨x, y, hl, hr, rfl⟩

theorem means_simplifySub (hl : Means env l (.number x)) (hr : Means env r (.number y)) :
    Means env (simplifySub l r) (.number (x - y)) := by
  unfold simplifySub
  split
  · next zero => rwa [eq_zero_of_isNum zero hr, sub_zero]
  split
  · next zero =>
      rw [eq_zero_of_isNum zero hl, zero_sub]
      exact means_simplifyNeg hr
  split
  · split
    · exact means_add.mpr ⟨x, -y, hl, hr.neg_num, sub_eq_add_neg x y⟩
    · exact means_sub.mpr ⟨x, y, hl, hr, rfl⟩
  · obtain ⟨c, hc, rfl⟩ := means_neg.mp hr
    exact means_add.mpr ⟨x, c, hl, hc, sub_neg_eq_add x c⟩
  · split
    · next found =>
        exact means_add.mpr ⟨x, -y, hl, means_of_negativeProduct? found hr, sub_eq_add_neg x y⟩
    · exact means_sub.mpr ⟨x, y, hl, hr, rfl⟩

theorem means_simplifyMul (hl : Means env l (.number x)) (hr : Means env r (.number y)) :
    Means env (simplifyMul l r) (.number (x * y)) := by
  unfold simplifyMul
  split
  · next zero =>
      have absorbed : x * y = 0 := by
        obtain zero | zero := Bool.or_eq_true_iff.mp zero
        · rw [eq_zero_of_isNum zero hl, zero_mul]
        · rw [eq_zero_of_isNum zero hr, mul_zero]
      rw [absorbed]
      exact means_zero
  split
  · next one => rwa [eq_one_of_isNum one hl, one_mul]
  split
  · next one => rwa [eq_one_of_isNum one hr, mul_one]
  split
  · next negOne =>
      rw [eq_neg_one_of_isNum negOne hl, neg_one_mul]
      exact means_simplifyNeg hr
  split
  · next negOne =>
      rw [eq_neg_one_of_isNum negOne hr, mul_neg_one]
      exact means_simplifyNeg hl
  split
  · next c d f _ _ _ _ _ =>
      obtain ⟨a, z, ha, hz, rfl⟩ := means_mul.mp hr
      have product : Means env (.num (c * d)) (.number (x * a)) := by
        rw [means_num.mp hl, means_num.mp ha, ← number_mul]
        exact .num _
      exact means_mul.mpr ⟨x * a, z, product, hz, (mul_assoc x a z).symm⟩
  · exact means_mul.mpr ⟨y, x, hr, hl, mul_comm x y⟩
  · obtain ⟨c, hc, rfl⟩ := means_neg.mp hl
    obtain ⟨d, hd, rfl⟩ := means_neg.mp hr
    exact means_mul.mpr ⟨c, d, hc, hd, neg_mul_neg c d⟩
  · exact means_mul.mpr ⟨x, y, hl, hr, rfl⟩

theorem means_simplifyDiv (hl : Means env l (.number x)) (hr : Means env r (.number y))
    (nonzero : y ≠ 0) : Means env (simplifyDiv l r) (.number (x / y)) := by
  unfold simplifyDiv
  split
  · next one => rwa [eq_one_of_isNum one hr, div_one]
  split
  · next zero =>
      rw [eq_zero_of_isNum zero hl, zero_div]
      exact means_zero
  · exact means_div.mpr ⟨x, y, hl, hr, nonzero, rfl⟩

theorem means_simplifyPow (h : Means env (pow l r) (.number z)) :
    Means env (simplifyPow l r) (.number z) := by
  obtain ⟨x, y, hx, hy, result⟩ := means_arith.mp h
  rw [ArithOp.apply] at result
  unfold simplifyPow
  split
  · next zero =>
      rw [eq_zero_of_isNum zero hy, pow_number_zero, number_inj] at result
      rw [← result]
      exact means_one
  split
  · next one =>
      rw [eq_one_of_isNum one hy, pow_number_one, number_inj] at result
      rwa [← result]
  · exact h

theorem means_simplifyArith {op : ArithOp} (h : Means env (.binary (.arith op) l r) (.number z)) :
    Means env (simplifyArith op l r) (.number z) := by
  cases op with
  | add =>
      obtain ⟨x, y, hx, hy, rfl⟩ := means_add.mp h
      exact means_simplifyAdd hx hy
  | sub =>
      obtain ⟨x, y, hx, hy, rfl⟩ := means_sub.mp h
      exact means_simplifySub hx hy
  | mul =>
      obtain ⟨x, y, hx, hy, rfl⟩ := means_mul.mp h
      exact means_simplifyMul hx hy
  | div =>
      obtain ⟨x, y, hx, hy, nonzero, rfl⟩ := means_div.mp h
      exact means_simplifyDiv hx hy nonzero
  | pow => exact means_simplifyPow h

theorem means_foldArith {op : ArithOp} {c d : α}
    (h : Means env (.binary (.arith op) (.num c) (.num d)) (.number z))
    (folded : foldArith op c d = some e) : Means env e (.number z) := by
  obtain ⟨x, y, hx, hy, result⟩ := means_arith.mp h
  rw [(eq_of_foldArith folded).1, means_num.mp hx, means_num.mp hy, result]
  exact .num z

/-! ## Connectives -/

/-- Leaning a chain of one connective to the left keeps its meaning. -/
theorem Means.assoc {op : LogicOp} {l r₁ r₂ : Expr α}
    (h : Means env (.binary (.logic op) l (.binary (.logic op) r₁ r₂)) m) :
    Means env (.binary (.logic op) (.binary (.logic op) l r₁) r₂) m := by
  cases h with
  | logic left right =>
      cases right with
      | logic first second => exact .logic (.logic left first) second
      | decided first second => exact .decided (.logic left first) second
  | decided left right =>
      cases right with
      | logic first second => exact .decided (.decided left first) second
      | decided first second => exact .decided (.decided left first) second

/-- The left operand of a connective may be replaced by one with the same truth value. -/
theorem Means.replace_left {op : LogicOp} {l' : Expr α}
    (h : Means env (.binary (.logic op) l r) m)
    (same : ∀ b, Means (K := K) env l (.truth b) → Means (K := K) env l' (.truth b)) :
    Means env (.binary (.logic op) l' r) m := by
  cases h with
  | logic left right => exact .logic (same _ left) right
  | decided left right => exact .decided (same _ left) right

/-- A neutral left operand can be left out. -/
theorem Means.of_neutral_left {op : LogicOp}
    (h : Means env (.binary (.logic op) (.bool op.neutral) r) m) : Means env r m := by
  cases h with
  | logic _ right => exact right
  | decided left _ => cases op <;> cases left

/-- A neutral right operand can be left out. -/
theorem Means.of_neutral_right {op : LogicOp}
    (h : Means env (.binary (.logic op) l (.bool op.neutral)) m) : Means env l m := by
  cases h with
  | logic left right =>
      cases right
      exact left
  | decided left _ => exact left

/-- An operand that is not neutral decides. -/
theorem Means.eq_of_decided {op : LogicOp} (h : Means env (.binary (.logic op) l r) m)
    (decided : l = .bool !op.neutral ∨ r = .bool !op.neutral) : m = .truth !op.neutral := by
  cases h with
  | logic left right =>
      obtain rfl | rfl := decided
      · cases op <;> cases left
      · cases right
        rfl
  | decided => rfl

theorem means_and (h : Means env (.binary (.logic .and) l r) m) : Means env (l.and r) m := by
  fun_induction Expr.and l r generalizing m with
  | case1 r₁ r₂ => exact h.of_neutral_left
  | case2 l r₁ r₂ _ front whole => exact whole (h.assoc.replace_left fun _ => front)
  | case3 l => exact h.of_neutral_right
  | case4 => exact h.of_neutral_left
  | case5 => exact h

theorem means_or (h : Means env (.binary (.logic .or) l r) m) : Means env (l.or r) m := by
  fun_induction Expr.or l r generalizing m with
  | case1 r₁ r₂ => exact h.of_neutral_left
  | case2 l r₁ r₂ _ front whole => exact whole (h.assoc.replace_left fun _ => front)
  | case3 l => exact h.of_neutral_right
  | case4 => exact h.of_neutral_left
  | case5 => exact h

omit [Scalar α] in
theorem isFalse_iff : e.isFalse = true ↔ e = .bool false := by
  cases e with
  | bool b => cases b <;> simp [isFalse]
  | _ => simp [isFalse]

omit [Scalar α] in
theorem isTrue_iff : e.isTrue = true ↔ e = .bool true := by
  cases e with
  | bool b => cases b <;> simp [isTrue]
  | _ => simp [isTrue]

theorem means_simplifyAnd (h : Means env (.binary (.logic .and) l r) m) :
    Means env (simplifyAnd l r) m := by
  unfold simplifyAnd
  split
  · next found =>
      rw [Bool.or_eq_true, isFalse_iff, isFalse_iff] at found
      rw [h.eq_of_decided found]
      exact .bool false
  · exact means_and h

theorem means_simplifyOr (h : Means env (.binary (.logic .or) l r) m) :
    Means env (simplifyOr l r) m := by
  unfold simplifyOr
  split
  · next found =>
      rw [Bool.or_eq_true, isTrue_iff, isTrue_iff] at found
      rw [h.eq_of_decided found]
      exact .bool true
  · exact means_or h

theorem means_simplifyUnary {op : UnaryOp} (h : Means env (.unary op e) m) :
    Means env (simplifyUnary op e) m := by
  cases h with
  | neg operand => exact means_simplifyNeg operand
  | not operand => exact means_simplifyNot operand

theorem means_simplifyBinary {op : BinaryOp} (h : Means env (.binary op l r) m) :
    Means env (simplifyBinary op l r) m := by
  match op, m, h with
  | .arith op, .number z, h =>
      simp only [simplifyBinary]
      split
      · next c d _ =>
          cases folded : foldArith op c d with
          | none => exact means_simplifyArith h
          | some f => exact means_foldArith h folded
      · exact means_simplifyArith h
  | .compare op, .truth b, h =>
      simp only [simplifyBinary]
      split
      · obtain ⟨x, y, hx, hy, rfl⟩ := means_compare.mp h
        rw [means_num.mp hx, means_num.mp hy]
        exact .bool _
      · exact h
  | .logic .and, _, h => exact means_simplifyAnd h
  | .logic .or, _, h => exact means_simplifyOr h

end

/-! ## Calls -/

/-- Literals that stand for numbers are these numbers. -/
theorem AllMean.eq_of_nums? {env : String → Option α} :
    ∀ {es : List (Expr α)} {xs : List K} {cs : List α}, AllMean env es xs →
      nums? es = some cs → cs = xs.map number
  | [], _, _, .nil, h => by
      cases h
      rfl
  | e :: es, _, _, .cons first others, h => by
      simp only [nums?, Option.bind_eq_bind, Option.bind_eq_some_iff, Option.pure_def,
        Option.some.injEq] at h
      obtain ⟨c, hc, rest, hrest, rfl⟩ := h
      rw [List.map_cons, others.eq_of_nums? hrest]
      cases e with
      | num d =>
          cases hc
          rw [means_num.mp first]
      | _ => cases hc

theorem means_simplifyCall {env : String → Option α} {name : String} {args : List (Expr α)}
    {z : K} (h : Means env (.call name args) (.number z)) :
    Means env (simplifyCall name args) (.number z) := by
  unfold simplifyCall
  split
  · next value applied =>
      split
      · obtain ⟨cs, literals, applied⟩ := Option.bind_eq_some_iff.mp applied
        obtain ⟨xs, hxs, result⟩ := means_call.mp h
        rw [hxs.eq_of_nums? literals, result] at applied
        cases applied
        exact .num z
      · exact h
  · exact h

/-! ## Whole formulas -/

mutual

/-- A formula and its simplified form mean the same. -/
theorem means_simplify {env : String → Option α} :
    ∀ (e : Expr α) {m : Meaning K}, Means env e m → Means env e.simplify m
  | .num _, _, h => h
  | .bool _, _, h => h
  | .var _, _, h => h
  | .unary .neg e, _, .neg operand => means_simplifyUnary (.neg (means_simplify e operand))
  | .unary .not e, _, .not operand => means_simplifyUnary (.not (means_simplify e operand))
  | .binary (.arith _) l r, _, .arith left right result =>
      means_simplifyBinary (.arith (means_simplify l left) (means_simplify r right) result)
  | .binary (.compare _) l r, _, .compare left right =>
      means_simplifyBinary (.compare (means_simplify l left) (means_simplify r right))
  | .binary (.logic _) l r, _, .logic left right =>
      means_simplifyBinary (.logic (means_simplify l left) (means_simplify r right))
  | .binary (.logic _) l r, _, .decided left right =>
      means_simplifyBinary (.decided (means_simplify l left) (means_simplify r right))
  | .call _ args, _, .call arguments result =>
      means_simplifyCall (.call (allMean_simplifyArgs args arguments) result)

theorem allMean_simplifyArgs {env : String → Option α} :
    ∀ (es : List (Expr α)) {xs : List K}, AllMean env es xs → AllMean env (simplifyArgs es) xs
  | [], _, .nil => .nil
  | e :: es, _, .cons first others =>
      .cons (means_simplify e first) (allMean_simplifyArgs es others)

end

/-! ## Formulas without names -/

section

variable {env : String → Option α}

/-- A fold of numbers whose result is a number is made. -/
theorem foldArith_number {op : ArithOp} {a b x : K}
    (result : op.apply (number a : α) (number b) = number x) :
    foldArith op (number a : α) (number b) = some (.num (number x)) := by
  have notZero : ¬(op = .div ∧ ((number b : α) == 0) = true) := by
    rintro ⟨rfl, zero⟩
    rw [← number_zero, number_beq, decide_eq_true_iff] at zero
    exact (div_eq_number_iff.mp result).1 zero
  rw [foldArith, if_neg notZero]
  dsimp only
  rw [result, if_pos (isFinite_number x)]

mutual

/-- A formula without names that stands for a number is simplified to the literal. -/
theorem simplify_eq_num_of_means : ∀ (e : Expr α) {x : K}, e.names = [] →
    Means env e (.number x) → e.simplify = .num (number x)
  | .num _, _, _, h => congrArg Expr.num (means_num.mp h)
  | .var _, _, closed, _ => by cases closed
  | .unary .neg e, _, closed, .neg operand => by
      rw [simplify, simplify_eq_num_of_means e closed operand, number_neg]
      rfl
  | .binary (.arith op) l r, _, closed, .arith left right result => by
      obtain ⟨closedL, closedR⟩ := List.append_eq_nil_iff.mp closed
      rw [simplify, simplify_eq_num_of_means l closedL left,
        simplify_eq_num_of_means r closedR right]
      simp only [simplifyBinary, foldArith_number result, Option.getD_some]
  | .call name args, _, closed, .call arguments result => by
      have literals := nums?_simplifyArgs_of_allMean args closed arguments
      rw [simplify, simplifyCall, literals, Option.bind_some, result]
      exact if_pos (isFinite_number _)

theorem nums?_simplifyArgs_of_allMean : ∀ (es : List (Expr α)) {xs : List K}, argNames es = [] →
    AllMean env es xs → nums? (simplifyArgs es) = some (xs.map number)
  | [], _, _, .nil => rfl
  | e :: es, _, closed, .cons first others => by
      obtain ⟨closedE, closedEs⟩ := List.append_eq_nil_iff.mp closed
      rw [simplifyArgs, simplify_eq_num_of_means e closedE first, nums?,
        nums?_simplifyArgs_of_allMean es closedEs others]
      rfl

end

end

/-! ## Values and truth values -/

/-- Where a formula is defined throughout, simplification keeps its value and its truth value, and
it brings in no name. -/
theorem simplify_keeps_meaning {K α : Type} [Field K] [LinearOrder K] [Scalar α] [ExactScalar K α]
    (env : String → Option α) (e : Expr α) :
    (∀ a, DefinedThroughout env e → e.eval env = .ok a → e.simplify.eval env = .ok a) ∧
      (∀ b, DefinedThroughout env e → e.holds env = .ok b → e.simplify.holds env = .ok b) ∧
      ∀ name, e.simplify.mentions name = true → e.mentions name = true := by
  refine ⟨?_, ?_, fun name => mentions_of_simplify⟩
  · intro a defined value
    obtain ⟨x, rfl, means⟩ := means_of_eval e defined value
    exact eval_of_means _ (means_simplify e means)
  · intro b defined truth
    exact holds_of_means _ (means_simplify e (means_of_holds e defined truth))

open Extended in
/-- The flow `x + -3 * v` becomes `x - 3 * v`, and the guard `true && !(v < x)` becomes `v >= x`. -/
theorem simplify_keeps_flow_and_guard :
    let env : String → Option (Extended ℚ) := fun name =>
      if name = "x" then some (finite 1) else some (finite 2)
    let flow : Expr (Extended ℚ) := add (.var "x") (mul (.num (finite (-3))) (.var "v"))
    let guard : Expr (Extended ℚ) :=
      .binary (.logic .and) (.bool true) (not (lt (.var "v") (.var "x")))
    (DefinedThroughout env flow ∧ flow.eval env = .ok (finite (-5)) ∧
        flow.simplify.eval env = .ok (finite (-5))) ∧
      DefinedThroughout env guard ∧ guard.holds env = .ok true ∧
        guard.simplify.holds env = .ok true := by
  intro env flow guard
  have x : Means env (.var "x") (.number 1) := .var rfl
  have v : Means env (.var "v") (.number 2) := .var rfl
  have meansFlow : Means env flow (.number (-5)) := by
    have product : Means env (mul (.num (finite (-3))) (.var "v")) (.number (-6)) :=
      means_mul.mpr ⟨-3, 2, .num (-3), v, by norm_num⟩
    exact means_add.mpr ⟨1, -6, x, product, by norm_num⟩
  have meansGuard : Means env guard (.truth true) := by
    have less : Means env (lt (.var "v") (.var "x")) (.truth false) :=
      means_compare.mpr ⟨2, 1, v, x, by decide⟩
    exact .logic (.bool true) (.not less)
  have definedFlow := definedThroughout_of_means meansFlow
  have definedGuard := definedThroughout_of_means meansGuard
  have value := eval_of_means flow meansFlow
  have truth := holds_of_means guard meansGuard
  exact ⟨⟨definedFlow, value, (simplify_keeps_meaning env flow).1 _ definedFlow value⟩,
    definedGuard, truth, (simplify_keeps_meaning env guard).2.1 _ definedGuard truth⟩

end Expr

end HybridAutomata
