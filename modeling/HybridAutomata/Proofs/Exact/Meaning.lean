import HybridAutomata.Expr.Eval
import HybridAutomata.Proofs.Exact.Scalars
import HybridAutomata.Proofs.Expr.Parts
import HybridAutomata.Proofs.Success

/-!
# What a formula means

The number or truth value that a formula stands for when all of it is defined: every formula in it
has a finite value or a truth value. A condition is then as defined as its parts are, those included
that its evaluation never looks at, because an operand to the left has decided.
-/

namespace HybridAutomata

open ExactScalar Success

/-- The opposite comparison of two numbers has the opposite answer. -/
theorem Comparison.apply_negate {K α : Type} [Field K] [LinearOrder K] [Scalar α]
    [ExactScalar K α] (op : Comparison) (x y : K) :
    op.negate.apply (number x : α) (number y) = !op.apply (number x : α) (number y) := by
  have lt (x y : K) : decide (x < y) = !decide (y ≤ x) := by
    rw [← decide_not, decide_eq_decide, not_le]
  cases op <;>
    simp [Comparison.negate, Comparison.apply, bne, number_beq, number_le_iff, number_lt_iff, lt]

/-- The truth value of the left operand that leaves the answer to the right one. -/
def LogicOp.neutral : LogicOp → Bool
  | .and => true
  | .or => false

namespace Expr

section

variable {α : Type} [Scalar α]

/-- A formula has a finite value, or it holds or fails to hold. -/
def Defined (env : String → Option α) (e : Expr α) : Prop :=
  (∃ a, e.eval env = .ok a ∧ Scalar.isFinite a = true) ∨ ∃ b, e.holds env = .ok b

/-- A formula is defined, and so is everything in it. -/
def DefinedThroughout (env : String → Option α) (e : Expr α) : Prop :=
  ∀ s, Part s e → Defined env s

end

/-- What a formula can stand for. -/
inductive Meaning (K : Type) where
  | number (x : K)
  | truth (b : Bool)

variable {K α : Type} [Field K] [LinearOrder K] [Scalar α] [ExactScalar K α]

mutual

/-- A formula that is defined throughout stands for a number or a truth value. -/
inductive Means (env : String → Option α) : Expr α → Meaning K → Prop
  | num (x : K) : Means env (.num (number x)) (.number x)
  | bool (b : Bool) : Means env (.bool b) (.truth b)
  | var {name} {x : K} (value : env name = some (number x)) : Means env (.var name) (.number x)
  | neg {e} {x : K} (operand : Means env e (.number x)) : Means env (neg e) (.number (-x))
  | not {e b} (operand : Means env e (.truth b)) : Means env (not e) (.truth !b)
  | arith {op l r} {x y z : K} (left : Means env l (.number x)) (right : Means env r (.number y))
      (result : op.apply (number x : α) (number y) = number z) :
      Means env (.binary (.arith op) l r) (.number z)
  | compare {op l r} {x y : K} (left : Means env l (.number x)) (right : Means env r (.number y)) :
      Means env (.binary (.compare op) l r) (.truth (op.apply (number x : α) (number y)))
  | logic {op l r b} (left : Means env l (.truth op.neutral)) (right : Means env r (.truth b)) :
      Means env (.binary (.logic op) l r) (.truth b)
  | decided {op l r m} (left : Means env l (.truth !op.neutral)) (right : Means env r m) :
      Means env (.binary (.logic op) l r) (.truth !op.neutral)
  | call {name args} {xs : List K} {z : K} (arguments : AllMean env args xs)
      (result : applyFunction name (xs.map number) = some (number z : α)) :
      Means env (.call name args) (.number z)

@[inherit_doc Means]
inductive AllMean (env : String → Option α) : List (Expr α) → List K → Prop
  | nil : AllMean env [] []
  | cons {e es} {x : K} {xs : List K} (first : Means env e (.number x))
      (others : AllMean env es xs) : AllMean env (e :: es) (x :: xs)

end

/-! ## Reading a meaning -/

section

variable {env : String → Option α} {e l r : Expr α} {b : Bool} {x : K}

theorem means_num {c : α} : Means env (.num c) (.number x) ↔ c = number x := by
  constructor
  · rintro ⟨⟩
    rfl
  · rintro rfl
    exact .num x

theorem means_neg : Means env (neg e) (.number x) ↔ ∃ a, Means env e (.number a) ∧ x = -a := by
  constructor
  · rintro (_ | _ | _ | operand)
    exact ⟨_, operand, rfl⟩
  · rintro ⟨a, operand, rfl⟩
    exact .neg operand

theorem means_arith {op : ArithOp} : Means env (.binary (.arith op) l r) (.number x) ↔
    ∃ a b, Means env l (.number a) ∧ Means env r (.number b) ∧
      op.apply (number a : α) (number b) = number x := by
  constructor
  · intro h
    cases h with
    | arith left right result => exact ⟨_, _, left, right, result⟩
  · rintro ⟨a, b, left, right, result⟩
    exact .arith left right result

theorem means_add : Means env (add l r) (.number x) ↔
    ∃ a b, Means env l (.number a) ∧ Means env r (.number b) ∧ x = a + b := by
  simp only [means_arith, ArithOp.apply, ← number_add, number_inj, eq_comm]

theorem means_sub : Means env (sub l r) (.number x) ↔
    ∃ a b, Means env l (.number a) ∧ Means env r (.number b) ∧ x = a - b := by
  simp only [means_arith, ArithOp.apply, ← number_sub, number_inj, eq_comm]

theorem means_mul : Means env (mul l r) (.number x) ↔
    ∃ a b, Means env l (.number a) ∧ Means env r (.number b) ∧ x = a * b := by
  simp only [means_arith, ArithOp.apply, ← number_mul, number_inj, eq_comm]

/-- A quotient stands for a number exactly if the divisor is not zero. -/
theorem means_div : Means env (div l r) (.number x) ↔
    ∃ a b, Means env l (.number a) ∧ Means env r (.number b) ∧ b ≠ 0 ∧ x = a / b := by
  simp only [means_arith, ArithOp.apply, div_eq_number_iff]

theorem means_call {name : String} {args : List (Expr α)} :
    Means env (.call name args) (.number x) ↔ ∃ xs, AllMean env args xs ∧
      applyFunction name (xs.map number) = some (number x : α) := by
  constructor
  · intro h
    cases h with
    | call arguments result => exact ⟨_, arguments, result⟩
  · rintro ⟨xs, arguments, result⟩
    exact .call arguments result

theorem means_compare {op : Comparison} : Means env (.binary (.compare op) l r) (.truth b) ↔
    ∃ x y, Means env l (.number x) ∧ Means env r (.number y) ∧
      b = op.apply (number x : α) (number y) := by
  constructor
  · intro h
    cases h with
    | compare left right => exact ⟨_, _, left, right, rfl⟩
  · rintro ⟨x, y, left, right, rfl⟩
    exact .compare left right

end

/-! ## Meaning and evaluation -/

section

variable {env : String → Option α}

mutual

/-- A formula that stands for a number is evaluated to it. -/
theorem eval_of_means : ∀ (e : Expr α) {x : K}, Means env e (.number x) →
    e.eval env = .ok (number x)
  | .num c, _, h => congrArg Except.ok (means_num.mp h)
  | .var name, _, .var value => by rw [eval, value]
  | .unary .neg e, _, .neg operand => by
      rw [eval, eval_of_means e operand, number_neg]
      rfl
  | .binary (.arith op) l r, _, .arith left right result => by
      rw [eval, eval_of_means l left, eval_of_means r right, ← result]
      rfl
  | .call name args, _, .call arguments result => by
      rw [eval, evalArgs_of_allMean args arguments]
      simp only [bind, Except.bind, result, pure, Except.pure]

theorem evalArgs_of_allMean : ∀ (es : List (Expr α)) {xs : List K}, AllMean env es xs →
    evalArgs env es = .ok (xs.map number)
  | [], _, .nil => rfl
  | e :: es, _, .cons first others => by
      rw [evalArgs, eval_of_means e first, evalArgs_of_allMean es others]
      rfl

end

/-- A formula that stands for a truth value holds or fails to hold accordingly. -/
theorem holds_of_means : ∀ (e : Expr α) {b : Bool}, Means env e (.truth b) →
    e.holds env = .ok b
  | .bool b, _, .bool _ => rfl
  | .unary .not e, _, .not operand => by
      rw [holds, holds_of_means e operand]
      rfl
  | .binary (.compare op) l r, _, .compare left right => by
      rw [holds, eval_of_means l left, eval_of_means r right]
      rfl
  | .binary (.logic .and) l r, _, .logic left right => by
      rw [holds, holds_of_means l left]
      exact holds_of_means r right
  | .binary (.logic .or) l r, _, .logic left right => by
      rw [holds, holds_of_means l left]
      exact holds_of_means r right
  | .binary (.logic .and) l r, _, .decided left _
  | .binary (.logic .or) l r, _, .decided left _ => by
      rw [holds, holds_of_means l left]
      rfl

/-- No formula has both a value and a truth value. -/
theorem holds_ne_ok_of_eval {e : Expr α} {a : α} {b : Bool} (value : e.eval env = .ok a) :
    e.holds env ≠ .ok b := by
  intro truth
  cases e with
  | num | var | call => cases truth
  | bool => cases value
  | unary op e =>
      cases op with
      | neg => cases truth
      | not => cases value
  | binary op l r =>
      cases op with
      | arith => cases truth
      | logic | compare => cases value

/-- A value that is defined is a number. -/
theorem Defined.exists_number {e : Expr α} {a : α} (h : Defined env e)
    (value : e.eval env = .ok a) : ∃ x, a = number x := by
  obtain ⟨c, evaluated, finite⟩ | ⟨b, truth⟩ := h
  · rw [value] at evaluated
    cases evaluated
    exact isFinite_iff.mp finite
  · exact absurd truth (holds_ne_ok_of_eval value)

mutual

theorem means_of_eval : ∀ (e : Expr α) {a : α}, DefinedThroughout env e → e.eval env = .ok a →
    ∃ x, a = number x ∧ Means env e (.number x)
  | .num c, _, defined, value => by
      cases value
      obtain ⟨x, rfl⟩ := (defined _ (.whole _)).exists_number rfl
      exact ⟨x, rfl, .num x⟩
  | .var name, a, defined, value => by
      obtain ⟨x, rfl⟩ := (defined _ (.whole _)).exists_number value
      rw [eval] at value
      split at value
      · next found =>
          cases value
          exact ⟨x, rfl, .var found⟩
      · cases value
  | .unary .neg e, a, defined, value => by
      rw [eval] at value
      obtain ⟨c, operand, value⟩ := bind_eq_ok_iff.mp value
      cases value
      obtain ⟨x, rfl, means⟩ := means_of_eval e (fun s part => defined s (.operand part)) operand
      exact ⟨-x, (number_neg x).symm, .neg means⟩
  | .binary (.arith op) l r, a, defined, value => by
      obtain ⟨z, rfl⟩ := (defined _ (.whole _)).exists_number value
      rw [eval] at value
      obtain ⟨c, left, value⟩ := bind_eq_ok_iff.mp value
      obtain ⟨d, right, value⟩ := bind_eq_ok_iff.mp value
      obtain ⟨x, rfl, meansL⟩ := means_of_eval l (fun s part => defined s (.left part)) left
      obtain ⟨y, rfl, meansR⟩ := means_of_eval r (fun s part => defined s (.right part)) right
      exact ⟨z, rfl, .arith meansL meansR (pure_eq_ok_iff.mp value)⟩
  | .call name args, a, defined, value => by
      obtain ⟨z, rfl⟩ := (defined _ (.whole _)).exists_number value
      rw [eval] at value
      obtain ⟨as, arguments, value⟩ := bind_eq_ok_iff.mp value
      obtain ⟨xs, rfl, means⟩ := allMean_of_evalArgs args
        (fun e mem s part => defined s (.argument mem part)) arguments
      split at value
      · next result =>
          cases value
          exact ⟨z, rfl, .call means result⟩
      · cases value
  | .bool _, _, _, value => by cases value
  | .unary .not _, _, _, value => by cases value
  | .binary (.logic _) _ _, _, _, value => by cases value
  | .binary (.compare _) _ _, _, _, value => by cases value

theorem allMean_of_evalArgs : ∀ (es : List (Expr α)) {as : List α},
    (∀ e ∈ es, DefinedThroughout env e) → evalArgs env es = .ok as →
      ∃ xs, as = xs.map number ∧ AllMean env es xs
  | [], _, _, value => by
      cases value
      exact ⟨[], rfl, .nil⟩
  | e :: es, _, defined, value => by
      rw [evalArgs] at value
      obtain ⟨a, first, value⟩ := bind_eq_ok_iff.mp value
      obtain ⟨as, others, value⟩ := bind_eq_ok_iff.mp value
      cases value
      obtain ⟨x, rfl, means⟩ := means_of_eval e (defined e (.head _)) first
      obtain ⟨xs, rfl, allMean⟩ :=
        allMean_of_evalArgs es (fun e mem => defined e (.tail _ mem)) others
      exact ⟨x :: xs, rfl, .cons means allMean⟩

end

theorem means_of_holds : ∀ (e : Expr α) {b : Bool}, DefinedThroughout env e →
    e.holds env = .ok b → Means env e (.truth b)
  | .bool _, _, _, truth => by
      cases truth
      exact .bool _
  | .unary .not e, _, defined, truth => by
      rw [holds] at truth
      obtain ⟨b, operand, truth⟩ := bind_eq_ok_iff.mp truth
      cases truth
      exact .not (means_of_holds e (fun s part => defined s (.operand part)) operand)
  | .binary (.compare op) l r, _, defined, truth => by
      rw [holds] at truth
      obtain ⟨c, left, truth⟩ := bind_eq_ok_iff.mp truth
      obtain ⟨d, right, truth⟩ := bind_eq_ok_iff.mp truth
      cases truth
      obtain ⟨x, rfl, meansL⟩ := means_of_eval l (fun s part => defined s (.left part)) left
      obtain ⟨y, rfl, meansR⟩ := means_of_eval r (fun s part => defined s (.right part)) right
      exact .compare meansL meansR
  | .binary (.logic op) l r, _, defined, truth => by
      have definedL : DefinedThroughout env l := fun s part => defined s (.left part)
      have definedR : DefinedThroughout env r := fun s part => defined s (.right part)
      -- the operand on the right stands for something even if it is not looked at
      have settled : ∃ m, Means env r m := by
        obtain ⟨a, value, _⟩ | ⟨b, right⟩ := definedR r (.whole r)
        · obtain ⟨x, _, means⟩ := means_of_eval r definedR value
          exact ⟨_, means⟩
        · exact ⟨_, means_of_holds r definedR right⟩
      obtain ⟨m, means⟩ := settled
      cases op with
      | and =>
          rw [holds] at truth
          obtain ⟨a, left, truth⟩ := bind_eq_ok_iff.mp truth
          have meansL := means_of_holds l definedL left
          cases a with
          | true => exact .logic meansL (means_of_holds r definedR truth)
          | false =>
              cases truth
              exact .decided meansL means
      | or =>
          rw [holds] at truth
          obtain ⟨a, left, truth⟩ := bind_eq_ok_iff.mp truth
          have meansL := means_of_holds l definedL left
          cases a with
          | true =>
              cases truth
              exact .decided meansL means
          | false => exact .logic meansL (means_of_holds r definedR truth)
  | .num _, _, _, truth => by cases truth
  | .var _, _, _, truth => by cases truth
  | .call _ _, _, _, truth => by cases truth
  | .unary .neg _, _, _, truth => by cases truth
  | .binary (.arith _) _ _, _, _, truth => by cases truth

theorem Means.defined {e : Expr α} {m : Meaning K} (h : Means env e m) : Defined env e := by
  cases m with
  | number x => exact .inl ⟨number x, eval_of_means e h, isFinite_number x⟩
  | truth b => exact .inr ⟨b, holds_of_means e h⟩

mutual

/-- A formula that stands for something is defined throughout. -/
theorem definedThroughout_of_means : ∀ {e : Expr α} {m : Meaning K}, Means env e m →
    DefinedThroughout env e
  | _, _, h, _, .whole _ => h.defined
  | _, _, .neg operand, s, .operand part => definedThroughout_of_means operand s part
  | _, _, .not operand, s, .operand part => definedThroughout_of_means operand s part
  | _, _, .arith left _ _, s, .left part => definedThroughout_of_means left s part
  | _, _, .arith _ right _, s, .right part => definedThroughout_of_means right s part
  | _, _, .compare left _, s, .left part => definedThroughout_of_means left s part
  | _, _, .compare _ right, s, .right part => definedThroughout_of_means right s part
  | _, _, .logic left _, s, .left part => definedThroughout_of_means left s part
  | _, _, .logic _ right, s, .right part => definedThroughout_of_means right s part
  | _, _, .decided left _, s, .left part => definedThroughout_of_means left s part
  | _, _, .decided _ right, s, .right part => definedThroughout_of_means right s part
  | _, _, .call arguments _, s, .argument mem part =>
      definedThroughout_of_allMean arguments mem s part

theorem definedThroughout_of_allMean : ∀ {es : List (Expr α)} {xs : List K}, AllMean env es xs →
    ∀ {e : Expr α}, e ∈ es → DefinedThroughout env e
  | _, _, .cons first _, _, .head _ => definedThroughout_of_means first
  | _, _, .cons _ others, _, .tail _ mem => definedThroughout_of_allMean others mem

end

end

/-! ## Meanings under other assignments -/

section

variable {env env' : String → Option α}

mutual

/-- What a formula stands for depends only on the names that occur. -/
theorem Means.congr : ∀ {e : Expr α} {m : Meaning K}, Means env e m →
    (∀ name ∈ e.names, env name = env' name) → Means env' e m
  | _, _, .num x, _ => .num x
  | _, _, .bool b, _ => .bool b
  | _, _, .var value, same => .var ((same _ (List.mem_singleton_self _)).symm.trans value)
  | _, _, .neg operand, same => .neg (operand.congr same)
  | _, _, .not operand, same => .not (operand.congr same)
  | _, _, .arith left right result, same =>
      have ⟨sameL, sameR⟩ := List.forall_mem_append.mp same
      .arith (left.congr sameL) (right.congr sameR) result
  | _, _, .compare left right, same =>
      have ⟨sameL, sameR⟩ := List.forall_mem_append.mp same
      .compare (left.congr sameL) (right.congr sameR)
  | _, _, .logic left right, same =>
      have ⟨sameL, sameR⟩ := List.forall_mem_append.mp same
      .logic (left.congr sameL) (right.congr sameR)
  | _, _, .decided left right, same =>
      have ⟨sameL, sameR⟩ := List.forall_mem_append.mp same
      .decided (left.congr sameL) (right.congr sameR)
  | _, _, .call arguments result, same => .call (arguments.congr same) result

@[inherit_doc Means.congr]
theorem AllMean.congr : ∀ {es : List (Expr α)} {xs : List K}, AllMean env es xs →
    (∀ name ∈ argNames es, env name = env' name) → AllMean env' es xs
  | _, _, .nil, _ => .nil
  | _, _, .cons first others, same =>
      have ⟨sameFirst, sameOthers⟩ := List.forall_mem_append.mp same
      .cons (first.congr sameFirst) (others.congr sameOthers)

end

/-- Changing a name that does not occur changes nothing. -/
theorem Means.update {e : Expr α} {m : Meaning K} {name : String} (h : Means env e m)
    (free : e.mentions name = false) (value : Option α) :
    Means (Function.update env name value) e m := by
  refine h.congr fun other mem => (Function.update_of_ne ?_ _ _).symm
  rintro rfl
  rw [(mentions_iff other e).mpr mem] at free
  cases free

/-- What stands for a number is no condition. -/
theorem Means.isCondition_eq_false {e : Expr α} {x : K} (h : Means env e (.number x)) :
    e.isCondition = false := by
  cases h <;> rfl

end

end Expr

end HybridAutomata
