import HybridAutomata.Decimal.Double
import HybridAutomata.Proofs.Expr.Lookups
import HybridAutomata.Proofs.Expr.Parts
import HybridAutomata.Proofs.Expr.Spelling

/-!
# Numbers and truth values in conditions

A formula stands for a number or for a truth value, and every operator evaluates its operands to one
of the two. The grammar mixes them freely, and a text is taken for a condition by its outermost
operator alone: `x && false` is read as a guard although `x` is a number.

What evaluation asks of a condition is that no operand is misplaced. It fails for lack of a truth
value or of a number at misplaced operands only, so a condition without one holds or does not hold,
unless it calls a function that does not exist.
-/

namespace HybridAutomata

open Success Grammar Token

/-- What a formula is evaluated to. -/
inductive Answer where
  | number
  | truth
deriving DecidableEq

/-- What the operands of an operator are evaluated to. -/
def UnaryOp.wanted : UnaryOp → Answer
  | .neg => .number
  | .not => .truth

@[inherit_doc UnaryOp.wanted]
def BinaryOp.wanted : BinaryOp → Answer
  | .arith _ => .number
  | .compare _ => .number
  | .logic _ => .truth

namespace Expr

variable {α : Type}

/-- What a formula stands for, by its outermost operator. -/
def answer (e : Expr α) : Answer := if e.isCondition then .truth else .number

/-- An operand of the outermost operator, and what it is evaluated to. -/
inductive Operand : Expr α → Answer → Expr α → Prop
  | only (op e) : Operand e op.wanted (.unary op e)
  | left (op l r) : Operand l op.wanted (.binary op l r)
  | right (op l r) : Operand r op.wanted (.binary op l r)
  | argument {name args e} (mem : e ∈ args) : Operand e .number (.call name args)

/-- Somewhere in `e` an operator evaluates `s` to what it does not stand for. -/
def Misplaced (s : Expr α) (wanted : Answer) (e : Expr α) : Prop :=
  ∃ outer, Part outer e ∧ Operand s wanted outer ∧ s.answer ≠ wanted

/-- No operand is misplaced. -/
def WellSorted (e : Expr α) : Prop := ∀ s wanted, ¬Misplaced s wanted e

/-- The failure at a formula that does not stand for what is wanted. -/
def misfit : Answer → Expr α → EvalError α
  | .number, e => .notNumeric e
  | .truth, e => .notCondition e

theorem Misplaced.of_operand {s l e : Expr α} {k wanted : Answer} (inside : Misplaced s wanted l)
    (operand : Operand l k e) : Misplaced s wanted e := by
  obtain ⟨outer, part, here⟩ := inside
  refine ⟨outer, ?_, here⟩
  cases operand with
  | only => exact .operand part
  | left => exact .left part
  | right => exact .right part
  | argument mem => exact .argument mem part

/-- An operand is misplaced at the outermost operator or inside one of its operands. -/
theorem misplaced_iff {s e : Expr α} {wanted : Answer} : Misplaced s wanted e ↔
    (Operand s wanted e ∧ s.answer ≠ wanted) ∨
      ∃ o k, Operand o k e ∧ Misplaced s wanted o := by
  constructor
  · rintro ⟨outer, part, here⟩
    cases part with
    | whole => exact .inl here
    | operand part => exact .inr ⟨_, _, .only _ _, outer, part, here⟩
    | left part => exact .inr ⟨_, _, .left _ _ _, outer, part, here⟩
    | right part => exact .inr ⟨_, _, .right _ _ _, outer, part, here⟩
    | argument mem part => exact .inr ⟨_, _, .argument mem, outer, part, here⟩
  · rintro (⟨operand, other⟩ | ⟨o, k, operand, inside⟩)
    · exact ⟨e, .whole e, operand, other⟩
    · exact inside.of_operand operand

/-- A formula is well sorted if its operands are and stand for what the operator wants. -/
theorem wellSorted_iff {e : Expr α} :
    e.WellSorted ↔ ∀ o k, Operand o k e → o.answer = k ∧ o.WellSorted := by
  constructor
  · refine fun sorted o k operand => ⟨?_, fun s wanted inside => ?_⟩
    · by_contra other
      exact sorted o k (misplaced_iff.mpr (.inl ⟨operand, other⟩))
    · exact sorted s wanted (inside.of_operand operand)
  · intro operands s wanted misplaced
    obtain ⟨operand, other⟩ | ⟨o, k, operand, inside⟩ := misplaced_iff.mp misplaced
    · exact other (operands s wanted operand).1
    · exact (operands o k operand).2 s wanted inside

/-! ## Causes of failures -/

/-- Why evaluating `e` to `k` fails. -/
inductive Cause (k : Answer) (e : Expr α) : EvalError α → Prop
  | noVariable (name) : Cause k e (.unknownVariable name)
  | noFunction (name arity) : Cause k e (.unknownFunction name arity)
  | whole (other : e.answer ≠ k) : Cause k e (misfit k e)
  | inside {s wanted} (misplaced : Misplaced s wanted e) : Cause k e (misfit wanted s)

theorem Cause.of_operand {l e : Expr α} {k wanted : Answer} {err : EvalError α}
    (cause : Cause wanted l err) (operand : Operand l wanted e) : Cause k e err := by
  cases cause with
  | noVariable name => exact .noVariable name
  | noFunction name arity => exact .noFunction name arity
  | whole other => exact .inside ⟨e, .whole e, operand, other⟩
  | inside misplaced => exact .inside (misplaced.of_operand operand)

/-- A formula that stands for what is wanted fails for lack of it at a misplaced operand. -/
theorem Cause.misplaced {s e : Expr α} {k wanted : Answer} {err : EvalError α}
    (cause : Cause k e err) (fits : e.answer = k) (fails : err = misfit wanted s) :
    Misplaced s wanted e := by
  cases cause with
  | noVariable name => cases wanted <;> cases fails
  | noFunction name arity => cases wanted <;> cases fails
  | whole other => exact absurd fits other
  | @inside s' wanted' misplaced =>
      cases wanted <;> cases wanted' <;> cases fails <;> exact misplaced

variable [Scalar α] {env : String → Option α} {err : EvalError α}

mutual

theorem cause_of_eval : ∀ {e : Expr α}, e.eval env = .error err → Cause .number e err
  | .num _, h => by cases h
  | .var name, h => by
      rw [eval] at h
      split at h <;> cases h
      exact .noVariable name
  | .unary .neg e, h => by
      rw [eval, bind_eq_error_iff] at h
      obtain operand | ⟨_, _, ⟨⟩⟩ := h
      exact (cause_of_eval operand).of_operand (.only .neg e)
  | .binary (.arith op) l r, h => by
      simp only [eval, bind_eq_error_iff] at h
      obtain left | ⟨_, _, right | ⟨_, _, ⟨⟩⟩⟩ := h
      · exact (cause_of_eval left).of_operand (.left (.arith op) l r)
      · exact (cause_of_eval right).of_operand (.right (.arith op) l r)
  | .call name args, h => by
      rw [eval, bind_eq_error_iff] at h
      obtain argument | ⟨values, _, applied⟩ := h
      · obtain ⟨e, mem, cause⟩ := cause_of_evalArgs argument
        exact cause.of_operand (.argument mem)
      · cases found : applyFunction name values <;> rw [found] at applied <;> cases applied
        exact .noFunction name args.length
  | .bool _, h | .unary .not _, h | .binary (.logic _) _ _, h | .binary (.compare _) _ _, h => by
      rw [eval] at h
      · cases h
        exact .whole (by simp [answer, isCondition])
      all_goals simp

theorem cause_of_evalArgs : ∀ {es : List (Expr α)}, evalArgs env es = .error err →
    ∃ e ∈ es, Cause .number e err
  | [], h => by cases h
  | e :: es, h => by
      simp only [evalArgs, bind_eq_error_iff] at h
      obtain first | ⟨_, _, others | ⟨_, _, ⟨⟩⟩⟩ := h
      · exact ⟨e, List.mem_cons_self, cause_of_eval first⟩
      · obtain ⟨e', mem, cause⟩ := cause_of_evalArgs others
        exact ⟨e', List.mem_cons_of_mem e mem, cause⟩

end

theorem cause_of_holds : ∀ {e : Expr α}, e.holds env = .error err → Cause .truth e err
  | .bool _, h => by cases h
  | .unary .not e, h => by
      rw [holds, bind_eq_error_iff] at h
      obtain operand | ⟨_, _, ⟨⟩⟩ := h
      exact (cause_of_holds operand).of_operand (.only .not e)
  | .binary (.logic .and) l r, h => by
      rw [holds, bind_eq_error_iff] at h
      obtain left | ⟨b, _, right⟩ := h
      · exact (cause_of_holds left).of_operand (.left (.logic .and) l r)
      · cases b with
        | true => exact (cause_of_holds right).of_operand (.right (.logic .and) l r)
        | false => cases right
  | .binary (.logic .or) l r, h => by
      rw [holds, bind_eq_error_iff] at h
      obtain left | ⟨b, _, right⟩ := h
      · exact (cause_of_holds left).of_operand (.left (.logic .or) l r)
      · cases b with
        | true => cases right
        | false => exact (cause_of_holds right).of_operand (.right (.logic .or) l r)
  | .binary (.compare op) l r, h => by
      simp only [holds, bind_eq_error_iff] at h
      obtain left | ⟨_, _, right | ⟨_, _, ⟨⟩⟩⟩ := h
      · exact (cause_of_eval left).of_operand (.left (.compare op) l r)
      · exact (cause_of_eval right).of_operand (.right (.compare op) l r)
  | .num _, h | .var _, h | .unary .neg _, h | .binary (.arith _) _ _, h | .call _ _, h => by
      rw [holds] at h
      · cases h
        exact .whole (by simp [answer, isCondition])
      all_goals simp

/-! ## Conditions that are read -/

variable {role : ConditionRole} {text : String} {e : Expr α}

theorem isCondition_of_parseCondition (parsed : parseCondition role text = .ok e) :
    e.isCondition = true := by
  rw [parseCondition] at parsed
  split at parsed
  · cases parsed
    rfl
  · obtain ⟨e', -, checked⟩ := bind_eq_ok_iff.mp parsed
    split at checked
    · cases checked
      assumption
    · cases checked

theorem parseCondition_eq_ok (written : text.toList.all Text.isBlank = false)
    (parsed : parse text = .ok e) (condition : e.isCondition = true) :
    parseCondition role text = .ok e := by
  rw [parseCondition, if_neg (by simp [written]), parsed]
  exact if_pos condition

/-- A condition that was read, with a number for each of its names, fails for lack of a truth value
or of a number at a misplaced operand only. Without one it has a truth value or calls a function
that does not exist. -/
theorem holds_of_parseCondition (parsed : parseCondition role text = .ok e)
    (known : ∀ name ∈ e.names, env name ≠ none) :
    (∀ s, e.holds env = .error (.notCondition s) → Misplaced s .truth e) ∧
      (∀ s, e.holds env = .error (.notNumeric s) → Misplaced s .number e) ∧
      (e.WellSorted → (∃ b, e.holds env = .ok b) ∨
        ∃ name arity, e.holds env = .error (.unknownFunction name arity)) := by
  have condition : e.answer = .truth := if_pos (isCondition_of_parseCondition parsed)
  refine ⟨fun s fails => ?_, fun s fails => ?_, fun sorted => ?_⟩
  · exact (cause_of_holds fails).misplaced condition rfl
  · exact (cause_of_holds fails).misplaced condition rfl
  · cases result : e.holds env with
    | ok b => exact .inl ⟨b, rfl⟩
    | error err =>
        cases cause_of_holds result with
        | noVariable name => exact absurd result (resolves_holds known name)
        | noFunction name arity => exact .inr ⟨name, arity, rfl⟩
        | whole other => exact absurd condition other
        | inside misplaced => exact absurd misplaced (sorted _ _)

/-- The guard `x <= y && true`. -/
def boundedAbove : Expr Float := .binary (.logic .and) (.le (.var "x") (.var "y")) (.bool true)

theorem wellSorted_boundedAbove : boundedAbove.WellSorted := by
  refine wellSorted_iff.mpr fun o k operand => ?_
  cases operand with
  | left =>
      refine ⟨rfl, wellSorted_iff.mpr fun o k operand => ?_⟩
      cases operand <;> exact ⟨rfl, wellSorted_iff.mpr (by rintro o k ⟨⟩)⟩
  | right => exact ⟨rfl, wellSorted_iff.mpr (by rintro o k ⟨⟩)⟩

theorem holds_of_parseCondition_boundedAbove :
    parseCondition .guard "x <= y && true" = .ok boundedAbove ∧ boundedAbove.WellSorted ∧
      (∀ name ∈ boundedAbove.names, (fun _ => some 1 : String → Option Float) name ≠ none) ∧
      ((∃ b, boundedAbove.holds (fun _ => some 1) = .ok b) ∨
        ∃ name arity, boundedAbove.holds (fun _ => some 1) =
          .error (.unknownFunction name arity)) := by
  have x : IsName "x" := ⟨isIdentifier_of_all rfl rfl rfl, by decide⟩
  have y : IsName "y" := ⟨isIdentifier_of_all rfl rfl rfl, by decide⟩
  have comparison : Spells (α := Float) "x <= y" .comparison (.le (.var "x") (.var "y")) :=
    (x.spells.loosen (by decide)).compare (s := .lessEq) .lessEq (y.spells.loosen (by decide))
  have parsed : parse "x <= y && true" = .ok boundedAbove :=
    (((comparison.loosen (by decide)).join (s := .andAnd) .andAnd
      ((spells_bool true).loosen (by decide))).loosen (by decide)).parse
  have accepted : parseCondition .guard "x <= y && true" = .ok boundedAbove :=
    parseCondition_eq_ok rfl parsed rfl
  have known : ∀ name ∈ boundedAbove.names,
      (fun _ => some 1 : String → Option Float) name ≠ none := by simp
  exact ⟨accepted, wellSorted_boundedAbove, known,
    (holds_of_parseCondition accepted known).2.2 wellSorted_boundedAbove⟩

/-- The guard `x && false`, which is accepted in every role, does not hold or fail to hold. -/
theorem parseCondition_misplaced :
    (∀ role, parseCondition (α := Float) role "x && false" =
      .ok (.binary (.logic .and) (.var "x") (.bool false))) ∧
      (Expr.binary (.logic .and) (.var "x") (.bool false)).holds
        (fun _ => some (1 : Float)) = .error (.notCondition (.var "x")) := by
  have x : IsName "x" := ⟨isIdentifier_of_all rfl rfl rfl, by decide⟩
  have parsed : parse (α := Float) "x && false" =
      .ok (.binary (.logic .and) (.var "x") (.bool false)) :=
    (((x.spells.loosen (by decide)).join (s := .andAnd) .andAnd
      ((spells_bool false).loosen (by decide))).loosen (by decide)).parse
  exact ⟨fun role => parseCondition_eq_ok rfl parsed rfl, rfl⟩

end Expr

end HybridAutomata
