import HybridAutomata.Proofs.Exact.Fields
import HybridAutomata.Proofs.Expr.Substitution

/-!
# Replaced names and the values of their replacements

Where the replacements have values, a formula in which names are replaced and the formula itself
under those values are evaluated step by step alike: the same operands are looked at, the same
operand of a connective decides, and the first failure is the same, except that a failure that keeps
a formula keeps the replaced one. Replacements may mention replaced names; they are evaluated under
the assignment from before, as all names are replaced at once.

A replacement with a value is no condition, and neither is the name in its place. Without values
this fails: a condition in the place of a name holds or fails to hold where the name alone does
neither.
-/

namespace HybridAutomata

/-- Another account of a failure can be given before the next step or after it. -/
theorem Success.mapError_bind {ε ε' α β : Type} (x : Except ε α) (f : α → Except ε β)
    (g : ε → ε') : (x >>= f).mapError g = x.mapError g >>= fun a => (f a).mapError g := by
  cases x <;> rfl

open Success

variable {α : Type}

/-- A failure in terms of the formula in which names have been replaced. -/
def EvalError.substituteWith (σ : String → Option (Expr α)) : EvalError α → EvalError α
  | .unknownVariable name => .unknownVariable name
  | .unknownFunction name arity => .unknownFunction name arity
  | .notNumeric e => .notNumeric (e.substituteWith σ)
  | .notCondition e => .notCondition (e.substituteWith σ)
  | .notDifferentiable e => .notDifferentiable (e.substituteWith σ)

namespace Expr

theorem length_substituteArgs (σ : String → Option (Expr α)) (es : List (Expr α)) :
    (substituteArgs σ es).length = es.length := by
  induction es with
  | nil => rfl
  | cons e es ih => rw [substituteArgs, List.length_cons, List.length_cons, ih]

variable [Scalar α]

/-- Whatever replaces one of the names has a value. -/
def HasValues (σ : String → Option (Expr α)) (env : String → Option α) (names : List String) :
    Prop :=
  ∀ name ∈ names, ∀ replacement, σ name = some replacement → ∃ a, replacement.eval env = .ok a

/-- What has a value is no condition, and says so when it is asked whether it holds. -/
theorem holds_of_eval {env : String → Option α} {e : Expr α} {a : α} (h : e.eval env = .ok a) :
    e.holds env = .error (.notCondition e) := by
  cases e with
  | num | var | call => rfl
  | bool => cases h
  | unary op e =>
      cases op with
      | neg => rfl
      | not => cases h
  | binary op l r =>
      cases op with
      | arith => rfl
      | logic | compare => cases h

section

variable {σ : String → Option (Expr α)} {env : String → Option α}

theorem valuesOf_of_none {name : String} (h : σ name = none) :
    valuesOf σ env name = env name := by
  simp only [valuesOf, h]

theorem valuesOf_of_some {name : String} {replacement : Expr α} {a : α}
    (h : σ name = some replacement) (value : replacement.eval env = .ok a) :
    valuesOf σ env name = some a := by
  simp only [valuesOf, h, value, Except.toOption]

mutual

/-- With names replaced by formulas that have values, a formula is evaluated like the formula
itself under these values. -/
theorem eval_replaced : ∀ e : Expr α, HasValues σ env e.names →
    (e.substituteWith σ).eval env = (e.eval (valuesOf σ env)).mapError (·.substituteWith σ)
  | .num _, _ | .bool _, _ => rfl
  | .var name, h => by
      rw [substituteWith, eval]
      cases found : σ name with
      | none =>
          rw [Option.getD_none, valuesOf_of_none found, eval]
          cases env name <;> rfl
      | some replacement =>
          obtain ⟨a, value⟩ := h name (List.mem_singleton_self name) replacement found
          rw [Option.getD_some, valuesOf_of_some found value, value]
          rfl
  | .unary .neg e, h => by
      rw [substituteWith, eval, eval, mapError_bind, eval_replaced e h]
      rfl
  | .binary (.arith op) l r, h => by
      obtain ⟨left, right⟩ := List.forall_mem_append.mp h
      rw [substituteWith, eval, eval, mapError_bind, eval_replaced l left]
      simp only [mapError_bind, eval_replaced r right]
      rfl
  | .call name args, h => by
      rw [substituteWith, eval, eval, mapError_bind, evalArgs_replaced args h,
        length_substituteArgs]
      congr 1
      funext values
      cases applyFunction name values <;> rfl
  | .unary .not _, _ | .binary (.logic _) _ _, _ | .binary (.compare _) _ _, _ => rfl

theorem evalArgs_replaced : ∀ es : List (Expr α), HasValues σ env (argNames es) →
    evalArgs env (substituteArgs σ es) =
      (evalArgs (valuesOf σ env) es).mapError (·.substituteWith σ)
  | [], _ => rfl
  | e :: es, h => by
      obtain ⟨first, others⟩ := List.forall_mem_append.mp h
      rw [substituteArgs, evalArgs, evalArgs, mapError_bind, eval_replaced e first]
      simp only [mapError_bind, evalArgs_replaced es others]
      rfl

end

/-- The same of the question whether a condition holds; a connective stops at the same operand. -/
theorem holds_replaced : ∀ e : Expr α, HasValues σ env e.names →
    (e.substituteWith σ).holds env = (e.holds (valuesOf σ env)).mapError (·.substituteWith σ)
  | .bool _, _ => rfl
  | .var name, h => by
      change ((var name).substituteWith σ).holds env =
        .error (.notCondition ((var name).substituteWith σ))
      rw [substituteWith]
      cases found : σ name with
      | none => rfl
      | some replacement =>
          obtain ⟨a, value⟩ := h name (List.mem_singleton_self name) replacement found
          exact holds_of_eval value
  | .unary .not e, h => by
      rw [substituteWith, holds, holds, mapError_bind, holds_replaced e h]
      rfl
  | .binary (.logic .and) l r, h => by
      obtain ⟨left, right⟩ := List.forall_mem_append.mp h
      rw [substituteWith, holds, holds, mapError_bind, holds_replaced l left]
      congr 1
      funext decided
      cases decided with
      | true => exact holds_replaced r right
      | false => rfl
  | .binary (.logic .or) l r, h => by
      obtain ⟨left, right⟩ := List.forall_mem_append.mp h
      rw [substituteWith, holds, holds, mapError_bind, holds_replaced l left]
      congr 1
      funext decided
      cases decided with
      | true => rfl
      | false => exact holds_replaced r right
  | .binary (.compare op) l r, h => by
      obtain ⟨left, right⟩ := List.forall_mem_append.mp h
      rw [substituteWith, holds, holds, mapError_bind, eval_replaced l left]
      simp only [mapError_bind, eval_replaced r right]
      rfl
  | .num _, _ | .unary .neg _, _ | .binary (.arith _) _ _, _ | .call _ _, _ => rfl

/-- Where the replacements for its names have values, a formula with its names replaced has a value,
or holds or fails to hold, exactly if the formula does when the names take the values of their
replacements, and then with the same answer; otherwise both fail for the same cause. -/
theorem substituteWith_answers {e : Expr α} (values : HasValues σ env e.names) :
    (∀ a, (e.substituteWith σ).eval env = .ok a ↔ e.eval (valuesOf σ env) = .ok a) ∧
      (∀ b, (e.substituteWith σ).holds env = .ok b ↔ e.holds (valuesOf σ env) = .ok b) ∧
      (∀ cause, e.eval (valuesOf σ env) = .error cause →
        (e.substituteWith σ).eval env = .error (cause.substituteWith σ)) ∧
      ∀ cause, e.holds (valuesOf σ env) = .error cause →
        (e.substituteWith σ).holds env = .error (cause.substituteWith σ) := by
  rw [eval_replaced e values, holds_replaced e values]
  refine ⟨fun a => mapError_eq_ok_iff, fun b => mapError_eq_ok_iff, ?_, ?_⟩
  · intro cause failure
    rw [failure]
    rfl
  · intro cause failure
    rw [failure]
    rfl

/-- The replacement has to have a value: this one has a truth value instead. -/
example : ((var "x" : Expr α).substituteWith fun _ => some (.bool true)).holds env = .ok true ∧
    (var "x" : Expr α).holds (valuesOf (fun _ => some (.bool true)) env) =
      .error (.notCondition (.var "x")) := ⟨rfl, rfl⟩

end

open Extended

/-- The formulas `y + 1` for `x` and `x` for `y`, all at once. -/
def crossed : String → Option (Expr (Extended ℚ))
  | "x" => some (add (.var "y") (.num (finite 1)))
  | "y" => some (.var "x")
  | _ => none

/-- The condition `y < x || z < 0`. -/
def leftDecides : Expr (Extended ℚ) :=
  .binary (.logic .or) (.lt (.var "y") (.var "x")) (.lt (.var "z") (.num (finite 0)))

/-- The values one and two of `x` and `y`. -/
def oneTwo : String → Option (Extended ℚ)
  | "x" => some (finite 1)
  | "y" => some (finite 2)
  | _ => none

/-- The replacements mention the replaced names, and the operand on the right, whose name has no
value, is looked at neither before nor after. -/
theorem substituteWith_answers_crossed :
    HasValues crossed oneTwo leftDecides.names ∧
      leftDecides.holds (valuesOf crossed oneTwo) = .ok true ∧
      (leftDecides.substituteWith crossed).holds oneTwo = .ok true := by
  have values : HasValues crossed oneTwo leftDecides.names := by
    have names : leftDecides.names = ["y", "x", "z"] := rfl
    rw [names]
    intro name mem replacement found
    obtain rfl | rfl | rfl : name = "y" ∨ name = "x" ∨ name = "z" := by simpa using mem
    · obtain rfl : var "x" = replacement := Option.some.inj found
      exact ⟨finite 1, rfl⟩
    · obtain rfl : add (var "y") (.num (finite 1)) = replacement := Option.some.inj found
      exact ⟨finite 2 + finite 1, rfl⟩
    · cases found
  have y : valuesOf crossed oneTwo "y" = some (finite 1) := rfl
  have x : valuesOf crossed oneTwo "x" = some (finite (2 + 1)) := rfl
  have less : Comparison.apply .lt (finite 1) (finite (2 + 1) : Extended ℚ) = true :=
    decide_eq_true (finite_lt_finite.mpr (by norm_num))
  have holds : leftDecides.holds (valuesOf crossed oneTwo) = .ok true := by
    simp only [leftDecides, Expr.holds, eval, x, y, bind, Except.bind, less]
    rfl
  exact ⟨values, holds, ((substituteWith_answers values).2.1 true).mpr holds⟩

end Expr

end HybridAutomata
