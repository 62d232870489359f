import HybridAutomata.Expr.Basic

/-!
# Evaluation

A formula has a value or a truth value under an assignment of numbers to names. Numeric operands are
evaluated from left to right and the first failure is the answer; conjunction and disjunction stop
as soon as the left operand decides.

A failure keeps the formula at which it arose; its wording is the printer's business.
-/

namespace HybridAutomata

open Scalar

/-- Why a formula has no value. -/
inductive EvalError (α : Type) where
  | unknownVariable (name : String)
  | unknownFunction (name : String) (arity : Nat)
  | notNumeric (e : Expr α)
  | notCondition (e : Expr α)
  | notDifferentiable (e : Expr α)

variable {α : Type} [Scalar α]

@[inline] def ArithOp.apply (op : ArithOp) (a b : α) : α :=
  match op with
  | .add => a + b
  | .sub => a - b
  | .mul => a * b
  | .div => a / b
  | .pow => Scalar.pow a b

@[inline] def Comparison.apply (op : Comparison) (a b : α) : Bool :=
  match op with
  | .eq => a == b
  | .ne => a != b
  | .lt => decide (a < b)
  | .le => decide (a ≤ b)
  | .gt => decide (b < a)
  | .ge => decide (b ≤ a)

/-- The value of a named function, if there is one with that name and number of arguments. -/
def applyFunction (name : String) (args : List α) : Option α :=
  match args with
  | [x] =>
      match name with
      | "sin" => some (sin x)
      | "cos" => some (cos x)
      | "tan" => some (tan x)
      | "exp" => some (exp x)
      | "ln" | "log" => some (ln x)
      | "sqrt" => some (sqrt x)
      | "abs" => some (abs x)
      | _ => none
  | [a, b] =>
      match name with
      | "min" => some (lesser a b)
      | "max" => some (greater a b)
      | _ => none
  | _ => none

namespace Expr

mutual

/-- The number that a formula stands for under an assignment. -/
@[specialize] def eval (env : String → Option α) : Expr α → Except (EvalError α) α
  | .num value => .ok value
  | .var name =>
      match env name with
      | some value => .ok value
      | none => .error (.unknownVariable name)
  | .unary .neg e => do return -(← eval env e)
  | .binary (.arith op) l r => do
      let a ← eval env l
      let b ← eval env r
      return op.apply a b
  | .call name args => do
      let values ← evalArgs env args
      match applyFunction name values with
      | some value => return value
      | none => throw (.unknownFunction name args.length)
  | e => .error (.notNumeric e)

@[specialize, inherit_doc eval]
def evalArgs (env : String → Option α) : List (Expr α) → Except (EvalError α) (List α)
  | [] => .ok []
  | e :: es => do
      let value ← eval env e
      let values ← evalArgs env es
      return value :: values

end

/-- Whether a condition holds under an assignment. -/
def holds (env : String → Option α) : Expr α → Except (EvalError α) Bool
  | .bool value => .ok value
  | .unary .not e => do return !(← holds env e)
  | .binary (.logic .and) l r => do
      if ← holds env l then holds env r else return false
  | .binary (.logic .or) l r => do
      if ← holds env l then return true else holds env r
  | .binary (.compare op) l r => do
      let a ← eval env l
      let b ← eval env r
      return op.apply a b
  | e => .error (.notCondition e)

end Expr

end HybridAutomata
