import HybridAutomata.Expr.Simplify

/-!
# Differentiation

Symbolic partial derivatives, the coefficient of a name in which a formula is affine, and the
derivative of a formula along a flow.
-/

namespace HybridAutomata

namespace Expr

open Scalar

variable {α : Type} [Scalar α]

/-- The derivative of a named function of one argument, at `u`. -/
def outerDerivative? (name : String) (u : Expr α) : Option (Expr α) :=
  match name with
  | "sin" => some (.call "cos" [u])
  | "cos" => some (neg (.call "sin" [u]))
  | "tan" => some (div (.num 1) (pow (.call "cos" [u]) (.num 2)))
  | "exp" => some (.call "exp" [u])
  | "ln" | "log" => some (div (.num 1) u)
  | "sqrt" => some (div (.num 1) (mul (.num 2) (.call "sqrt" [u])))
  | _ => none

/-- The partial derivative, not simplified. A formula in which the name does not occur has the
derivative zero whatever its shape; a condition has none. -/
def rawDerivative (name : String) (e : Expr α) : Except (EvalError α) (Expr α) :=
  if e.isCondition then .error (.notNumeric e)
  else if !e.mentions name then .ok (.num 0)
  else
    match e with
    | .var _ => .ok (.num 1)
    | .unary .neg u => do return neg (← rawDerivative name u)
    | .binary (.arith .add) u v => do
        let du ← rawDerivative name u
        let dv ← rawDerivative name v
        return add du dv
    | .binary (.arith .sub) u v => do
        let du ← rawDerivative name u
        let dv ← rawDerivative name v
        return sub du dv
    | .binary (.arith .mul) u v => do
        let du ← rawDerivative name u
        let dv ← rawDerivative name v
        return add (mul du v) (mul u dv)
    | .binary (.arith .div) u v => do
        let du ← rawDerivative name u
        let dv ← rawDerivative name v
        return div (sub (mul du v) (mul u dv)) (pow v (.num 2))
    | .binary (.arith .pow) u v => do
        let du ← rawDerivative name u
        if v.mentions name then
          -- `(u ^ v)' = u ^ v * (v' * ln u + v * u' / u)`
          let dv ← rawDerivative name v
          return mul e (add (mul dv (.call "ln" [u])) (div (mul v du) u))
        else
          -- `(u ^ n)' = n * u ^ (n - 1) * u'`
          return mul (mul v (pow u (sub v (.num 1)))) du
    | .call function [u] => do
        let du ← rawDerivative name u
        match outerDerivative? function u with
        | some outer => return mul outer du
        | none => throw (.notDifferentiable e)
    | _ => .error (.notDifferentiable e)

/-- The partial derivative with respect to a name. -/
def derivative (name : String) (e : Expr α) : Except (EvalError α) (Expr α) :=
  (rawDerivative name e).map simplify

/-- The number `c` such that the formula is `c * name` plus terms without the name, if the
derivative shows that there is one. -/
def linearCoefficient? (name : String) (e : Expr α) : Option α :=
  match e.derivative name with
  | .ok d => if d.vars.isEmpty then (d.eval fun _ => none).toOption else none
  | .error _ => none

/-- The terms `∂e/∂x * flow(x)` of the names that occur. -/
def lieTerms (e : Expr α) : List (String × Expr α) → Except (EvalError α) (List (Expr α))
  | [] => .ok []
  | (name, rate) :: flows => do
      if e.mentions name then
        let d ← e.derivative name
        return mul d rate :: (← lieTerms e flows)
      else lieTerms e flows

/-- The sum of the terms, from left to right; zero for none. -/
def sum : List (Expr α) → Expr α
  | [] => .num 0
  | e :: es => es.foldl add e

/-- The rate at which a formula changes along a flow. -/
def lieDerivative (flows : List (String × Expr α)) (e : Expr α) :
    Except (EvalError α) (Expr α) := do
  return (sum (← e.lieTerms flows)).simplify

end Expr

end HybridAutomata
