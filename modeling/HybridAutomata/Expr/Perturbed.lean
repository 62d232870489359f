import HybridAutomata.Interval
import HybridAutomata.Expr.Printer

/-!
# Perturbed formulas

The right-hand side of a flow or a reset is a formula to which an unknown number from an interval
is added. Without an interval the value is exact.
-/

namespace HybridAutomata

/-- The value of `expr` plus any number from `noise`. -/
structure Perturbed (α : Type) where
  expr : Expr α
  noise : Option (Interval α) := none

namespace Perturbed

variable {α : Type} [Scalar α]

/-- The value of a formula alone. -/
def exact (expr : Expr α) : Perturbed α := ⟨expr, none⟩

def isExact (p : Perturbed α) : Bool := p.noise.isNone

/-- The interval added to the formula; zero if the value is exact. -/
def noiseOrZero (p : Perturbed α) : Interval α := p.noise.getD .zero

/-- Adds an interval to the uncertainty. -/
def widen (p : Perturbed α) (extra : Interval α) : Except (Fault α) (Perturbed α) := do
  return { p with noise := some (← p.noiseOrZero.add extra) }

/-- Applies `f` to the formula and keeps the uncertainty. -/
def mapExpr (f : Expr α → Expr α) (p : Perturbed α) : Perturbed α := { p with expr := f p.expr }

/-- The sum; exact if both operands are. -/
def add (p q : Perturbed α) : Except (Fault α) (Perturbed α) :=
  match p.noise, q.noise with
  | none, none => .ok ⟨p.expr.add q.expr, none⟩
  | _, _ => do return ⟨p.expr.add q.expr, some (← p.noiseOrZero.add q.noiseOrZero)⟩

/-- The written form: the formula, and the interval behind a plus sign. -/
def render [DecimalText α] (s : Spelling) (p : Perturbed α) : String :=
  match p.noise with
  | some i => p.expr.render s ++ " + " ++ i.text
  | none => p.expr.render s

end Perturbed

end HybridAutomata
