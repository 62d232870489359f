import HybridAutomata.Model.Basic

/-!
# Scaled time

With every rate multiplied by a positive number, the same trajectories are run through that much
faster; the time horizon and the step hint shrink accordingly.
-/

namespace HybridAutomata

open Scalar

variable {α : Type} [Scalar α]

/-- The product with a number; of two numbers, the product itself. -/
def Expr.scaled (factor : α) : Expr α → Expr α
  | .num value => .num (value * factor)
  | e => .mul (.num factor) e

/-- The product with a number, uncertainty included. -/
def Perturbed.scaled (factor : α) (p : Perturbed α) : Except (Fault α) (Perturbed α) := do
  return { expr := p.expr.scaled factor, noise := ← p.noise.mapM (·.scale factor) }

/-- Multiplies every rate by a number. -/
def Automaton.scaled (factor : α) (a : Automaton α) : Except (Fault α) (Automaton α) :=
  a.mapModesM (·.mapFlowM (·.scaled factor))

namespace Model

/-- Multiplies every rate by a positive number. -/
def scaleTime (m : Model α) (factor : α) (pass : String) : Except (Failure α) (Model α) := do
  if isPositive factor then
    let root ← (m.root.mapAutomataM (·.scaled factor) : Except (Fault α) (Component α))
    return { m with
      root
      settings := { m.settings with
        horizon := m.settings.horizon / factor
        step := m.settings.step / factor } }
  else throw (.parameters pass (.multiplierNotPositive factor))

end Model

end HybridAutomata
