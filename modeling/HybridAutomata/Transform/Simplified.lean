import HybridAutomata.Expr.Simplify
import HybridAutomata.Model.Basic

/-!
# Simplified models

Every formula of the tree and of the regions is simplified; declarations, modes and transitions stay
what they are.
-/

namespace HybridAutomata

namespace Model

variable {α : Type} [Scalar α]

/-- Simplifies every formula. -/
def simplify (m : Model α) : Model α :=
  { m.mapRegions Expr.simplify with root := m.root.mapExprs Expr.simplify }

end Model

end HybridAutomata
