import HybridAutomata.Component.Basic
import HybridAutomata.Failure

/-!
# Models

A model is a tree of components with initial and forbidden regions, one formula per mode name, and
settings for the tools that analyse it.
-/

namespace HybridAutomata

/-- Settings for analysis tools. -/
structure Settings (α : Type) where
  horizon : α
  /-- A hint for the step of reachability tools. -/
  step : α
  maxJumps : Nat := 1000
  /-- The variables on the two axes of a plot; empty if not chosen. -/
  plot : String × String := ("", "")

def Settings.initial {α : Type} [Scalar α] : Settings α := { horizon := 10, step := 0.01 }

structure Model (α : Type) where
  root : Component α
  init : NameMap (Expr α) := ∅
  forbidden : NameMap (Expr α) := ∅
  settings : Settings α

namespace Model

variable {α : Type}

/-- A model without regions and with the usual settings. -/
def ofComponent [Scalar α] (root : Component α) : Model α := { root, settings := .initial }

/-- The root as a flat automaton. -/
def automaton (m : Model α) : Except (Failure α) (Automaton α) :=
  match m.root.automaton? with
  | some a => .ok a
  | none => .error (.unsupported .configurationRoot .notFlat)

/-- The model with a flat root. -/
def withAutomaton (m : Model α) (a : Automaton α) : Model α := { m with root := .flat a }

/-- Applies `f` to the formulas of all regions. -/
def mapRegions (f : Expr α → Expr α) (m : Model α) : Model α :=
  { m with init := m.init.map f, forbidden := m.forbidden.map f }

end Model

end HybridAutomata
