import HybridAutomata.Model.Basic
import HybridAutomata.Component.Validity

/-!
# Integrity of a model

Beyond the rules of components: regions belong to modes of the model and mention declared names,
plot variables are declared, and the time horizon is positive and finite. Inside a network a mode
and a name may be qualified by instance names.
-/

namespace HybridAutomata

namespace Model

variable {α : Type} [Scalar α]

/-- The violations of one region, given the names of the model. -/
def regionViolations (modes : List String) (names : NameSet) (kind : RegionKind)
    (entry : String × Expr α) : List (Violation α) :=
  let subject := Subject.region kind entry.1
  (if modes.contains entry.1 then [] else [⟨subject, .noSuchMode⟩]) ++
    (entry.2.vars.filter (!names.contains ·)).map fun name =>
      ⟨subject, .undeclaredReference entry.2 name⟩

def plotViolations (names : NameSet) (name : String) : List (Violation α) :=
  if name.isEmpty || names.contains name then [] else [⟨.settings, .undeclaredPlot name⟩]

def horizonViolations (horizon : α) : List (Violation α) :=
  if Scalar.isPositive horizon then []
  else [⟨.settings, .horizonNotPositive horizon⟩]

/-- All violations, in the order in which they are looked for. -/
def violations (m : Model α) : List (Violation α) :=
  let modes := m.root.modeNames
  let names := m.root.qualifiedNames
  m.root.violations ++
    m.init.entries.flatMap (regionViolations modes names .initial) ++
    m.forbidden.entries.flatMap (regionViolations modes names .forbidden) ++
    plotViolations names m.settings.plot.1 ++ plotViolations names m.settings.plot.2 ++
    horizonViolations m.settings.horizon

/-- A model that breaks no rule. -/
def Valid (m : Model α) : Prop := m.violations = []

/-- Fails with the first violation. -/
def validate (m : Model α) : Except (Failure α) Unit := Violation.check m.violations

theorem validate_eq_ok_iff {m : Model α} : m.validate = .ok () ↔ m.Valid :=
  Violation.check_eq_ok_iff

end Model

end HybridAutomata
