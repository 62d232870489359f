import HybridAutomata.Automaton.Basic
import HybridAutomata.Failure

/-!
# Integrity of a flat automaton

The rules: no name is both variable and constant; a mode is stored under its own name; formulas
mention declared names only; flows and resets are for variables; a transition joins modes of the
automaton. All violations are listed, in the order in which they are looked for; the first one is
what a check reports.
-/

namespace HybridAutomata

/-- Succeeds without violations, and fails with the first one otherwise. -/
def Violation.check {α : Type} : List (Violation α) → Except (Failure α) Unit
  | [] => .ok ()
  | violation :: _ => .error (.invalid violation)

@[simp] theorem Violation.check_eq_ok_iff {α : Type} {vs : List (Violation α)} :
    Violation.check vs = .ok () ↔ vs = [] := by
  cases vs <;> simp [Violation.check]

namespace Automaton

variable {α : Type}

/-- A violation for each undeclared name in a formula. -/
def referenceViolations (a : Automaton α) (subject : Subject) (e : Expr α) : List (Violation α) :=
  (a.undeclaredIn e).map fun name => ⟨subject, .undeclaredReference e name⟩

/-- The violations of a flow or a reset entry; `undeclared` is the one for a target that is no
variable. -/
def assignmentViolations (a : Automaton α) (subject : Subject) (undeclared : String → Problem α)
    (entry : String × Perturbed α) : List (Violation α) :=
  (if a.vars.contains entry.1 then [] else [⟨subject, undeclared entry.1⟩]) ++
    a.referenceViolations subject entry.2.expr

def constantViolations (a : Automaton α) (name : String) : List (Violation α) :=
  if a.vars.contains name then [⟨.constant name a.path, .declaredTwice⟩] else []

def modeViolations (a : Automaton α) (key : String) (m : Mode α) : List (Violation α) :=
  let subject := Subject.mode key a.path
  (if key = m.name then [] else [⟨subject, .storedElsewhere m.name⟩]) ++
    a.referenceViolations subject m.invariant ++
    m.flows.flatMap (a.assignmentViolations subject .undeclaredFlow)

def endpointViolations (a : Automaton α) (subject : Subject) (mode : String) : List (Violation α) :=
  if a.modes.contains mode then [] else [⟨subject, .foreignMode mode⟩]

def transitionViolations (a : Automaton α) (t : Transition α) : List (Violation α) :=
  let subject := Subject.transition t.source t.target a.path
  a.endpointViolations subject t.source ++ a.endpointViolations subject t.target ++
    a.referenceViolations subject t.guard ++
    t.reset.entries.flatMap (a.assignmentViolations subject .undeclaredReset)

/-- All violations: of the constants, then the modes, then the transitions. -/
def violations (a : Automaton α) : List (Violation α) :=
  a.constants.keys.flatMap a.constantViolations ++
    a.modes.entries.flatMap (fun entry => a.modeViolations entry.1 entry.2) ++
    a.transitions.flatMap a.transitionViolations

end Automaton

end HybridAutomata
