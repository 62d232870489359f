import HybridAutomata.Model.Basic

/-!
# Plain jumps

Two rewritings of transitions that keep what can happen: a variable that keeps its value is assigned
to itself, and a transition whose guard is a disjunction becomes one transition per disjunct.
-/

namespace HybridAutomata

variable {α : Type}

namespace Transition

/-- Assigns to themselves the variables that are not assigned. -/
def withIdentities (vars : List String) (t : Transition α) : Transition α :=
  { t with
    reset := vars.foldl
      (fun reset name =>
        if reset.contains name then reset else reset.insert name (.exact (.var name)))
      t.reset }

/-- One transition per disjunct of the guard. -/
def split (t : Transition α) : List (Transition α) :=
  t.guard.disjuncts.map fun guard => { t with guard }

end Transition

namespace Model

/-- Makes every new value explicit. -/
def withIdentityResets (m : Model α) : Except (Failure α) (Model α) := do
  let a ← m.automaton
  return m.withAutomaton
    { a with transitions := a.transitions.map (·.withIdentities a.vars.toList) }

/-- Splits the transitions whose guards are disjunctions. -/
def splitDisjunctions (m : Model α) : Except (Failure α) (Model α) := do
  let a ← m.automaton
  return m.withAutomaton { a with transitions := a.transitions.flatMap Transition.split }

end Model

end HybridAutomata
