import HybridAutomata.Component.Basic
import HybridAutomata.Automaton.Validity

/-!
# Integrity of a network

Links join declared names, and every child knows the path that its instance name gives it. The
children obey the rules of components in turn.
-/

namespace HybridAutomata

namespace Component

variable {α : Type}

/-- The violations of one link between a network and a child. -/
def linkViolations (scope childScope : Scope α) (place : Path) (link : Link) : List (Violation α) :=
  (if scope.declares link.parent then [] else [⟨.child place, .undeclaredParent link.parent⟩]) ++
    (if childScope.declares link.child then [] else [⟨.child place, .undeclaredChild link.child⟩])

mutual

/-- All violations of a tree, in the order in which they are looked for. -/
def violations : Component α → List (Violation α)
  | flat automaton => automaton.violations
  | network scope children => childViolations scope children

/-- The violations of the instances of a network that declares `scope`. -/
def childViolations (scope : Scope α) {taken : List String} : Children α taken → List (Violation α)
  | .none => []
  | .more name _ links child rest =>
      let place := scope.path.child name
      links.flatMap (linkViolations scope child.scope place) ++
        (if child.path = place then [] else [⟨.child place, .misplacedChild⟩]) ++
        violations child ++ childViolations scope rest

end

end Component

end HybridAutomata
