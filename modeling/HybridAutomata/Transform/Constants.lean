import HybridAutomata.Model.Basic

/-!
# Substitution of constants

A constant whose interval is a single point is replaced by that number. The constants of a network
are replaced in its children too, except where a child has a variable of that name. Regions see the
constants of the root.
-/

namespace HybridAutomata

variable {α : Type} [Scalar α]

namespace Scope

/-- The constants that are known exactly, with their values. -/
def pointConstants (s : Scope α) : NameMap α :=
  (s.constants.filter fun _ value => value.isPoint).map Interval.min

/-- Drops the constants that are known exactly. -/
def withoutPoints (s : Scope α) : Scope α :=
  { s with constants := s.constants.filter fun _ value => !value.isPoint }

/-- The values known inside a component, given those known around it. -/
def knownValues (s : Scope α) (inherited : NameMap α) : NameMap α :=
  inherited.insertAll s.pointConstants.entries

/-- The values of which a component is to know, given all that are known around it: its own
variables hide others. -/
def visibleValues (s : Scope α) (known : NameMap α) : NameMap α :=
  known.filter fun name _ => !s.vars.contains name

end Scope

namespace Expr

/-- Puts numbers in place of names. -/
def substituteValues (values : NameMap α) (e : Expr α) : Expr α :=
  e.substituteWith fun name => (values.find? name).map .num

end Expr

namespace Automaton

/-- Replaces the constants known exactly and those inherited. -/
def substituteConstants (inherited : NameMap α) (a : Automaton α) : Automaton α :=
  { a.mapExprs (·.substituteValues (a.knownValues inherited)) with
    toScope := a.toScope.withoutPoints }

end Automaton

namespace Component

mutual

/-- Replaces the constants known exactly and those inherited, in a whole tree. -/
def substituteConstants (inherited : NameMap α) : Component α → Component α
  | flat automaton => flat (automaton.substituteConstants inherited)
  | network scope children =>
      network scope.withoutPoints (substituteInChildren (scope.knownValues inherited) children)

/-- Replaces constants in the children of a network in which `known` is known. -/
def substituteInChildren (known : NameMap α) {taken : List String} :
    Children α taken → Children α taken
  | .none => .none
  | .more name fresh links child rest =>
      .more name fresh links (substituteConstants (child.scope.visibleValues known) child)
        (substituteInChildren known rest)

end

end Component

namespace Model

/-- Replaces the constants that are known exactly. -/
def substituteConstants (m : Model α) : Model α :=
  { m.mapRegions (·.substituteValues m.root.scope.pointConstants) with
    root := m.root.substituteConstants ∅ }

end Model

end HybridAutomata
