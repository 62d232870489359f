import HybridAutomata.Expr.Simplify
import HybridAutomata.Model.Basic

/-!
# Impossible modes

A mode whose invariant cannot hold is removed, with the transitions and regions that belong to it.
Only simple contradictions are seen: a conjunct that simplifies to `false`, and bounds on one
variable by numbers that exclude each other.
-/

namespace HybridAutomata

variable {α : Type} [Scalar α]

/-- A number that a variable does not pass, and whether it may not reach it either. -/
structure Bound (α : Type) where
  value : α
  strict : Bool

namespace Bound

/-- Whether a lower bound is to replace another. -/
def isAbove (new old : Bound α) : Bool :=
  decide (old.value < new.value) || (new.value == old.value && new.strict)

/-- Whether an upper bound is to replace another. -/
def isBelow (new old : Bound α) : Bool :=
  decide (new.value < old.value) || (new.value == old.value && new.strict)

/-- The bound that decides among several, of which `replaces` compares a later with an earlier
one. -/
def tightest (replaces : Bound α → Bound α → Bool) : List (Bound α) → Option (Bound α)
  | [] => none
  | b :: bs => some (bs.foldl (fun old new => if replaces new old then new else old) b)

/-- No number is between the bounds. -/
def exclude (lower upper : Bound α) : Bool :=
  decide (upper.value < lower.value) ||
    (lower.value == upper.value && (lower.strict || upper.strict))

end Bound

/-- A comparison of a variable with a number. -/
structure NumberComparison (α : Type) where
  name : String
  op : Comparison
  value : α

namespace NumberComparison

/-- Reads a comparison of a variable with a number, on either side. -/
def ofExpr? : Expr α → Option (NumberComparison α)
  | .binary (.compare op) (.var name) (.num value) => some ⟨name, op, value⟩
  | .binary (.compare op) (.num value) (.var name) => some ⟨name, op.converse, value⟩
  | _ => none

def lower? (c : NumberComparison α) : Option (Bound α) :=
  match c.op with
  | .eq | .ge => some ⟨c.value, false⟩
  | .gt => some ⟨c.value, true⟩
  | _ => none

def upper? (c : NumberComparison α) : Option (Bound α) :=
  match c.op with
  | .eq | .le => some ⟨c.value, false⟩
  | .lt => some ⟨c.value, true⟩
  | _ => none

/-- The comparisons of one variable cannot hold together. -/
def contradict (cs : List (NumberComparison α)) : Bool :=
  match Bound.tightest Bound.isAbove (cs.filterMap lower?),
    Bound.tightest Bound.isBelow (cs.filterMap upper?) with
  | some lower, some upper => lower.exclude upper
  | _, _ => false

end NumberComparison

namespace Expr

/-- A contradiction that shows without solving anything. -/
def isPlainlyUnsatisfiable (e : Expr α) : Bool :=
  let conjuncts := e.simplify.conjuncts
  let comparisons := conjuncts.filterMap NumberComparison.ofExpr?
  conjuncts.any isFalse ||
    comparisons.any fun c => NumberComparison.contradict (comparisons.filter (·.name == c.name))

end Expr

namespace Automaton

/-- The names of the modes whose invariants cannot hold. -/
def impossibleModes (a : Automaton α) : List String :=
  (a.modes.values.filter (·.invariant.isPlainlyUnsatisfiable)).map Mode.name

/-- Removes the modes whose invariants cannot hold, and their transitions. -/
def withoutImpossibleModes (a : Automaton α) : Automaton α :=
  let gone := a.impossibleModes
  { a with
    modes := a.modes.filter fun name _ => !gone.contains name
    transitions := a.transitions.filter fun t =>
      !gone.contains t.source && !gone.contains t.target }

end Automaton

namespace Model

/-- Removes the modes whose invariants cannot hold. -/
def withoutImpossibleModes (m : Model α) : Model α :=
  if m.root.automata.all (·.impossibleModes.isEmpty) then m
  else
    let root := m.root.mapAutomata Automaton.withoutImpossibleModes
    let names := root.modeNames
    let keep (regions : NameMap (Expr α)) := regions.filter fun mode _ => names.contains mode
    { m with root, init := keep m.init, forbidden := keep m.forbidden }

end Model

end HybridAutomata
