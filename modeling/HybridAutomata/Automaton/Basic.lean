import HybridAutomata.Names
import HybridAutomata.Component.Path
import HybridAutomata.Expr.Perturbed

/-!
# Flat automata

A mode gives every variable a rate, as long as its invariant holds; a transition may be taken when
its guard holds, and sets some variables anew. Transitions name the modes they join, so that modes
can be renamed or replaced without mending references; a transition that names a mode the automaton
does not have is an integrity violation and not impossible.
-/

namespace HybridAutomata

/-- A discrete state. -/
structure Mode (α : Type) where
  name : String
  /-- The rate of each variable. Without a flow, time does not pass in the mode. -/
  flow : Option (NameMap (Perturbed α)) := some ∅
  invariant : Expr α := .bool true
  /-- An urgent mode is left at once. -/
  urgent : Bool := false

namespace Mode

variable {α : Type}

/-- An urgent mode in which time does not pass. -/
def instant (name : String) : Mode α := { name, flow := none, urgent := true }

def hasFlow (m : Mode α) : Bool := m.flow.isSome

/-- The entries of the flow; none if the mode has no flow. -/
def flows (m : Mode α) : List (String × Perturbed α) :=
  match m.flow with
  | some flow => flow.entries
  | none => []

/-- The rate of a variable. -/
def flowOf? (m : Mode α) (name : String) : Option (Perturbed α) := m.flow.bind (·.find? name)

/-- Sets the rate of a variable; a mode without a flow gets one. -/
def setFlow (m : Mode α) (name : String) (rate : Perturbed α) : Mode α :=
  { m with flow := some ((m.flow.getD ∅).insert name rate) }

/-- Applies `f` to every rate. -/
def mapFlow (f : String → Perturbed α → Perturbed α) (m : Mode α) : Mode α :=
  { m with flow := m.flow.map (·.mapWithKey f) }

/-- Applies `f`, which may fail, to every rate. -/
def mapFlowM {ε : Type} (f : Perturbed α → Except ε (Perturbed α)) (m : Mode α) :
    Except ε (Mode α) := do
  return { m with flow := ← m.flow.mapM (·.mapM f) }

/-- Whether a variable measures time in the mode: its rate is the number one, exactly. -/
def isClock [Scalar α] (m : Mode α) (name : String) : Bool :=
  match m.flowOf? name with
  | some ⟨.num rate, none⟩ => rate == 1
  | _ => false

/-- Applies `f` to the rates and the invariant. -/
def mapExprs (f : Expr α → Expr α) (m : Mode α) : Mode α :=
  { m.mapFlow (fun _ rate => rate.mapExpr f) with invariant := f m.invariant }

end Mode

/-- A guarded jump between two modes. -/
structure Transition (α : Type) where
  source : String
  target : String
  guard : Expr α := .bool true
  /-- The new values. A variable that has none keeps its value. -/
  reset : NameMap (Perturbed α) := ∅

namespace Transition

variable {α : Type}

def isSelfLoop (t : Transition α) : Bool := t.source == t.target

/-- Applies `f` to the guard and the new values. -/
def mapExprs (f : Expr α → Expr α) (t : Transition α) : Transition α :=
  { t with guard := f t.guard, reset := t.reset.map (·.mapExpr f) }

/-- The transition in messages. -/
def describe (t : Transition α) : String :=
  "transition '" ++ t.source ++ "' -> '" ++ t.target ++ "'"

end Transition

/-- What every component declares, and where in the model it is. -/
structure Scope (α : Type) where
  vars : NameSet := ∅
  /-- Named parameters, each known up to an interval. -/
  constants : NameMap (Interval α) := ∅
  path : Path := .root

namespace Scope

variable {α : Type}

def declares (s : Scope α) (name : String) : Bool :=
  s.vars.contains name || s.constants.contains name

/-- The declared names: the variables, then the constants. -/
def declared (s : Scope α) : List String := s.vars.toList ++ s.constants.keys

/-- Names that a formula mentions and that are not declared, in ascending order. -/
def undeclaredIn (s : Scope α) (e : Expr α) : List String :=
  e.vars.filter (!s.declares ·)

/-- The value of a name when the variables have the given coordinates. A constant is taken at the
middle of its interval. -/
@[inline] def valuation [Scalar α] (s : Scope α) (state : List α) (name : String) : Option α :=
  match coordinate s.vars.toList state name with
  | some value => some value
  | none => (s.constants.find? name).map Interval.middle
where
  /-- The coordinate that belongs to a name. -/
  coordinate {β : Type} : List String → List β → String → Option β
    | name :: names, value :: values, wanted =>
        if name == wanted then some value else coordinate names values wanted
    | _, _, _ => none

/-- The interval of a name when the variables range over a box. -/
@[inline] def ranging (s : Scope α) (box : List (Interval α)) (name : String) :
    Option (Interval α) :=
  match valuation.coordinate s.vars.toList box name with
  | some value => some value
  | none => s.constants.find? name

end Scope

/-- A flat automaton. -/
structure Automaton (α : Type) extends Scope α where
  modes : NameMap (Mode α) := ∅
  transitions : List (Transition α) := []

namespace Automaton

variable {α : Type}

/-! ## Questions -/

def mode? (a : Automaton α) (name : String) : Option (Mode α) := a.modes.find? name

def transitionsFrom (a : Automaton α) (mode : String) : List (Transition α) :=
  a.transitions.filter (·.source == mode)

def transitionsTo (a : Automaton α) (mode : String) : List (Transition α) :=
  a.transitions.filter (·.target == mode)

/-- The names that a list of rates or new values is about or mentions. -/
def assignmentNames (assignments : List (String × Perturbed α)) : List String :=
  assignments.flatMap fun (name, value) => name :: value.expr.vars

/-- Every name that a formula mentions, or that a flow or a reset is for. -/
def referenced (a : Automaton α) : NameSet :=
  .ofList
    (a.modes.values.flatMap (fun m => m.invariant.vars ++ assignmentNames m.flows) ++
      a.transitions.flatMap fun t => t.guard.vars ++ assignmentNames t.reset.entries)

/-- A name qualified by the place of the automaton. -/
def qualified (a : Automaton α) (name : String) : String := a.path.qualify name

/-! ## Changes -/

def addVariable (a : Automaton α) (name : String) : Automaton α :=
  { a with vars := a.vars.insert name }

def addConstant (a : Automaton α) (name : String) (value : Interval α) : Automaton α :=
  { a with constants := a.constants.insert name value }

/-- Adds a mode under its name, in place of one of that name. -/
def addMode (a : Automaton α) (mode : Mode α) : Automaton α :=
  { a with modes := a.modes.insert mode.name mode }

def addTransition (a : Automaton α) (t : Transition α) : Automaton α :=
  { a with transitions := a.transitions ++ [t] }

/-- Applies `f` to every mode. -/
def mapModes (f : Mode α → Mode α) (a : Automaton α) : Automaton α :=
  { a with modes := a.modes.map f }

/-- Applies `f`, which may fail, to every mode. -/
def mapModesM {ε : Type} (f : Mode α → Except ε (Mode α)) (a : Automaton α) :
    Except ε (Automaton α) := do
  return { a with modes := ← a.modes.mapM f }

/-- Applies `f` to the modes in which time passes. -/
def mapFlowing (f : Mode α → Mode α) (a : Automaton α) : Automaton α :=
  a.mapModes fun m => if m.hasFlow then f m else m

/-- Applies `f` to the mode stored under a name. -/
def modifyMode (name : String) (f : Mode α → Mode α) (a : Automaton α) : Automaton α :=
  { a with modes := a.modes.mapWithKey fun key m => if key = name then f m else m }

/-- Applies `f` to every formula. -/
def mapExprs (f : Expr α → Expr α) (a : Automaton α) : Automaton α :=
  { a with
    modes := a.modes.map (·.mapExprs f)
    transitions := a.transitions.map (·.mapExprs f) }

/-- Drops a variable that nothing references. -/
def dropUnused (a : Automaton α) (name : String) : Automaton α :=
  if a.referenced.contains name then a else { a with vars := a.vars.erase name }

/-- Whether `dropUnused` drops a variable. -/
def dropsUnused (a : Automaton α) (name : String) : Bool :=
  !a.referenced.contains name && a.vars.contains name

end Automaton

end HybridAutomata
