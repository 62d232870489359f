import HybridAutomata.Automaton.Validity

/-!
# Products of automata

Automata side by side, without synchronization. A mode of the product is a choice of one mode per
automaton; a transition of one automaton moves its own choice and leaves the others. The rates of
the chosen modes are joined, and no variable may get its rate from two of them.
-/

namespace HybridAutomata

/-- A mode of an automaton of the tree. -/
structure Leaf where
  path : Path
  mode : String
deriving DecidableEq, Repr

/-- A mode that a product can choose, with the leaves it is made of. -/
structure Choice (α : Type) where
  key : String
  mode : Mode α
  leaves : List Leaf

/-- An automaton of a product. -/
structure Factor (α : Type) where
  automaton : Automaton α
  /-- For each mode, in order, the leaves it is made of. -/
  leaves : List (List Leaf)

variable {α : Type}

namespace Factor

/-- The modes to choose from. -/
def choices (f : Factor α) : List (Choice α) :=
  (f.automaton.modes.entries.zip f.leaves).map fun ((key, mode), leaves) => ⟨key, mode, leaves⟩

/-- The mode of a name. -/
def choice? (f : Factor α) (key : String) : Option (Choice α) :=
  f.choices.find? (·.key == key)

end Factor

namespace Product

/-- All ways to take one item from every list; the last list is run through fastest. -/
def tuples {β : Type} : List (List β) → List (List β)
  | [] => [[]]
  | items :: rest => items.flatMap fun item => (tuples rest).map (item :: ·)

/-- The name of a product mode: the names of the chosen modes, joined by points. -/
def modeName (tuple : List (Choice α)) : String := ".".intercalate (tuple.map (·.mode.name))

/-- Joins the rates of one mode to those of others; two of them must not be for one variable. -/
def joinRates (mode : String) (flow : NameMap (Perturbed α)) :
    List (String × Perturbed α) → Except (Failure α) (NameMap (Perturbed α))
  | [] => .ok flow
  | (name, rate) :: rates =>
      if flow.contains name then .error (.unsupported (.mode mode .root) (.flowConflict name))
      else joinRates mode (flow.insert name rate) rates

/-- The flow of a product mode; none if a chosen mode has none. -/
def flow (mode : String) (parts : List (Mode α)) :
    Except (Failure α) (Option (NameMap (Perturbed α))) :=
  if parts.all Mode.hasFlow then some <$> joinRates mode ∅ (parts.flatMap Mode.flows)
  else .ok none

/-- The product mode of a tuple. -/
def mode (tuple : List (Choice α)) : Except (Failure α) (Mode α) := do
  let parts := tuple.map Choice.mode
  let name := modeName tuple
  return {
    name
    flow := ← flow name parts
    invariant := Expr.andAll (parts.map Mode.invariant)
    urgent := parts.any Mode.urgent }

/-- A transition of the factor at a position, taken from a tuple. -/
def move (tuple : List (Choice α)) (position : Nat) (factor : Factor α) (t : Transition α) :
    Except (Failure α) (Transition α) :=
  match factor.choice? t.target with
  | some target =>
      .ok { t with source := modeName tuple, target := modeName (tuple.set position target) }
  | none =>
      .error (.invalid ⟨.transition t.source t.target .root, .missingTarget t.target⟩)

/-- The transitions that begin in the product mode of a tuple. -/
def moves (factors : List (Factor α)) (tuple : List (Choice α)) :
    Except (Failure α) (List (Transition α)) := do
  return (← ((factors.zip tuple).zipIdx).mapM fun ((factor, choice), position) =>
    (factor.automaton.transitionsFrom choice.key).mapM (move tuple position factor)).flatten

/-- The modes of a product by their names, with their leaves. -/
def modes (tuples : List (List (Choice α))) :
    Except (Failure α) (NameMap (Mode α × List Leaf)) := do
  return .ofList (← tuples.mapM fun tuple => do
    let m ← mode tuple
    return (m.name, m, tuple.flatMap Choice.leaves))

/-- The product of factors inside a component that declares `scope`. -/
def ofFactors (scope : Scope α) (factors : List (Factor α)) : Except (Failure α) (Factor α) := do
  let tuples := tuples (factors.map Factor.choices)
  let modes ← modes tuples
  let transitions ← tuples.mapM (moves factors)
  return {
    automaton := { scope with modes := modes.map Prod.fst, transitions := transitions.flatten }
    leaves := modes.values.map Prod.snd }

end Product

end HybridAutomata
