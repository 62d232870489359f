import HybridAutomata.Model.Basic

/-!
# Written models

The listing of a model: declarations, modes and transitions of every component, indented by its
depth, then regions and settings. Every line ends with a line feed.
-/

namespace HybridAutomata

variable {α : Type} [Scalar α] [DecimalText α]

namespace Mode

/-- The lines of a mode. -/
def lines (s : Spelling) (m : Mode α) : List String :=
  ("mode " ++ m.name ++ (if m.urgent then " (urgent)" else "")) ::
    ("  invariant: " ++ m.invariant.render s) ::
    match m.flow with
    | some flow => flow.entries.map fun (name, rate) => "  " ++ name ++ "' = " ++ rate.render s
    | none => ["  no flow"]

end Mode

/-- The lines of a transition. -/
def Transition.lines (s : Spelling) (t : Transition α) : List String :=
  ("transition " ++ t.source ++ " -> " ++ t.target) ::
    ("  guard: " ++ t.guard.render s) ::
    t.reset.entries.map fun (name, value) => "  " ++ name ++ " := " ++ value.render s

/-- The lines of what a component declares. -/
def Scope.lines (s : Scope α) : List String :=
  ("variables: " ++ ", ".intercalate s.vars.toList) ::
    s.constants.entries.map fun (name, value) => "constant " ++ name ++ " = " ++ value.text

/-- The line of an instance. -/
def Link.header (name : String) (links : List Link) : String :=
  "instance " ++ name ++ " [" ++
    ", ".intercalate (links.map fun link => link.child ++ " = " ++ link.parent) ++ "]"

namespace Component

mutual

/-- The lines of a component. -/
def lines (s : Spelling) : Component α → List String
  | flat automaton =>
      automaton.toScope.lines ++ automaton.modes.values.flatMap (Mode.lines s) ++
        automaton.transitions.flatMap (Transition.lines s)
  | network scope children => scope.lines ++ childLines s children

/-- The lines of the instances of a network; the lines of a child are indented. -/
def childLines (s : Spelling) {taken : List String} : Children α taken → List String
  | .none => []
  | .more name _ links child rest =>
      Link.header name links :: (lines s child).map ("  " ++ ·) ++ childLines s rest

end

end Component

namespace Model

/-- The lines of the regions of one kind. -/
def regionLines (s : Spelling) (label : String) (regions : NameMap (Expr α)) : List String :=
  regions.entries.map fun (mode, region) => label ++ " " ++ mode ++ ": " ++ region.render s

def settingsLine (settings : Settings α) : String :=
  "settings: time horizon " ++ decimal settings.horizon ++ ", step " ++ decimal settings.step ++
    ", max jumps " ++ toString settings.maxJumps ++
    (if settings.plot.1.isEmpty then ""
      else ", plot " ++ settings.plot.1 ++ " " ++ settings.plot.2)

/-- The listing of a model. -/
def render (s : Spelling) (m : Model α) : String :=
  String.join <|
    (m.root.lines s ++ regionLines s "init" m.init ++ regionLines s "forbidden" m.forbidden ++
      [settingsLine m.settings]).map (· ++ "\n")

end Model

end HybridAutomata
