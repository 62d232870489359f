import HybridAutomata.Model.Basic

/-!
# Graphs of automata

A flat automaton as a directed graph in the DOT notation. Modes are rounded nodes labelled with
their invariant and their flow: dashed if urgent, filled if they stand for a range estimate that was
left. An initial mode has an arrow from a point of its own, labelled with its region.
-/

namespace HybridAutomata

/-- How a graph is drawn. -/
structure GraphStyle where
  modeShape : String := "box"
  /-- The colour of the modes that a left range estimate leads to. -/
  errorColor : String := "lightcoral"
  flows : Bool := true
  invariants : Bool := true
  spelling : Spelling := .standard

/-- A line of a graph. -/
inductive GraphStatement where
  | defaults (shape : String)
  | node (name label : String) (styles : List String) (fill : Option String)
  | start (name : String)
  | edge (source target label : String)

namespace GraphStatement

/-- A character inside a quoted text. -/
def escapeChar (c : Char) : String :=
  if c = '\\' then "\\\\" else if c = '"' then "\\\"" else c.toString

/-- A text inside quotes. -/
def escape (text : String) : String := String.join (text.toList.map escapeChar)

def render : GraphStatement → String
  | defaults shape => "node [shape=" ++ shape ++ ", style=rounded];"
  | node name label styles fill =>
      name ++ " [label=\"" ++ label ++ "\", style=\"" ++ ",".intercalate styles ++ "\"" ++
        (match fill with
        | some color => ", fillcolor=" ++ color
        | none => "") ++ "];"
  | start name => name ++ " [shape=point];"
  | edge source target label => source ++ " -> " ++ target ++ " [label=\"" ++ label ++ "\"];"

end GraphStatement

namespace Model

open GraphStatement

variable {α : Type} [Scalar α] [DecimalText α]

/-- Whether a mode is one that a left range estimate leads to, judged by its name. -/
def isErrorName (name : String) : Bool :=
  name.endsWith "_error_lower" || name.endsWith "_error_upper"

/-- A line inside a label: a name, a sign and a value. -/
def labelLine (style : GraphStyle) (sign : String) (entry : String × Perturbed α) : String :=
  "\\n" ++ entry.1 ++ sign ++ escape (entry.2.render style.spelling)

/-- The label of a mode. -/
def modeLabel (style : GraphStyle) (name : String) (m : Mode α) : String :=
  escape name ++
    (if style.invariants && !m.invariant.isTrue then
      "\\n" ++ escape (m.invariant.render style.spelling) else "") ++
    (if style.flows then String.join (m.flows.map (labelLine style "' = ")) else "")

/-- The node of the mode at a position. -/
def modeNode (style : GraphStyle) (index : Nat) (name : String) (m : Mode α) : GraphStatement :=
  let isError := isErrorName name
  .node ("m" ++ toString index) (modeLabel style name m)
    ("rounded" :: (if m.urgent then ["dashed"] else []) ++ (if isError then ["filled"] else []))
    (if isError then some style.errorColor else none)

/-- The point and the arrow that mark an initial mode. -/
def initialMark (style : GraphStyle) (index : Nat) (region : Expr α) : List GraphStatement :=
  let point := "s" ++ toString index
  [.start point,
    .edge point ("m" ++ toString index) (escape (region.render style.spelling))]

/-- The label of a transition. -/
def transitionLabel (style : GraphStyle) (t : Transition α) : String :=
  (if t.guard.isTrue then "" else escape (t.guard.render style.spelling)) ++
    String.join (t.reset.entries.map (labelLine style " := "))

/-- The edge of a transition between modes of the automaton. -/
def transitionEdge? (style : GraphStyle) (a : Automaton α) (t : Transition α) :
    Option GraphStatement := do
  let source ← a.modes.indexOf? t.source
  let target ← a.modes.indexOf? t.target
  return .edge ("m" ++ toString source) ("m" ++ toString target) (transitionLabel style t)

/-- The statements of a flat automaton with initial regions. -/
def graphStatements (style : GraphStyle) (a : Automaton α) (init : NameMap (Expr α)) :
    List GraphStatement :=
  .defaults style.modeShape ::
    (a.modes.entries.mapIdx fun i entry => modeNode style i entry.1 entry.2) ++
    (a.modes.keys.mapIdx fun i name =>
      match init.find? name with
      | some region => initialMark style i region
      | none => []).flatten ++
    a.transitions.filterMap (transitionEdge? style a)

/-- The graph of a model with a flat root. -/
def graph (style : GraphStyle) (m : Model α) : Except (Failure α) String := do
  let a ← m.automaton
  let statements := (graphStatements style a m.init).map render
  return String.join ((["digraph \x7b"] ++ statements ++ ["\x7d"]).map (· ++ "\n"))

end Model

end HybridAutomata
