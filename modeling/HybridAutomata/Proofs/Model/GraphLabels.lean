import HybridAutomata.Decimal.Double
import HybridAutomata.Model.Graph
import HybridAutomata.Proofs.Model.Rules
import HybridAutomata.Proofs.Text.QuotedStrings

/-!
# Labels of graphs

The label of a mode or a transition is put together from a name and formulas, which are escaped, and
from lines for rates and new values. Such a line shows the name of its variable as it is. So every
label of the graph of a valid model is one string exactly if no variable that has a rate or a new
value there has a quote in its name that would end the string. It comes to the same that a reader of
the graph finds the strings that were written into it.
-/

namespace HybridAutomata

open Quotation

namespace GraphStatement

variable {s : GraphStatement} {rest : List Char} {others : List (List Char)}

/-- The label of a node or an edge. -/
def label? : GraphStatement → Option String
  | defaults _ => none
  | node _ label _ _ => some label
  | start _ => none
  | edge _ _ label => some label

/-- The label, if there is one, may stand between quotes. -/
def Quoted (s : GraphStatement) : Prop := ∀ label, s.label? = some label → WellQuoted label.toList

/-- The strings in quotes in the line of a statement. -/
def strings : GraphStatement → List String
  | defaults _ => []
  | node _ label styles _ => [label, ",".intercalate styles]
  | start _ => []
  | edge _ _ label => [label]

/-- Everything but the label is fit for its place: names, the shape and the colour have no quotes,
and the list of styles may stand between them. -/
def Plain : GraphStatement → Prop
  | defaults shape => '"' ∉ shape.toList
  | node name _ styles fill =>
      '"' ∉ name.toList ∧ WellQuoted (",".intercalate styles).toList ∧
        ∀ color, fill = some color → '"' ∉ color.toList
  | start name => '"' ∉ name.toList
  | edge source target _ => '"' ∉ source.toList ∧ '"' ∉ target.toList

theorem wellQuoted_escapeChar (c : Char) : WellQuoted (escapeChar c).toList := by
  rw [escapeChar]
  by_cases slash : c = '\\'
  · rw [if_pos slash]
    decide
  · by_cases quote : c = '"'
    · rw [if_neg slash, if_pos quote]
      decide
    · rw [if_neg slash, if_neg quote, Char.toString_eq_singleton, String.toList_singleton]
      exact wellQuoted_singleton quote slash

theorem wellQuoted_escape (text : String) : WellQuoted (escape text).toList := by
  rw [escape, String.toList_join, List.flatMap_map, List.flatMap_def]
  refine wellQuoted_flatten fun piece mem => ?_
  obtain ⟨c, _, rfl⟩ := List.mem_map.mp mem
  exact wellQuoted_escapeChar c

/-- What stands behind the list of styles. -/
def nodeEnd (fill : Option String) : List Char :=
  (fill.elim [] fun color => (", fillcolor=" ++ color).toList) ++ "];".toList

theorem toList_render_node (name label : String) (styles : List String) (fill : Option String) :
    (node name label styles fill).render.toList =
      (name ++ " [label=").toList ++ '"' :: (label.toList ++ '"' :: (", style=".toList ++
        '"' :: ((",".intercalate styles).toList ++ '"' :: nodeEnd fill))) := by
  cases fill <;> simp [render, nodeEnd]

theorem toList_render_edge (source target label : String) :
    (edge source target label).render.toList =
      (source ++ " -> " ++ target ++ " [label=").toList ++
        '"' :: (label.toList ++ '"' :: "];".toList) := by
  simp [render]

/-- A reader that comes to the line of a statement finds its strings exactly if its label is well
quoted. -/
theorem readStrings_render_iff (plain : s.Plain) :
    readStrings none (s.render.toList ++ rest) = some (s.strings.map String.toList ++ others) ↔
      s.Quoted ∧ readStrings none rest = some others := by
  cases s with
  | defaults shape =>
      have noQuote : '"' ∉ (defaults shape).render.toList := by simpa [render, Plain] using plain
      rw [readStrings_append_of_not_mem noQuote]
      simp [strings, Quoted, label?]
  | start name =>
      have noQuote : '"' ∉ (start name).render.toList := by simpa [render, Plain] using plain
      rw [readStrings_append_of_not_mem noQuote]
      simp [strings, Quoted, label?]
  | edge source target label =>
      have noQuote : '"' ∉ (source ++ " -> " ++ target ++ " [label=").toList := by
        simpa [Plain] using plain
      rw [toList_render_edge, List.append_assoc, List.cons_append, List.append_assoc,
        List.cons_append, strings, List.map_singleton, List.singleton_append,
        readStrings_quoted_iff noQuote, readStrings_append_of_not_mem (by decide)]
      simp [Quoted, label?]
  | node name label styles fill =>
      obtain ⟨nameQuotes, stylesQuoted, colorQuotes⟩ := plain
      have noQuote : '"' ∉ (name ++ " [label=").toList := by simpa using nameQuotes
      have noQuoteAfter : '"' ∉ nodeEnd fill := by
        cases fill with
        | none => decide
        | some color => simpa [nodeEnd] using colorQuotes color rfl
      have text : (node name label styles fill).render.toList ++ rest =
          (name ++ " [label=").toList ++ '"' :: (label.toList ++ '"' :: (", style=".toList ++
            '"' :: ((",".intercalate styles).toList ++ '"' :: (nodeEnd fill ++ rest)))) := by
        simp only [toList_render_node, List.append_assoc, List.cons_append]
      rw [text, strings, List.map_cons, List.map_singleton, List.cons_append,
        List.singleton_append, readStrings_quoted_iff noQuote, readStrings_quoted_iff (by decide),
        readStrings_append_of_not_mem noQuoteAfter]
      simp only [Quoted, label?, Option.some.injEq, forall_eq', stylesQuoted, true_and]

/-- The text of a graph. -/
def document (statements : List GraphStatement) : String :=
  String.join (("digraph \x7b" :: statements.map render ++ ["\x7d"]).map (· ++ "\n"))

theorem toList_document (statements : List GraphStatement) :
    (document statements).toList = "digraph \x7b\n".toList ++
      (statements.flatMap (fun s => s.render.toList ++ ['\n']) ++ "\x7d\n".toList) := by
  simp [document, String.toList_join, List.flatMap_map]

/-- The reader goes through the lines of a graph one by one. -/
theorem readStrings_lines_iff {statements : List GraphStatement}
    (plain : ∀ s ∈ statements, s.Plain) (rest : List Char) (others : List (List Char)) :
    readStrings none (statements.flatMap (fun s => s.render.toList ++ ['\n']) ++ rest) =
        some ((statements.flatMap strings).map String.toList ++ others) ↔
      (∀ s ∈ statements, s.Quoted) ∧ readStrings none rest = some others := by
  induction statements with
  | nil => simp
  | cons s statements ih =>
      obtain ⟨first, remaining⟩ := List.forall_mem_cons.mp plain
      rw [List.flatMap_cons, List.flatMap_cons, List.map_append, List.append_assoc,
        List.append_assoc, List.append_assoc, readStrings_render_iff first,
        readStrings_append_of_not_mem (by decide), ih remaining, List.forall_mem_cons, and_assoc]

/-- A reader finds the strings of a graph exactly if all its labels are well quoted. -/
theorem readStrings_document_iff {statements : List GraphStatement}
    (plain : ∀ s ∈ statements, s.Plain) :
    readStrings none (document statements).toList =
        some ((statements.flatMap strings).map String.toList) ↔
      ∀ s ∈ statements, s.Quoted := by
  have found := readStrings_lines_iff plain "\x7d\n".toList []
  rw [List.append_nil] at found
  rw [toList_document, readStrings_append_of_not_mem (by decide), found]
  exact and_iff_left (by decide)

end GraphStatement

namespace Model

open GraphStatement

variable {α : Type} [Scalar α] [DecimalText α] {style : GraphStyle} {a : Automaton α}

/-! ## Labels -/

/-- Lines for rates or new values may stand between quotes exactly if the quotes in the names of
their variables are escaped. -/
theorem wellQuoted_labelLines_iff {sign : String}
    (resets : ∀ escaped, scan escaped sign.toList = some false)
    {entries : List (String × Perturbed α)} :
    WellQuoted (String.join (entries.map (labelLine style sign))).toList ↔
      ∀ entry ∈ entries, QuotesEscaped entry.1.toList := by
  rw [String.toList_join]
  induction entries with
  | nil => simp [wellQuoted_nil]
  | cons entry entries ih =>
      -- a backslash at the end of the name escapes no more than the beginning of the sign
      have newline : WellQuoted "\\n".toList := by decide
      rw [List.map_cons, List.flatMap_cons, labelLine, String.toList_append, String.toList_append,
        String.toList_append, List.append_assoc, List.append_assoc, List.append_assoc,
        newline.append_iff, wellQuoted_append_iff_of_resets resets,
        (wellQuoted_escape _).append_iff, ih, List.forall_mem_cons]

theorem wellQuoted_modeLabel_iff (name : String) {m : Mode α} :
    WellQuoted (modeLabel style name m).toList ↔
      (style.flows = true → ∀ entry ∈ m.flows, QuotesEscaped entry.1.toList) := by
  have newline : WellQuoted "\\n".toList := by decide
  have invariant : WellQuoted (if style.invariants && !m.invariant.isTrue then
      "\\n" ++ escape (m.invariant.render style.spelling) else "").toList := by
    split
    · rw [String.toList_append, newline.append_iff]
      exact wellQuoted_escape _
    · exact wellQuoted_nil
  rw [modeLabel, String.toList_append, String.toList_append, List.append_assoc,
    (wellQuoted_escape name).append_iff, invariant.append_iff]
  cases shown : style.flows with
  | false => simp [wellQuoted_nil]
  | true => simpa using wellQuoted_labelLines_iff (by decide)

theorem wellQuoted_transitionLabel_iff (style : GraphStyle) {t : Transition α} :
    WellQuoted (transitionLabel style t).toList ↔
      ∀ entry ∈ t.reset.entries, QuotesEscaped entry.1.toList := by
  have guard : WellQuoted (if t.guard.isTrue then ""
      else escape (t.guard.render style.spelling)).toList := by
    split
    · exact wellQuoted_nil
    · exact wellQuoted_escape _
  rw [transitionLabel, String.toList_append, guard.append_iff]
  exact wellQuoted_labelLines_iff (by decide)

/-- Every quote in the names of variables that the labels of a graph show is escaped in the names
themselves. -/
structure ShowsEscaped (style : GraphStyle) (a : Automaton α) : Prop where
  flows : style.flows = true →
    ∀ entry ∈ a.modes.entries, ∀ flow ∈ entry.2.flows, QuotesEscaped flow.1.toList
  resets : ∀ t ∈ a.transitions, ∀ entry ∈ t.reset.entries, QuotesEscaped entry.1.toList

/-! ## Statements -/

/-- A statement of a graph sets the shape, or it draws a mode, marks an initial mode or draws a
transition. -/
theorem mem_graphStatements {init : NameMap (Expr α)} {s : GraphStatement}
    (mem : s ∈ graphStatements style a init) :
    s = .defaults style.modeShape ∨
      (∃ index, ∃ entry ∈ a.modes.entries, s = modeNode style index entry.1 entry.2) ∨
      (∃ index, ∃ region : Expr α, s ∈ initialMark style index region) ∨
      ∃ t ∈ a.transitions, transitionEdge? style a t = some s := by
  simp only [graphStatements, List.cons_append, List.mem_cons, List.mem_append, List.mem_mapIdx,
    List.mem_flatten, List.mem_filterMap] at mem
  obtain shape | (⟨index, inside, rfl⟩ | ⟨_, ⟨index, _, rfl⟩, mark⟩) | drawn := mem
  · exact .inl shape
  · exact .inr (.inl ⟨index, _, List.getElem_mem inside, rfl⟩)
  · refine .inr (.inr (.inl ?_))
    -- a mode without a region has no mark
    split at mark
    · exact ⟨index, _, mark⟩
    · cases mark
  · exact .inr (.inr (.inr drawn))

theorem exists_modeNode_mem_graphStatements (style : GraphStyle) (init : NameMap (Expr α))
    {entry : String × Mode α} (mem : entry ∈ a.modes.entries) :
    ∃ index, modeNode style index entry.1 entry.2 ∈ graphStatements style a init := by
  obtain ⟨index, inside, rfl⟩ := List.mem_iff_getElem.mp mem
  refine ⟨index, ?_⟩
  simp only [graphStatements, List.cons_append, List.mem_cons, List.mem_append, List.mem_mapIdx]
  exact .inr (.inl (.inl ⟨index, inside, rfl⟩))

theorem mem_graphStatements_of_transitionEdge? {init : NameMap (Expr α)} {t : Transition α}
    {s : GraphStatement} (mem : t ∈ a.transitions) (drawn : transitionEdge? style a t = some s) :
    s ∈ graphStatements style a init := by
  simp only [graphStatements, List.mem_append, List.mem_filterMap]
  exact .inr ⟨t, mem, drawn⟩

theorem transitionEdge?_eq_some {t : Transition α} {s : GraphStatement}
    (drawn : transitionEdge? style a t = some s) :
    ∃ source target : Nat,
      s = .edge ("m" ++ toString source) ("m" ++ toString target) (transitionLabel style t) := by
  simp only [transitionEdge?, Option.bind_eq_bind, Option.bind_eq_some_iff,
    Option.pure_def] at drawn
  obtain ⟨source, _, target, _, edge⟩ := drawn
  exact ⟨source, target, (Option.some.inj edge).symm⟩

/-- A transition between modes of the automaton is drawn. -/
theorem exists_transitionEdge? (style : GraphStyle) {t : Transition α}
    (source : t.source ∈ a.modes.keys) (target : t.target ∈ a.modes.keys) :
    ∃ s, transitionEdge? style a t = some s := by
  obtain ⟨i, foundSource⟩ := NameMap.exists_indexOf?_eq_some source
  obtain ⟨j, foundTarget⟩ := NameMap.exists_indexOf?_eq_some target
  refine ⟨.edge ("m" ++ toString i) ("m" ++ toString j) (transitionLabel style t), ?_⟩
  rw [transitionEdge?, foundSource, foundTarget]
  rfl

theorem quoted_modeNode_iff {index : Nat} {name : String} {m : Mode α} :
    (modeNode style index name m).Quoted ↔
      (style.flows = true → ∀ flow ∈ m.flows, QuotesEscaped flow.1.toList) := by
  rw [← wellQuoted_modeLabel_iff name]
  simp [modeNode, Quoted, label?]

theorem quoted_initialMark {index : Nat} {region : Expr α} {s : GraphStatement}
    (mem : s ∈ initialMark style index region) : s.Quoted := by
  rw [initialMark, List.mem_pair] at mem
  obtain rfl | rfl := mem
  · simp [Quoted, label?]
  · simpa [Quoted, label?] using wellQuoted_escape _

theorem quoted_iff_of_transitionEdge? {t : Transition α} {s : GraphStatement}
    (drawn : transitionEdge? style a t = some s) :
    s.Quoted ↔ ∀ entry ∈ t.reset.entries, QuotesEscaped entry.1.toList := by
  obtain ⟨source, target, rfl⟩ := transitionEdge?_eq_some drawn
  rw [← wellQuoted_transitionLabel_iff style]
  simp [Quoted, label?]

/-- If all transitions join modes of the automaton, the labels of its graph are well quoted exactly
if the names of variables that they show are. -/
theorem quoted_graphStatements_iff (style : GraphStyle) (init : NameMap (Expr α))
    (joined : ∀ t ∈ a.transitions, a.KeepsTransition t) :
    (∀ s ∈ graphStatements style a init, s.Quoted) ↔ ShowsEscaped style a := by
  constructor
  · intro quoted
    refine ⟨fun shown entry mem => ?_, fun t mem => ?_⟩
    · obtain ⟨index, node⟩ := exists_modeNode_mem_graphStatements style init mem
      exact quoted_modeNode_iff.mp (quoted _ node) shown
    · -- the automaton has both modes, so that the transition is not left out
      obtain ⟨edge, drawn⟩ := exists_transitionEdge? style (joined t mem).source
        (joined t mem).target
      exact (quoted_iff_of_transitionEdge? drawn).mp
        (quoted edge (mem_graphStatements_of_transitionEdge? mem drawn))
  · intro escaped s mem
    obtain rfl | ⟨index, entry, isMode, rfl⟩ | ⟨index, region, mark⟩ | ⟨t, mem, drawn⟩ :=
      mem_graphStatements mem
    · simp [Quoted, label?]
    · exact quoted_modeNode_iff.mpr fun shown => escaped.flows shown entry isMode
    · exact quoted_initialMark mark
    · exact (quoted_iff_of_transitionEdge? drawn).mpr (escaped.resets t mem)

/-! ## Graphs -/

theorem quote_not_mem_numbered {mark : String} (h : '"' ∉ mark.toList) (number : Nat) :
    '"' ∉ (mark ++ toString number).toList := by
  rw [String.toList_append, Nat.toString_eq_repr, Nat.toList_repr, List.mem_append, not_or]
  refine ⟨h, fun mem => ?_⟩
  have digit := Nat.isDigit_of_mem_toDigits (by decide) (by decide) mem
  exact absurd digit (by decide)

theorem plain_modeNode {index : Nat} {name : String} {m : Mode α}
    (color : '"' ∉ style.errorColor.toList) : (modeNode style index name m).Plain := by
  refine ⟨quote_not_mem_numbered (by decide) index, ?_, fun fill filled => ?_⟩
  · cases m.urgent <;> cases isErrorName name <;> decide
  · split at filled
    · exact Option.some.inj filled ▸ color
    · cases filled

theorem plain_initialMark {index : Nat} {region : Expr α} {s : GraphStatement}
    (mem : s ∈ initialMark style index region) : s.Plain := by
  have point : '"' ∉ ("s" ++ toString index).toList :=
    quote_not_mem_numbered (by decide) index
  rw [initialMark, List.mem_pair] at mem
  obtain rfl | rfl := mem
  · exact point
  · exact ⟨point, quote_not_mem_numbered (by decide) index⟩

theorem plain_graphStatements {init : NameMap (Expr α)} (shape : '"' ∉ style.modeShape.toList)
    (color : '"' ∉ style.errorColor.toList) :
    ∀ s ∈ graphStatements style a init, s.Plain := by
  intro s mem
  obtain rfl | ⟨index, entry, _, rfl⟩ | ⟨index, region, mark⟩ | ⟨t, _, drawn⟩ :=
    mem_graphStatements mem
  · exact shape
  · exact plain_modeNode color
  · exact plain_initialMark mark
  · obtain ⟨source, target, rfl⟩ := transitionEdge?_eq_some drawn
    exact ⟨quote_not_mem_numbered (by decide) source, quote_not_mem_numbered (by decide) target⟩

theorem graph_eq {m : Model α} (flat : m.automaton = .ok a) :
    m.graph style = .ok (document (graphStatements style a m.init)) := by
  rw [graph, flat]
  rfl

/-- The labels in the graph of a valid flat model are well quoted exactly if the names of variables
that they show are. Then, and only then, a reader of the graph finds the strings that were written
into it. -/
theorem graph_wellQuoted_iff {m : Model α} (valid : m.Valid) (flat : m.automaton = .ok a)
    (style : GraphStyle) :
    m.graph style = .ok (document (graphStatements style a m.init)) ∧
      ((∀ s ∈ graphStatements style a m.init, s.Quoted) ↔ ShowsEscaped style a) ∧
      ('"' ∉ style.modeShape.toList → '"' ∉ style.errorColor.toList →
        (readStrings none (document (graphStatements style a m.init)).toList =
            some (((graphStatements style a m.init).flatMap strings).map String.toList) ↔
          ShowsEscaped style a)) := by
  have quoted := quoted_graphStatements_iff style m.init
    ((valid_iff.mp valid).automaton flat).transitions
  refine ⟨graph_eq flat, quoted, fun shape color => ?_⟩
  rw [readStrings_document_iff (plain_graphStatements shape color), quoted]

/-- A mode with a quote and a backslash in its name, which is left at one and entered at zero. -/
def sawtooth : Automaton Float where
  vars := .ofList ["x"]
  modes := .ofList
    [("5\"\\", { name := "5\"\\", flow := some (.ofList [("x", { expr := .num 1 })]) })]
  transitions := [{
    source := "5\"\\"
    target := "5\"\\"
    guard := .binary (.compare .ge) (.var "x") (.num 1)
    reset := .ofList [("x", { expr := .num 0 })] }]

/-- The automaton starts at zero. -/
def sawtoothModel : Model Float where
  root := .flat sawtooth
  init := .ofList [("5\"\\", .binary (.compare .eq) (.var "x") (.num 0))]
  settings := .initial

/-- In its graph a reader finds the three labels and the styles. -/
theorem graph_wellQuoted_iff_sawtooth :
    sawtoothModel.Valid ∧ sawtoothModel.automaton = .ok sawtooth ∧ ShowsEscaped {} sawtooth ∧
      readStrings none (document (graphStatements {} sawtooth sawtoothModel.init)).toList =
        some (["5\\\"\\\\\\nx' = 1", "rounded", "x == 0", "x >= 1\\nx := 0"].map
          String.toList) := by
  have valid : sawtoothModel.Valid := rfl
  have escaped : ShowsEscaped {} sawtooth := ⟨by decide, by decide⟩
  have written : (graphStatements {} sawtooth sawtoothModel.init).flatMap strings =
      ["5\\\"\\\\\\nx' = 1", "rounded", "x == 0", "x >= 1\\nx := 0"] := by decide +kernel
  obtain ⟨_, _, readBack⟩ := graph_wellQuoted_iff valid rfl {}
  exact ⟨valid, rfl, escaped, written ▸ (readBack (by decide) (by decide)).mpr escaped⟩

/-- A clock with a quote in its name. -/
def quotedClock : Automaton Float where
  vars := .ofList ["x\""]
  modes := .ofList
    [("on", { name := "on", flow := some (.ofList [("x\"", { expr := .num 1 })]) })]

/-- The model is valid, and the quote in the name ends the label of the mode. -/
theorem graph_misquotes_clock :
    (ofComponent (.flat quotedClock)).Valid ∧
      (ofComponent (.flat quotedClock)).graph {} = .ok ("digraph \x7b\n" ++
        "node [shape=box, style=rounded];\n" ++
        "m0 [label=\"on\\nx\"' = 1\", style=\"rounded\"];\n" ++ "\x7d\n") ∧
      (graphStatements {} quotedClock ∅).map label? = [none, some "on\\nx\"' = 1"] ∧
      ¬WellQuoted "on\\nx\"' = 1".toList := by
  refine ⟨rfl, (graph_eq rfl).trans (congrArg Except.ok ?_), ?_, by decide⟩
  · decide +kernel
  · decide +kernel

end Model

end HybridAutomata
