import HybridAutomata.Model.Validity
import HybridAutomata.Proofs.Component.Rules

/-!
# The rules of a model

A model is valid exactly if its components keep their rules, its regions are for modes of the model
and mention names of the model, the variables of the plot are names of the model, and the time
horizon is positive. For a flat model the modes and names are those of the automaton.
-/

namespace HybridAutomata

variable {α : Type}

namespace Component

/-- What is asked of the regions of a tree. -/
structure KeepsRegion (c : Component α) (entry : String × Expr α) : Prop where
  mode : entry.1 ∈ c.modeNames
  names : ∀ name ∈ entry.2.names, name ∈ c.namesBelow .root

/-- A plot shows a name of the tree, or none is chosen. -/
def KeepsPlot (c : Component α) (name : String) : Prop := name = "" ∨ name ∈ c.namesBelow .root

end Component

namespace Model

variable [Scalar α]

/-- The rules of a model. -/
structure Sound (m : Model α) : Prop where
  root : m.root.Sound
  init : ∀ entry ∈ m.init.entries, m.root.KeepsRegion entry
  forbidden : ∀ entry ∈ m.forbidden.entries, m.root.KeepsRegion entry
  plot : m.root.KeepsPlot m.settings.plot.1 ∧ m.root.KeepsPlot m.settings.plot.2
  horizon : Scalar.isPositive m.settings.horizon = true

omit [Scalar α] in
theorem regionViolations_eq_nil_iff {c : Component α} {kind : RegionKind}
    {entry : String × Expr α} :
    regionViolations c.modeNames c.qualifiedNames kind entry = [] ↔ c.KeepsRegion entry := by
  have names : (entry.2.vars.filter fun name => !c.qualifiedNames.contains name) = [] ↔
      ∀ name ∈ entry.2.names, name ∈ c.namesBelow .root := by
    simp [List.filter_eq_nil_iff, Expr.mem_vars, NameSet.contains_iff, Component.qualifiedNames,
      NameSet.mem_ofList]
  have mode : (if c.modeNames.contains entry.1 then []
      else [⟨.region kind entry.1, .noSuchMode⟩] : List (Violation α)) = [] ↔
        entry.1 ∈ c.modeNames := by simp
  rw [regionViolations, List.append_eq_nil_iff, List.map_eq_nil_iff, names, mode]
  exact ⟨fun ⟨mode, names⟩ => ⟨mode, names⟩, fun h => ⟨h.mode, h.names⟩⟩

omit [Scalar α] in
theorem plotViolations_eq_nil_iff {c : Component α} {name : String} :
    (plotViolations c.qualifiedNames name : List (Violation α)) = [] ↔ c.KeepsPlot name := by
  have named : c.qualifiedNames.contains name = true ↔ name ∈ c.namesBelow .root := by
    rw [NameSet.contains_iff, Component.qualifiedNames, NameSet.mem_ofList]
  rw [plotViolations, Component.KeepsPlot, ← named, or_iff_not_imp_left]
  simp

theorem horizonViolations_eq_nil_iff {horizon : α} :
    horizonViolations horizon = [] ↔ Scalar.isPositive horizon = true := by
  simp [horizonViolations]

/-- A model is valid exactly if it keeps the rules. -/
theorem valid_iff {m : Model α} : m.Valid ↔ m.Sound := by
  simp only [Valid, violations, List.append_eq_nil_iff, List.flatMap_eq_nil_iff,
    Component.violations_eq_nil_iff, regionViolations_eq_nil_iff, plotViolations_eq_nil_iff,
    horizonViolations_eq_nil_iff]
  constructor
  · rintro ⟨⟨⟨⟨⟨root, init⟩, forbidden⟩, first⟩, second⟩, horizon⟩
    exact ⟨root, init, forbidden, ⟨first, second⟩, horizon⟩
  · intro h
    exact ⟨⟨⟨⟨⟨h.root, h.init⟩, h.forbidden⟩, h.plot.1⟩, h.plot.2⟩, h.horizon⟩

end Model

/-- The names of modes depend on the places of the automata and the keys of their modes. -/
theorem Component.modeNames_congr {c c' : Component α}
    (h : c'.automata.map (fun a => (a.path, a.modes.keys)) =
      c.automata.map fun a => (a.path, a.modes.keys)) : c'.modeNames = c.modeNames := by
  have names := congrArg (List.flatMap fun (path, keys) =>
    keys.flatMap fun name => if path.isRoot then [name] else [name, path.qualify name]) h
  rwa [List.flatMap_map, List.flatMap_map] at names

/-! ## Flat models -/

theorem Model.automaton_eq_ok_iff {m : Model α} {a : Automaton α} :
    m.automaton = .ok a ↔ m.root = .flat a := by
  obtain ⟨root, _, _, _⟩ := m
  cases root <;> simp [automaton, Component.automaton?]

/-- The place of a flat model is that of its automaton. -/
theorem Model.path_of_automaton {m : Model α} {a : Automaton α} (flat : m.automaton = .ok a) :
    a.path = m.root.path := by
  rw [automaton_eq_ok_iff.mp flat]
  rfl

/-- The automaton of a flat model keeps all rules. -/
theorem Model.Sound.automaton [Scalar α] {m : Model α} (h : m.Sound) {a : Automaton α}
    (flat : m.automaton = .ok a) : a.Sound :=
  Component.sound_flat_iff.mp (automaton_eq_ok_iff.mp flat ▸ h.root)

namespace Component

theorem mem_namesBelow_flat {a : Automaton α} {name : String} :
    name ∈ (flat a).namesBelow .root ↔ name ∈ a.declared := by
  simp [namesBelow]

theorem mem_modeNames_flat {a : Automaton α} {name : String} (h : name ∈ a.modes.keys) :
    name ∈ (flat a).modeNames := by
  simp only [modeNames, automata, List.flatMap_cons, List.flatMap_nil, List.append_nil,
    List.mem_flatMap]
  refine ⟨name, h, ?_⟩
  split <;> simp

/-- The names of modes depend on the place and the keys, and more keys have more names. -/
theorem modeNames_flat_subset {a a' : Automaton α} (path : a'.path = a.path)
    (keys : a.modes.keys ⊆ a'.modes.keys) : (flat a).modeNames ⊆ (flat a').modeNames := by
  simp only [modeNames, automata, List.flatMap_cons, List.flatMap_nil, List.append_nil, path]
  intro name mem
  obtain ⟨key, hkey, mem⟩ := List.mem_flatMap.mp mem
  exact List.mem_flatMap.mpr ⟨key, keys hkey, mem⟩

theorem keepsRegion_flat_iff {a : Automaton α} {entry : String × Expr α} :
    (flat a).KeepsRegion entry ↔ entry.1 ∈ (flat a).modeNames ∧ a.Closes entry.2 := by
  constructor
  · rintro ⟨mode, names⟩
    exact ⟨mode, fun name mem => mem_namesBelow_flat.mp (names name mem)⟩
  · rintro ⟨mode, closed⟩
    exact ⟨mode, fun name mem => mem_namesBelow_flat.mpr (closed name mem)⟩

end Component

end HybridAutomata
