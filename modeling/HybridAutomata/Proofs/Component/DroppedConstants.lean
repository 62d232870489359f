import HybridAutomata.Proofs.Component.Constants
import HybridAutomata.Proofs.Flatten.Places

/-!
# References to dropped constants

Substitution drops the constants that are known exactly, and what is left of a model has to do
without their names. In formulas it does: where a constant was, there is a number. But links of
instances name constants too, and so do regions, by qualified names, and the axes of a plot; all of
these stay as they are, except that the constants of the root are replaced in regions. A valid model
is valid afterwards exactly if none of the references that stay is to a constant that goes.
-/

namespace HybridAutomata

variable {α : Type} [Scalar α]

/-! ## What is declared afterwards -/

namespace Scope

/-- Without the constants that are known exactly, the name is not declared. -/
def Drops (s : Scope α) (name : String) : Prop :=
  (s.pointValue? name).isSome = true ∧ name ∉ s.vars.toList

variable {s : Scope α} {name : String}

theorem mem_keys_withoutPoints : name ∈ s.withoutPoints.constants.keys ↔
    name ∈ s.constants.keys ∧ s.pointValue? name = none := by
  rw [NameMap.mem_keys_iff, NameMap.mem_keys_iff, withoutPoints, NameMap.find?_filter, pointValue?]
  cases s.constants.find? name with
  | none => simp
  | some value => cases h : value.isPoint <;> simp [Option.filter, h]

theorem mem_declared_withoutPoints :
    name ∈ s.withoutPoints.declared ↔ name ∈ s.declared ∧ ¬s.Drops name := by
  have unknown : s.pointValue? name = none ↔ ¬(s.pointValue? name).isSome = true := by simp
  rw [declared, List.mem_append, mem_keys_withoutPoints, declared, List.mem_append, Drops, unknown]
  have vars : s.withoutPoints.vars = s.vars := rfl
  rw [vars]
  tauto

end Scope

namespace Component

/-- The name is declared in the tree, and not only as a constant that is known exactly. -/
def KeepsName (c : Component α) (name : String) : Prop :=
  ∃ p ∈ c.scopes, ∃ x ∈ p.item.declared, ¬p.item.Drops x ∧ p.path.qualify x = name

/-- No link of the instance is with a constant that is known exactly, on either side. -/
def LinksKept (scope : Scope α) (_ : String) (links : List Link) (child : Component α) : Prop :=
  ∀ link ∈ links, ¬scope.Drops link.parent ∧ ¬child.scope.Drops link.child

/-! ## The tree afterwards -/

theorem scope_substituteConstants (inherited : NameMap α) (c : Component α) :
    (c.substituteConstants inherited).scope = c.scope.withoutPoints := by
  cases c with
  | flat a => rfl
  | network scope children => rfl

theorem toList_substituteInChildren {taken : List String} (known : NameMap α)
    (children : Children α taken) :
    (substituteInChildren known children).toList = children.toList.map fun entry =>
      (entry.1, entry.2.1,
        entry.2.2.substituteConstants (entry.2.2.scope.visibleValues known)) := by
  induction children with
  | none => rfl
  | more name _ links child rest ih =>
      rw [substituteInChildren, Children.toList, ih, Children.toList, List.map_cons]

/-- The declarations stay where they are, without the constants that are known exactly. -/
theorem scopes_substituteConstants (inherited : NameMap α) (c : Component α) :
    (c.substituteConstants inherited).scopes =
      c.scopes.map fun p => { p with item := p.item.withoutPoints } := by
  induction c using tree_induction generalizing inherited with
  | flat a => rfl
  | network scope children ih =>
      rw [substituteConstants, scopes, scopes, List.map_cons, childScopes_eq, childScopes_eq,
        toList_substituteInChildren, List.flatMap_map, List.map_flatMap]
      congr 1
      refine List.flatMap_congr fun entry mem => ?_
      dsimp only
      rw [ih entry mem, List.map_map, List.map_map]
      rfl

theorem mem_namesBelow_substituteConstants {inherited : NameMap α} {c : Component α}
    {name : String} :
    name ∈ (c.substituteConstants inherited).namesBelow .root ↔ c.KeepsName name := by
  rw [mem_namesBelow_root, scopes_substituteConstants, KeepsName]
  simp only [List.mem_map, Scope.mem_declared_withoutPoints, exists_exists_and_eq_and, and_assoc]

/-- Modes keep their names. -/
theorem modeNames_substituteConstants (inherited : NameMap α) (c : Component α) :
    (c.substituteConstants inherited).modeNames = c.modeNames := by
  refine modeNames_congr ?_
  induction c using tree_induction generalizing inherited with
  | flat a => simp [substituteConstants, Component.automata, Automaton.substituteConstants,
      Automaton.mapExprs, Scope.withoutPoints]
  | network scope children ih =>
      rw [substituteConstants, Component.automata, Component.automata, childAutomata_eq,
        childAutomata_eq, toList_substituteInChildren, List.flatMap_map, List.map_flatMap,
        List.map_flatMap]
      exact List.flatMap_congr fun entry mem => ih entry mem _

/-- Links join declared names afterwards exactly if they were kept. -/
theorem forInstances_substituteConstants {inherited : NameMap α} {c : Component α}
    (instances : c.ForInstances KeepsInstance) :
    (c.substituteConstants inherited).ForInstances KeepsInstance ↔ c.ForInstances LinksKept := by
  induction c using tree_induction generalizing inherited with
  | flat a => exact Iff.rfl
  | network scope children ih =>
      rw [ForInstances, forChildren_iff] at instances
      rw [substituteConstants, ForInstances, ForInstances, forChildren_iff, forChildren_iff,
        toList_substituteInChildren, List.forall_mem_map]
      refine forall₂_congr fun entry mem => ?_
      obtain ⟨keeps, inside⟩ := instances entry mem
      refine and_congr ?_ (ih entry mem inside)
      constructor
      · intro h link given
        have parent := h.parents link given
        have child := h.children link given
        rw [scope_substituteConstants] at child
        exact ⟨(Scope.mem_declared_withoutPoints.mp parent).2,
          (Scope.mem_declared_withoutPoints.mp child).2⟩
      · intro h
        refine ⟨fun link given => ?_, fun link given => ?_, ?_⟩
        · exact Scope.mem_declared_withoutPoints.mpr ⟨keeps.parents link given, (h link given).1⟩
        · rw [scope_substituteConstants]
          exact Scope.mem_declared_withoutPoints.mpr ⟨keeps.children link given, (h link given).2⟩
        · rw [path, scope_substituteConstants]
          exact keeps.place

end Component

/-! ## The automata afterwards -/

/-- What an automaton becomes mentions no constant that it has lost. -/
theorem ScopedLeaf.sound_of_becomes {l : ScopedLeaf α} {a : Automaton α}
    (sound : l.automaton.Sound) (becomes : l.Becomes a) : a.Sound := by
  obtain ⟨f, rfl, resolves⟩ := becomes
  have wellFormed := sound.mapExprs (s := l.automaton.withoutPoints) (f := f) rfl <| by
    intro e mem name occurs
    obtain ⟨_, var | ⟨const, unknown, _⟩⟩ := ((resolves e mem).names name).mp occurs
    · exact List.mem_append_left _ var
    · exact List.mem_append_right _ (Scope.mem_keys_withoutPoints.mpr ⟨const, unknown⟩)
  exact ⟨wellFormed, fun name mem =>
    sound.disjoint name (Scope.mem_keys_withoutPoints.mp mem).1⟩

namespace Component

theorem sound_automata_substituteConstants {c : Component α} (sound : ∀ a ∈ c.automata, a.Sound) :
    ∀ a ∈ (c.substituteConstants ∅).automata, a.Sound := by
  have becomes : List.Forall₂ ScopedLeaf.Becomes (c.leaves []) (c.substituteConstants ∅).automata :=
    becomes_substituteConstants sound fun name => by
      rw [Scope.inherited?, ite_self]
      rfl
  intro a mem
  obtain ⟨l, leaf, becomes⟩ := Success.exists_of_forall₂_right becomes mem
  have given : l.automaton ∈ c.automata :=
    map_automaton_leaves [] c ▸ List.mem_map_of_mem leaf
  exact ScopedLeaf.sound_of_becomes (sound l.automaton given) becomes

end Component

/-! ## The model afterwards -/

namespace Model

/-- Names of regions that are not replaced. -/
theorem keepsRegion_substituteConstants {m : Model α} {entry : String × Expr α}
    (kept : m.root.KeepsRegion entry) :
    m.substituteConstants.root.KeepsRegion
        (entry.1, entry.2.substituteValues m.root.scope.pointConstants) ↔
      ∀ name ∈ entry.2.names, m.root.scope.pointValue? name = none → m.root.KeepsName name := by
  have modes : m.substituteConstants.root.modeNames = m.root.modeNames :=
    Component.modeNames_substituteConstants ∅ m.root
  have stays (name : String) :
      name ∈ (entry.2.substituteValues m.root.scope.pointConstants).names ↔
        name ∈ entry.2.names ∧ m.root.scope.pointValue? name = none := by
    rw [Expr.mem_names_substituteValues, Scope.find?_pointConstants]
  constructor
  · intro h name occurs unknown
    exact Component.mem_namesBelow_substituteConstants.mp
      (h.names name ((stays name).mpr ⟨occurs, unknown⟩))
  · intro h
    refine ⟨modes ▸ kept.mode, fun name mem => ?_⟩
    obtain ⟨occurs, unknown⟩ := (stays name).mp mem
    exact Component.mem_namesBelow_substituteConstants.mpr (h name occurs unknown)

/-- The references that stay are to names that stay: those of links, of regions where no number
takes their place, and of the plot. -/
structure ReferencesKept (m : Model α) : Prop where
  links : m.root.ForInstances Component.LinksKept
  init : ∀ entry ∈ m.init.entries, ∀ name ∈ entry.2.names,
    m.root.scope.pointValue? name = none → m.root.KeepsName name
  forbidden : ∀ entry ∈ m.forbidden.entries, ∀ name ∈ entry.2.names,
    m.root.scope.pointValue? name = none → m.root.KeepsName name
  plot : (m.settings.plot.1 = "" ∨ m.root.KeepsName m.settings.plot.1) ∧
    (m.settings.plot.2 = "" ∨ m.root.KeepsName m.settings.plot.2)

/-- A valid model without its exact constants is valid exactly if nothing refers to them that
stays. -/
theorem substituteConstants_valid_iff {m : Model α} (valid : m.Valid) :
    m.substituteConstants.Valid ↔ m.ReferencesKept := by
  have sound := valid_iff.mp valid
  have links : m.substituteConstants.root.ForInstances Component.KeepsInstance ↔
      m.root.ForInstances Component.LinksKept :=
    Component.forInstances_substituteConstants sound.root.instances
  have regions {kept : NameMap (Expr α)}
      (sound : ∀ entry ∈ kept.entries, m.root.KeepsRegion entry) :
      (∀ entry ∈ (kept.map (·.substituteValues m.root.scope.pointConstants)).entries,
          m.substituteConstants.root.KeepsRegion entry) ↔
        ∀ entry ∈ kept.entries, ∀ name ∈ entry.2.names,
          m.root.scope.pointValue? name = none → m.root.KeepsName name :=
    List.forall_mem_map.trans (forall₂_congr fun entry mem =>
      keepsRegion_substituteConstants (sound entry mem))
  have plot (name : String) : m.substituteConstants.root.KeepsPlot name ↔
      name = "" ∨ m.root.KeepsName name :=
    or_congr_right Component.mem_namesBelow_substituteConstants
  rw [valid_iff]
  constructor
  · intro after
    exact {
      links := links.mp after.root.instances
      init := (regions sound.init).mp after.init
      forbidden := (regions sound.forbidden).mp after.forbidden
      plot := ⟨(plot _).mp after.plot.1, (plot _).mp after.plot.2⟩ }
  · intro kept
    exact {
      root := ⟨Component.sound_automata_substituteConstants sound.root.automata,
        links.mpr kept.links⟩
      init := (regions sound.init).mpr kept.init
      forbidden := (regions sound.forbidden).mpr kept.forbidden
      plot := ⟨(plot _).mpr kept.plot.1, (plot _).mpr kept.plot.2⟩
      horizon := sound.horizon }

end Model

/-- A cistern of a known area, with an inflow that it does not control. -/
def cistern : Automaton (Extended ℚ) where
  vars := .ofList ["level", "inflow"]
  constants := .ofList [("area", ⟨2, 2⟩)]
  modes := .ofList [("fill", {
    name := "fill"
    flow := some (.ofList [("level", .exact (.div (.var "inflow") (.var "area")))]) })]

/-- A network in which the inflow of the cistern is a constant. -/
def fedCistern (supply : Interval (Extended ℚ)) : Model (Extended ℚ) where
  root := Component.addChild
    (.network { constants := .ofList [("supply", supply), ("start", ⟨1, 1⟩)] } .none)
    "cistern" [⟨"supply", "inflow"⟩] (.flat cistern)
  init := .ofList [("fill", .eq (.var "cistern.level") (.var "start"))]
  settings := .initial

/-- The supply stays where it is known up to an interval, and the area and the start go. -/
theorem fedCistern_substituteConstants_valid : (fedCistern ⟨1, 2⟩).Valid ∧
    (fedCistern ⟨1, 2⟩).substituteConstants.Valid ∧ (fedCistern ⟨1, 2⟩).ReferencesKept := by
  have valid : (fedCistern ⟨1, 2⟩).Valid := by
    rw [Model.Valid]
    decide +kernel
  have after : (fedCistern ⟨1, 2⟩).substituteConstants.Valid := by
    rw [Model.Valid]
    decide +kernel
  exact ⟨valid, after, (Model.substituteConstants_valid_iff valid).mp after⟩

/-- A supply that is known exactly goes, and the link still names it. -/
theorem fedCistern_substituteConstants_not_valid : (fedCistern ⟨2, 2⟩).Valid ∧
    ¬(fedCistern ⟨2, 2⟩).substituteConstants.Valid := by
  refine ⟨?_, ?_⟩ <;>
  · rw [Model.Valid]
    decide +kernel

end HybridAutomata
