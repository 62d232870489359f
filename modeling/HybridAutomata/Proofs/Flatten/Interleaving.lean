import HybridAutomata.Proofs.Exact.Fields
import HybridAutomata.Proofs.Flatten.SimpleNames
import HybridAutomata.Proofs.Flatten.Spaces
import HybridAutomata.Proofs.Model.Rules

/-!
# Flattening interleaves

The automaton of a flattened network is the interleaving of the flat automata of the tree: its modes
are the states of the tree, and its transitions are their jumps.
-/

namespace HybridAutomata

open Flattened Product Success

variable {α : Type}

/-! ## The induction -/

namespace Component

/-- An instance keeps the rates and new values of the child apart: no two rates of a state, and no
two new values of a transition, become those of one name. -/
structure KeepsEntries (_scope : Scope α) (inst : String) (links : List Link)
    (child : Component α) : Prop where
  rates : ∀ s ∈ child.states, s.hasFlow = true →
    Set.InjOn (outerName inst links) {x | x ∈ s.assigned}
  resets : ∀ p ∈ child.members, ∀ t ∈ p.item.transitions,
    Set.InjOn (outerName inst links) {x | x ∈ t.assigned.map p.rename}

theorem KeepsEntries.of_nodup {scope : Scope α} {inst : String} {links : List Link}
    {child : Component α} (rates : ∀ s ∈ child.states, s.hasFlow = true →
      (s.assigned.map (outerName inst links)).Nodup)
    (resets : ∀ p ∈ child.members, ∀ t ∈ p.item.transitions,
      ((t.assigned.map p.rename).map (outerName inst links)).Nodup) :
    KeepsEntries scope inst links child where
  rates s mem flowing _ hx _ hy eq := List.inj_on_of_nodup_map (rates s mem flowing) hx hy eq
  resets p mem t leaves _ hx _ hy eq := List.inj_on_of_nodup_map (resets p mem t leaves) hx hy eq

/-- New values of a transition are kept apart on the whole way to the automaton. -/
theorem injOn_assigned {c : Component α} (instances : c.ForInstances KeepsEntries)
    {p : Place (Automaton α)} (mem : p ∈ c.members) {t : Transition α}
    (leaves : t ∈ p.item.transitions) : Set.InjOn p.rename {x | x ∈ t.assigned} := by
  induction c using tree_induction generalizing p with
  | flat a =>
      rw [members, List.mem_singleton] at mem
      subst mem
      exact Set.injOn_id _
  | network scope children ih =>
      obtain ⟨entry, child, p, inside, rfl⟩ := mem_members_network.mp mem
      obtain ⟨keeps, others⟩ := forChildren_iff.mp instances entry child
      refine (keeps.resets p inside t leaves).comp (ih entry child others inside leaves) ?_
      exact fun x mem => List.mem_map_of_mem mem

/-- What is needed for modes to stand for states: the automata keep their rules, and nothing gets
one name that had different ones, neither states nor the entries of flows and resets. -/
structure Separable (c : Component α) : Prop where
  automata : ∀ p ∈ c.members, p.item.Sound
  states : c.DistinctStates
  instances : c.ForInstances KeepsEntries

theorem Separable.part {scope : Scope α} {children : Children α} {parts : List (Part α)}
    {f : Flattened α} (h : (network scope children).Separable)
    (made : NetworkOf scope children parts f) (nonempty : (network scope children).states ≠ [])
    {part : Part α} (mem : part ∈ parts) : part.child.Separable where
  automata p inChild := h.automata (p.within part.inst part.links)
    (within_mem_members (made.flattens.mem_toList mem) inChild)
  states := made.distinct_part h.states nonempty mem
  instances := (made.instances h.instances mem).2

/-- With simple names, it suffices that every instance keeps names apart. -/
theorem SimplyNamed.separable {c : Component α} (h : c.SimplyNamed) (sound : c.Sound)
    (outer : c.ForInstances fun _ inst links _ => Function.Injective (outerName inst links)) :
    c.Separable := by
  refine ⟨fun p => sound.of_mem_members, SimpleModes.distinctStates ⟨?_, h.modes⟩, outer.imp ?_⟩
  · intro p mem
    exact (sound.of_mem_members mem).stored
  · intro _ inst links _ injective
    exact ⟨fun _ _ _ => injective.injOn, fun _ _ _ _ => injective.injOn⟩

end Component

section

variable [Scalar α]

/-- The modes of a network stand for its states if those of its parts do, and then its transitions
are the jumps of its states. -/
theorem NetworkOf.interleaves {scope : Scope α} {children : Children α} {parts : List (Part α)}
    {f : Flattened α} (h : NetworkOf scope children parts f)
    (separable : (Component.network scope children).Separable)
    (interleaves : ∀ part ∈ parts, part.flattened.factor.Interleaves part.child.space) :
    f.factor.Interleaves (Component.network scope children).space ∧
      f.factor.automaton.transitions = (Component.network scope children).space.transitions := by
  obtain ⟨entries, rows, product⟩ := h.productOf
  have factors :
      List.Forall₂ Factor.Interleaves (parts.map Part.factor) (parts.map Part.space) := by
    refine List.forall₂_map_left_iff.mpr (List.forall₂_map_right_iff.mpr ?_)
    refine List.forall₂_same.mpr fun part mem => ?_
    obtain ⟨keeps, instances⟩ := h.instances separable.instances mem
    refine Part.interleaves (interleaves part mem) keeps.rates fun s inChild jump taken => ?_
    obtain ⟨before, l, after, mode, rfl, place, leaves, _⟩ := JointState.mem_jumps_iff.mp taken
    rw [place]
    refine Component.injOn_assigned instances (Component.place_mem_members inChild ?_)
      (List.mem_of_mem_filter leaves)
    exact List.mem_append_right _ List.mem_cons_self
  exact product.interleaves factors (List.forall_mem_map.mpr fun part _ => part.closed_space)
    (h.joins separable.states)

namespace Component

omit [Scalar α] in
/-- The jumps of a single automaton are its transitions. -/
theorem map_jumps_here {a : Automaton α} (sound : a.Sound) (m : Mode α) :
    (JointState.jumps [⟨.here a, m⟩]).map
        (LocalJump.transitionFrom (flat a).stateName [⟨.here a, m⟩]) =
      a.transitionsFrom m.name := by
  have single : JointState.jumps [⟨.here a, m⟩] = (a.transitionsFrom m.name).filterMap fun t =>
      (a.mode? t.target).map fun mode => ⟨.here a, t, [⟨.here a, mode⟩]⟩ := List.append_nil _
  have made : ∀ t ∈ a.transitionsFrom m.name,
      (((a.mode? t.target).map fun mode => ⟨.here a, t, [⟨.here a, mode⟩]⟩).map
        (LocalJump.transitionFrom (flat a).stateName [⟨.here a, m⟩])) = some t := by
    intro t leaves
    obtain ⟨mem, source⟩ := List.mem_filter.mp leaves
    obtain ⟨mode, found⟩ := NameMap.mem_keys_iff.mp (sound.transitions t mem).target
    have target : mode.name = t.target := sound.stored _ (NameMap.find?_eq_some_iff.mp found)
    have found : a.mode? t.target = some mode := found
    rw [found, Option.map_some, Option.map_some, LocalJump.transitionFrom, JointState.modeNames,
      JointState.modeNames]
    simp only [List.map_cons, List.map_nil, stateName_flat, Place.rename_here,
      Transition.rename_id]
    rw [target, ← beq_iff_eq.mp source]
  rw [single, List.map_filterMap, List.filterMap_congr made, List.filterMap_some]

/-- The modes of a single automaton stand for themselves. -/
theorem interleaves_flat {a : Automaton α} (h : (flat a).Separable) :
    (ofAutomaton a).factor.Interleaves (flat a).space := by
  have sound := h.automata (.here a) (List.mem_singleton_self _)
  have states : (flat a).space.states = a.modes.entries.map fun entry => [⟨.here a, entry.2⟩] := by
    rw [space, states_flat, NameMap.values, List.map_map]
    rfl
  have name (n : String) : (flat a).space.name [n] = n := stateName_flat a n
  refine ⟨?_, ?_, ?_⟩
  · rw [states]
    refine List.forall₂_map_left_iff.mpr (List.forall₂_same.mpr fun entry stored => ?_)
    have name := (name entry.2.name).trans (sound.stored entry stored)
    refine ⟨name.symm, sound.stored entry stored, ?_⟩
    constructor <;> simp [JointState.hasFlow, JointState.rates, Local.rates, renameEntry_id]
  · rw [states, List.map_map, ofAutomaton, NameMap.keys, List.map_map]
    refine List.map_congr_left fun entry stored => ?_
    simp [Local.leaf, sound.stored entry stored]
  · rw [states]
    refine List.forall_mem_map.mpr fun entry stored => ?_
    rw [JointState.modeNames, List.map_singleton, name]
    exact (map_jumps_here sound entry.2).symm

/-- Without states there are no modes. -/
theorem interleaves_nil {f : Factor α} {space : StateSpace α} (named : f.Named [])
    (none : space.states = []) : f.Interleaves space := by
  have entries : f.automaton.modes.entries = [] := by
    refine List.eq_nil_iff_forall_not_mem.mpr fun entry mem => ?_
    exact List.not_mem_nil ((named.keys entry.1).mp (NameMap.mem_keys_of_mem mem))
  have leaves : f.leaves = [] := List.length_eq_zero_iff.mp (by rw [named.leaves, entries]; rfl)
  refine ⟨?_, ?_, ?_⟩
  · rw [none, entries]
    exact .nil
  · rw [none, leaves]
    rfl
  · rw [none]
    exact List.forall_mem_nil _

/-- The modes of a flattened component stand for the states of the tree, and the transitions of a
flattened network for their jumps. -/
theorem interleaves_of_flatten {c : Component α} {f : Flattened α} (h : c.flatten = .ok f)
    (separable : c.Separable) : f.factor.Interleaves c.space ∧
      (c.isFlat = false → f.factor.automaton.transitions = c.space.transitions) := by
  have named := named_of_flatten h fun p mem => (separable.automata p mem).stored
  revert named
  refine flatten_induction (P := fun c f => c.Separable → f.factor.Named c.stateNames →
    f.factor.Interleaves c.space ∧
      (c.isFlat = false → f.factor.automaton.transitions = c.space.transitions)) ?_ ?_ h separable
  · intro a separable _
    exact ⟨interleaves_flat separable, nofun⟩
  · intro scope children parts f made ih separable named
    by_cases none : (network scope children).states = []
    · have named : f.factor.Named [] := by rwa [stateNames, none] at named
      obtain ⟨entries, rows, product⟩ := made.productOf
      refine ⟨interleaves_nil named none, fun _ => ?_⟩
      have transitions : (network scope children).space.transitions = [] := by
        rw [StateSpace.transitions, space, none]
        rfl
      rw [transitions]
      refine List.eq_nil_iff_forall_not_mem.mpr fun t mem => ?_
      exact List.not_mem_nil ((named.keys t.source).mp (product.mem_transitions mem).1)
    · have interleaves := made.interleaves separable fun part mem => by
        have separable := separable.part made none mem
        exact (ih part mem separable (named_of_flatten (made.flattens.flattened part mem)
          fun p mem => (separable.automata p mem).stored)).1
      exact ⟨interleaves.1, fun _ => interleaves.2⟩

end Component

/-! ## Regions -/

/-- A region that holds where all regions of several modes do; there is none if one of them is
missing. -/
structure IsConjunction (regions : List (Option (Expr α))) (region? : Option (Expr α)) : Prop where
  present : region?.isSome = regions.all Option.isSome
  holds : ∀ region, region? = some region → ∀ env,
    region.holds env = (regions.filterMap id).allM (·.holds env)

/-- A region that holds where one of the regions of several modes does; there is none if all of them
are missing. -/
structure IsDisjunction (regions : List (Option (Expr α))) (region? : Option (Expr α)) : Prop where
  present : region?.isSome = regions.any Option.isSome
  holds : ∀ region, region? = some region → ∀ env,
    region.holds env = (regions.filterMap id).anyM (·.holds env)

/-- The region that is given for the mode of an automaton: under the qualified name of the mode, or
else under the plain one. -/
def Local.region? (regions : NameMap (Expr α)) (l : Local α) : Option (Expr α) :=
  (regions.find? (l.place.path.qualify l.mode.name)).or (regions.find? l.mode.name)

namespace Flattened

variable {f : Flattened α} {space : StateSpace α}

/-- The region of a mode is made from the leaves of its state. -/
theorem find?_regions (h : f.factor.Interleaves space) {s : JointState α} (mem : s ∈ space.states)
    (region? : List Leaf → Option (Expr α)) :
    (f.regions region?).find? (space.name s.modeNames) = region? (s.map Local.leaf) := by
  have entries : f.factor.automaton.modes.keys.zip f.factor.leaves =
      space.states.map fun s => (space.name s.modeNames, s.map Local.leaf) := by
    rw [h.keys, h.leaves, List.zip_map']
  have nodup : ((f.factor.automaton.modes.keys.zip f.factor.leaves).map Prod.fst).Nodup := by
    rw [entries, List.map_map]
    exact h.keys ▸ f.factor.automaton.modes.keys_nodup
  have listed : (space.name s.modeNames, s.map Local.leaf) ∈
      f.factor.automaton.modes.keys.zip f.factor.leaves := entries ▸ List.mem_map_of_mem mem
  exact NameMap.find?_ofList_filterMap nodup region? listed

variable {regions : NameMap (Expr α)} {leaves : List Leaf}

omit [Scalar α] in
/-- In a tree that starts at the root, leaves find their regions by the paths that lead to them. -/
theorem map_leafRegion? {c : Component α} (instances : c.ForInstances Component.KeepsInstance)
    (atRoot : c.path = .root) {s : JointState α} (mem : s ∈ c.states) :
    (s.map Local.leaf).map (f.leafRegion? regions) =
      s.map fun l => (l.region? regions).map (·.rename f.nameOf) := by
  rw [List.map_map]
  refine List.map_congr_left fun l inState => ?_
  have path := Component.path_of_mem_members instances (Component.place_mem_members mem inState)
  rw [atRoot] at path
  have path : l.place.item.path = l.place.path := congrArg Path.mk path
  rw [Function.comp_apply, leafRegion?, Local.leaf, path, Local.region?]

theorem isConjunction_initial : IsConjunction (leaves.map (f.leafRegion? regions))
    (f.initial? regions leaves) where
  present := by
    rw [Bool.eq_iff_iff, initial?, Option.isSome_map, Option.isSome_iff_exists, List.all_map,
      List.all_eq_true]
    simp [mapM_eq_some_iff]
  holds := by
    intro region found env
    obtain ⟨items, parts, rfl⟩ := Option.map_eq_some_iff.mp found
    obtain ⟨_, rfl⟩ := mapM_eq_some_iff.mp parts
    rw [Expr.holds_andAll, List.filterMap_map]
    rfl

theorem isDisjunction_forbidden : IsDisjunction (leaves.map (f.leafRegion? regions))
    (f.forbidden? regions leaves) where
  present := by
    have present : (f.forbidden? regions leaves).isSome = true ↔
        leaves.filterMap (f.leafRegion? regions) ≠ [] := by
      rw [forbidden?]
      split
      · next none => simp [none]
      · next some => exact iff_of_true rfl some
    rw [Bool.eq_iff_iff, present, Ne, List.filterMap_eq_nil_iff, List.any_map, List.any_eq_true]
    simp [Option.isSome_iff_ne_none]
  holds := by
    intro region found env
    rw [forbidden?] at found
    split at found
    · cases found
    · cases found
      rw [Expr.holds_orAll, List.filterMap_map]
      rfl

end Flattened

/-! ## Models -/

/-- The automaton is the interleaving of the flat automata of the tree. -/
structure Automaton.Interleaves (a : Automaton α) (c : Component α) : Prop where
  /-- There is a mode for each state, and it has the name of the state. -/
  keys : a.modes.keys = c.states.map fun s => c.stateName s.modeNames
  /-- Different states have different modes. -/
  distinct : ∀ s ∈ c.states, ∀ s' ∈ c.states,
    c.stateName s.modeNames = c.stateName s'.modeNames → s = s'
  modes : ∀ s ∈ c.states, ∃ m, a.mode? (c.stateName s.modeNames) = some m ∧
    m.name = c.stateName s.modeNames ∧ JointMode s m
  /-- There is one transition for each jump of each state, and no other. -/
  transitions : a.transitions = c.states.flatMap fun s =>
    s.jumps.map (LocalJump.transitionFrom c.stateName s)
  /-- Every transition that leaves the mode of an automaton makes one jump. -/
  jumps : ∀ s ∈ c.states, s.jumps.map LocalJump.transition =
    s.flatMap fun l => l.place.item.transitionsFrom l.mode.name

theorem Component.interleaves_network {c : Component α} {f : Flattened α} (h : c.flatten = .ok f)
    (separable : c.Separable) (network : c.isFlat = false) :
    f.factor.automaton.Interleaves c := by
  obtain ⟨interleaves, transitions⟩ := interleaves_of_flatten h separable
  refine {
    keys := interleaves.keys
    distinct := fun s mem s' mem' => interleaves.eq_of_name_eq mem mem'
    modes := ?_
    transitions := transitions network
    jumps := ?_ }
  · intro s mem
    obtain ⟨⟨key, m⟩, stored, rfl, name, joint⟩ := exists_of_forall₂_left interleaves.modes mem
    exact ⟨m, NameMap.find?_eq_some_iff.mpr stored, name, joint⟩
  · intro s mem
    refine JointState.map_transition_jumps fun l inState t inAutomaton => ?_
    exact ((separable.automata l.place (place_mem_members mem inState)).transitions t
      inAutomaton).target

namespace Model

/-- If names are simple and instances link variables, flattening makes the interleaving of the tree.
A mode is initial if all modes in it have a region, and then all of these have to hold; it is
forbidden where one of them is. The names in regions are renamed as those of the automata. -/
theorem flatten_interleaves {m m' : Model α} (valid : m.Valid) (network : m.root.isFlat = false)
    (atRoot : m.root.path = .root) (simple : m.root.SimplyNamed)
    (links : m.root.ForInstances Component.LinksVariables) (success : m.flatten = .ok m') :
    ∃ a ρ, m'.root = .flat a ∧ a.Interleaves m.root ∧ m.root.Renames ρ ∧
      (∀ p ∈ m.root.members, Function.Injective p.rename) ∧
      (∀ s ∈ m.root.states, IsConjunction (s.map fun l => (l.region? m.init).map (·.rename ρ))
        (m'.init.find? (m.root.stateName s.modeNames))) ∧
      (∀ s ∈ m.root.states, IsDisjunction (s.map fun l => (l.region? m.forbidden).map (·.rename ρ))
        (m'.forbidden.find? (m.root.stateName s.modeNames))) ∧
      m'.init.keys ⊆ a.modes.keys ∧ m'.forbidden.keys ⊆ a.modes.keys := by
  have sound := valid_iff.mp valid
  obtain ⟨f, flattened, rfl⟩ := flatten_network_eq_ok network success
  have outer := simple.outer_injective links
  have separable := simple.separable sound.root outer
  have interleaves := (Component.interleaves_of_flatten flattened separable).1
  refine ⟨f.factor.automaton, f.nameOf, rfl,
    Component.interleaves_network flattened separable network,
    Component.renames_nameOf flattened simple.distinctNames,
    fun _ mem => Component.rename_injective outer mem, ?_, ?_, ?_, ?_⟩
  · intro s mem
    rw [← map_leafRegion? sound.root.instances atRoot mem]
    have found := find?_regions interleaves mem (f.initial? m.init)
    exact found ▸ isConjunction_initial
  · intro s mem
    rw [← map_leafRegion? sound.root.instances atRoot mem]
    have found := find?_regions interleaves mem (f.forbidden? m.forbidden)
    exact found ▸ isDisjunction_forbidden
  · exact List.forall_mem_map.mpr fun _ mem => (mem_regions mem).1
  · exact List.forall_mem_map.mpr fun _ mem => (mem_regions mem).1

end Model

end

/-- A basin that is filled by an inflow it does not control. -/
def basin : Automaton (Extended ℚ) where
  vars := .ofList ["level", "inflow"]
  modes := .ofList [("fill", {
    name := "fill"
    flow := some (.ofList [("level", .exact (.var "inflow"))]) })]

/-- A valve that is opened once. -/
def valve : Automaton (Extended ℚ) where
  vars := .ofList ["opening"]
  modes := .ofList [("shut", { name := "shut" }), ("open", { name := "open", urgent := true })]
  transitions := [{
    source := "shut"
    target := "open"
    reset := .ofList [("opening", .exact (.num 1))] }]

/-- A plant with a basin, and beside the plant the valve that feeds it. -/
def fedBasin : Model (Extended ℚ) where
  root :=
    let plant := Component.addChild (.network { vars := .ofList ["feed"] } .none) "basin"
      [⟨"feed", "inflow"⟩] (.flat basin)
    Component.addChild
      (Component.addChild (.network { vars := .ofList ["stream"] } .none) "plant"
        [⟨"stream", "feed"⟩] plant)
      "valve" [⟨"stream", "opening"⟩] (.flat valve)
  init := .ofList [("plant.basin.fill", .eq (.var "plant.basin.level") (.num 0)),
    ("shut", .eq (.var "valve.opening") (.num 0))]
  settings := .initial

/-- The plant and the valve share the stream, over two levels. -/
theorem fedBasin_flatten_interleaves : fedBasin.Valid ∧ fedBasin.root.isFlat = false ∧
    fedBasin.root.path = .root ∧ fedBasin.root.SimplyNamed ∧
    fedBasin.root.ForInstances Component.LinksVariables ∧
    ∃ m' a ρ, fedBasin.flatten = .ok m' ∧ m'.root = .flat a ∧ a.Interleaves fedBasin.root ∧
      fedBasin.root.Renames ρ ∧ a.modes.keys = ["fill.shut", "fill.open"] ∧
      ∀ name ∈ ["plant.basin.inflow", "valve.opening"], ρ name = "stream" := by
  have valid : fedBasin.Valid := by
    rw [Model.Valid]
    decide +kernel
  have simple : fedBasin.root.SimplyNamed :=
    ⟨by decide +kernel, by decide +kernel, by decide +kernel⟩
  have links : fedBasin.root.ForInstances Component.LinksVariables := by
    refine ⟨?_, ⟨?_, trivial, trivial⟩, ?_, trivial, trivial⟩ <;>
      exact ⟨by decide +kernel, by decide +kernel, by decide +kernel, by decide +kernel⟩
  obtain ⟨m', success⟩ : ∃ m', fedBasin.flatten = .ok m' := ⟨_, rfl⟩
  obtain ⟨a, ρ, root, interleaves, renames, _⟩ :=
    Model.flatten_interleaves valid rfl rfl simple links success
  have shared : ∀ name ∈ ["plant.basin.inflow", "valve.opening"], ∃ p ∈ fedBasin.root.scopes,
      ∃ x ∈ p.item.declared, p.path.qualify x = name ∧ p.rename x = "stream" := by decide +kernel
  refine ⟨valid, rfl, rfl, simple, links, m', a, ρ, success, root, interleaves, renames,
    ?_, fun name mem => ?_⟩
  · rw [interleaves.keys]
    decide +kernel
  · obtain ⟨p, inTree, x, declared, rfl, eq⟩ := shared name mem
    exact (renames p inTree x declared).trans eq

end HybridAutomata
