import HybridAutomata.Proofs.Flatten.Factors

/-!
# State spaces

The states of a network are the states of its instances side by side. Flattening makes a mode for
each of them, so the names of the modes are the names of the states, whatever the names of modes and
instances are. But modes of one name are one mode: there are as many modes as states exactly if no
two states have the same name.
-/

namespace HybridAutomata

open Flattened Product Success

variable {α : Type}

/-! ## Spaces of a tree -/

theorem StateSpace.Closed.within {space : StateSpace α} (h : space.Closed) (inst : String)
    (links : List Link) : (space.within inst links).Closed := by
  intro s mem jump taken
  obtain ⟨s, inSpace, rfl⟩ := List.mem_map.mp mem
  rw [JointState.jumps_within] at taken
  obtain ⟨jump, possible, rfl⟩ := List.mem_map.mp taken
  exact List.mem_map_of_mem (h s inSpace jump possible)

namespace Component

/-- The states of a tree with the names of their modes. -/
def space (c : Component α) : StateSpace α := ⟨c.states, c.stateName⟩

theorem closed_space (c : Component α) : c.space.Closed :=
  fun _ mem _ taken => target_mem_states mem taken

end Component

namespace Part

/-- The states of the child, seen from the network. -/
def space (part : Part α) : StateSpace α := part.child.space.within part.inst part.links

theorem closed_space (part : Part α) : part.space.Closed :=
  part.child.closed_space.within part.inst part.links

end Part

namespace NetworkOf

variable {scope : Scope α} {children : Children α} {parts : List (Part α)} {f : Flattened α}

/-- A state of a network is a state of every part. -/
theorem states (h : NetworkOf scope children parts f) :
    (Component.network scope children).states =
      (tuples ((parts.map Part.space).map StateSpace.named)).map (List.flatMap Prod.snd) := by
  have groups : ((Component.network scope children).members.map fun p =>
      p.item.modes.values.map (Local.mk p)) = (parts.map fun part =>
        (part.child.members.map (Place.within part.inst part.links)).map fun p =>
          p.item.modes.values.map (Local.mk p)).flatten := by
    rw [h.members, List.map_flatMap, List.flatMap_def]
  have spaces : ((parts.map fun part =>
      (part.child.members.map (Place.within part.inst part.links)).map fun p =>
        p.item.modes.values.map (Local.mk p)).map tuples) =
      ((parts.map Part.space).map StateSpace.named).map (List.map Prod.snd) := by
    rw [List.map_map, List.map_map, List.map_map]
    refine List.map_congr_left fun part _ => ?_
    rw [Function.comp, Component.tuples_within]
    exact part.space.map_snd_named.symm
  rw [Component.states, groups, tuples_flatten, spaces, tuples_map, List.map_map]
  rfl

/-- The name of such a state joins the names of the states of the parts. -/
theorem stateName (h : NetworkOf scope children parts f) {chosen : List (String × JointState α)}
    (mem : chosen ∈ tuples ((parts.map Part.space).map StateSpace.named)) :
    (Component.network scope children).stateName
        (JointState.modeNames (chosen.flatMap Prod.snd)) =
      ".".intercalate (chosen.map Prod.fst) := by
  have states : List.Forall₂ (fun part n => ∃ s ∈ part.child.states,
      n = (part.child.stateName s.modeNames, s.map (Local.within part.inst part.links)))
        parts chosen := by
    rw [mem_tuples, List.map_map, List.forall₂_map_right_iff] at mem
    refine mem.flip.imp fun part n mem => ?_
    obtain ⟨_, inSpace, rfl⟩ := List.mem_map.mp mem
    obtain ⟨s, inChild, rfl⟩ := List.mem_map.mp inSpace
    exact ⟨s, inChild, by rw [JointState.modeNames_within]; rfl⟩
  have groups : JointState.modeNames (chosen.flatMap Prod.snd) =
      (chosen.map fun n => JointState.modeNames n.2).flatten := by
    rw [JointState.modeNames, List.map_flatMap, List.flatMap_def]
    rfl
  have lengths : List.Forall₂ (fun entry names => names.length = entry.2.2.width)
      children.toList (chosen.map fun n => JointState.modeNames n.2) := by
    rw [← h.flattens.instances, List.forall₂_map_left_iff, List.forall₂_map_right_iff]
    refine states.imp ?_
    rintro part _ ⟨s, mem, rfl⟩
    rw [JointState.modeNames_within, JointState.modeNames, List.length_map,
      Component.length_of_mem_states mem]
  rw [Component.stateName, groups, Component.childStateNames_flatten lengths,
    ← h.flattens.instances]
  congr 1
  clear mem groups lengths h
  induction states with
  | nil => rfl
  | cons first _ ih =>
      obtain ⟨s, _, rfl⟩ := first
      rw [List.map_cons, List.map_cons, List.map_cons, List.zipWith_cons_cons, ih,
        JointState.modeNames_within]

/-- The names of the states are the joined names of the states of the parts. -/
theorem stateNames (h : NetworkOf scope children parts f) :
    (Component.network scope children).stateNames =
      (tuples (parts.map fun part => part.child.stateNames)).map (".".intercalate ·) := by
  have names : ((parts.map Part.space).map StateSpace.named).map (List.map Prod.fst) =
      parts.map fun part => part.child.stateNames := by
    rw [List.map_map, List.map_map]
    refine List.map_congr_left fun part _ => ?_
    simp only [Function.comp, StateSpace.named, Part.space, StateSpace.within, List.map_map]
    exact List.map_congr_left fun s _ => congrArg _ (JointState.modeNames_within ..)
  rw [← names, tuples_map, List.map_map, Component.stateNames, h.states, List.map_map]
  exact List.map_congr_left fun chosen mem => h.stateName mem

/-- If a network has states, they are told apart only if those of its parts are. -/
theorem distinct_part (h : NetworkOf scope children parts f)
    (distinct : (Component.network scope children).DistinctStates)
    (nonempty : (Component.network scope children).states ≠ []) {part : Part α}
    (mem : part ∈ parts) : part.child.DistinctStates := by
  have names :
      (tuples (parts.map fun part => part.child.stateNames)).map (".".intercalate ·) ≠ [] := by
    rw [← h.stateNames, Component.stateNames]
    exact mt List.map_eq_nil_iff.mp nonempty
  rw [Component.DistinctStates, h.stateNames] at distinct
  exact nodup_of_nodup_tuples (distinct.of_map _) (fun none => names (none ▸ rfl)) _
    (List.mem_map_of_mem mem)

theorem joins (h : NetworkOf scope children parts f)
    (distinct : (Component.network scope children).DistinctStates) :
    (Component.network scope children).space.Joins (parts.map Part.space) where
  states := h.states
  name _ mem := h.stateName mem
  nodup := distinct

end NetworkOf

/-! ## Names of modes -/

/-- The modes of a factor have the names; it may have fewer modes, if names are repeated. -/
structure Factor.Named (f : Factor α) (names : List String) : Prop where
  stored : ∀ entry ∈ f.automaton.modes.entries, entry.2.name = entry.1
  leaves : f.leaves.length = f.automaton.modes.entries.length
  keys : ∀ name, name ∈ f.automaton.modes.keys ↔ name ∈ names

namespace Factor.Named

variable {f : Factor α} {names : List String}

theorem map_name_choices (h : f.Named names) :
    f.choices.map (·.mode.name) = f.automaton.modes.keys := by
  have entries :
      (f.automaton.modes.entries.zip f.leaves).map Prod.fst = f.automaton.modes.entries :=
    List.map_fst_zip h.leaves.ge
  have unfolded : f.choices.map (·.mode.name) =
      ((f.automaton.modes.entries.zip f.leaves).map Prod.fst).map fun entry => entry.2.name := by
    rw [Factor.choices, List.map_map, List.map_map]
    rfl
  rw [unfolded, entries, NameMap.keys]
  exact List.map_congr_left h.stored

/-- Renaming leaves the names of modes. -/
theorem rename (h : f.Named names) (g : String → String) :
    Factor.Named { f with automaton := f.automaton.renameNames g } names := by
  have modes : (f.automaton.renameNames g).modes = f.automaton.modes.map (·.rename g) := by
    rw [Automaton.renameNames_eq]
  refine ⟨?_, ?_, ?_⟩
  · simp only [modes, NameMap.map, List.forall_mem_map]
    exact h.stored
  · rw [modes, NameMap.map, List.length_map]
    exact h.leaves
  · intro name
    rw [modes, NameMap.keys_map]
    exact h.keys name

/-- There are as many modes as names exactly if no name is repeated. -/
theorem size_eq_iff (h : f.Named names) : f.automaton.modes.size = names.length ↔ names.Nodup := by
  have nodup := f.automaton.modes.keys_nodup
  have size : f.automaton.modes.size = f.automaton.modes.keys.length := (List.length_map _).symm
  rw [size]
  constructor
  · intro same
    have subperm := nodup.subperm fun name mem => (h.keys name).mp mem
    exact (subperm.perm_of_length_le same.ge).nodup nodup
  · intro distinct
    exact ((List.perm_ext_iff_of_nodup nodup distinct).mpr h.keys).length_eq

end Factor.Named

theorem Product.ProductOf.named {scope : Scope α} {factors : List (Factor α)}
    {entries : List (String × Mode α × List Leaf)} {rows : List (List (Transition α))}
    {f : Factor α} (h : ProductOf scope factors entries rows f) {lists : List (List String)}
    (parts : List.Forall₂ Factor.Named factors lists) :
    f.Named ((tuples lists).map (".".intercalate ·)) where
  stored := by
    intro entry mem
    obtain ⟨tuple, _, name, joins⟩ := h.mem_modes mem
    exact joins.name.trans name.symm
  leaves := by
    rw [h.leaves, h.modes]
    simp [NameMap.values, NameMap.map]
  keys := by
    intro name
    have choices : (factors.map Factor.choices).map (List.map (·.mode.name)) =
        factors.map fun factor => factor.automaton.modes.keys := by
      rw [List.map_map]
      refine List.map_congr_left fun factor mem => ?_
      obtain ⟨names, _, named⟩ := exists_of_forall₂_left parts mem
      exact named.map_name_choices
    have modes : name ∈ f.automaton.modes.keys ↔
        name ∈ (tuples (factors.map Factor.choices)).map modeName := by
      constructor
      · intro mem
        obtain ⟨entry, stored, rfl⟩ := List.mem_map.mp mem
        obtain ⟨tuple, chosen, name, _⟩ := h.mem_modes stored
        exact List.mem_map.mpr ⟨tuple, chosen, name.symm⟩
      · intro mem
        obtain ⟨tuple, chosen, rfl⟩ := List.mem_map.mp mem
        exact h.modeName_mem_keys chosen
    have names : (tuples (factors.map Factor.choices)).map modeName =
        (tuples (factors.map fun factor => factor.automaton.modes.keys)).map
          (".".intercalate ·) := by
      rw [← choices, tuples_map, List.map_map]
      rfl
    rw [modes, names, List.mem_map, List.mem_map]
    refine exists_congr fun tuple => and_congr_left fun _ => mem_tuples_congr ?_
    exact List.forall₂_map_left_iff.mpr (parts.imp fun _ _ part => part.keys)

/-- The modes of a flattened component have the names of the states of the tree. -/
theorem Component.named_of_flatten {c : Component α} {f : Flattened α} (h : c.flatten = .ok f)
    (stored : ∀ p ∈ c.members, ∀ entry ∈ p.item.modes.entries, entry.2.name = entry.1) :
    f.factor.Named c.stateNames := by
  refine flatten_induction (P := fun c f => (∀ p ∈ c.members, ∀ entry ∈ p.item.modes.entries,
    entry.2.name = entry.1) → f.factor.Named c.stateNames) ?_ ?_ h stored
  · intro a stored
    have stored := stored (.here a) (List.mem_singleton_self _)
    have names : (flat a).stateNames = a.modes.keys := by
      rw [stateNames, states_flat, List.map_map, NameMap.values, List.map_map, NameMap.keys]
      refine List.map_congr_left fun entry mem => ?_
      exact (stateName_flat a entry.2.name).trans (stored entry mem)
    refine ⟨stored, ?_, fun name => by rw [names]; rfl⟩
    simp [ofAutomaton, NameMap.keys]
  · intro scope children parts f made ih stored
    obtain ⟨entries, rows, product⟩ := made.productOf
    rw [made.stateNames]
    refine product.named (List.forall₂_map_left_iff.mpr (List.forall₂_map_right_iff.mpr ?_))
    refine List.forall₂_same.mpr fun part mem => ?_
    have child := ih part mem fun p inChild => stored (p.within part.inst part.links)
      (made.mem_members.mpr ⟨part, mem, p, inChild, rfl⟩)
    exact child.rename part.outer

end HybridAutomata
