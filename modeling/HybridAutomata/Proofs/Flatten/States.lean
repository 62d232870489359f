import HybridAutomata.Proofs.Flatten.Products
import HybridAutomata.Proofs.Flatten.Places

/-!
# States of a tree

A state of a tree is a mode for each of its flat automata, and a jump takes one of them along a
transition and leaves the others. These are what product modes and product transitions stand for.
The name of a product mode joins the names of the modes in it network by network. If mode names
contain no points, the name determines the state: the number of points in a joined name depends on
the tree alone.
-/

namespace HybridAutomata

open Product

variable {α : Type}

/-! ## States and jumps -/

/-- A flat automaton of a tree in one of its modes. -/
structure Local (α : Type) where
  place : Place (Automaton α)
  mode : Mode α

namespace Local

/-- The same, seen from a network in which the tree is an instance. -/
def within (inst : String) (links : List Link) (l : Local α) : Local α :=
  { l with place := l.place.within inst links }

/-- The leaf that is recorded for the mode. -/
def leaf (l : Local α) : Leaf := ⟨l.place.item.path, l.mode.name⟩

end Local

/-- A mode for each flat automaton of a tree. -/
abbrev JointState (α : Type) := List (Local α)

/-- A transition of one automaton of a tree, and the state after it. -/
structure LocalJump (α : Type) where
  place : Place (Automaton α)
  transition : Transition α
  target : JointState α

def LocalJump.within (inst : String) (links : List Link) (jump : LocalJump α) : LocalJump α :=
  { jump with
    place := jump.place.within inst links
    target := jump.target.map (.within inst links) }

namespace JointState

def modeNames (s : JointState α) : List String := s.map (·.mode.name)

theorem modeNames_within (inst : String) (links : List Link) (s : JointState α) :
    modeNames (s.map (.within inst links)) = modeNames s := by
  rw [modeNames, modeNames, List.map_map]
  rfl

/-- The jumps that are possible in a state: every transition that leaves the mode of an automaton,
automaton by automaton. -/
def jumps : JointState α → List (LocalJump α)
  | [] => []
  | l :: rest =>
      ((l.place.item.transitionsFrom l.mode.name).filterMap fun t =>
        (l.place.item.mode? t.target).map fun mode => ⟨l.place, t, { l with mode } :: rest⟩) ++
      (jumps rest).map fun jump => { jump with target := l :: jump.target }

/-- A jump takes one automaton along a transition that leaves its mode, and leaves the others. -/
theorem mem_jumps_iff {s : JointState α} {jump : LocalJump α} : jump ∈ s.jumps ↔
    ∃ before l after mode, s = before ++ l :: after ∧ jump.place = l.place ∧
      jump.transition ∈ l.place.item.transitionsFrom l.mode.name ∧
      l.place.item.mode? jump.transition.target = some mode ∧
      jump.target = before ++ { l with mode } :: after := by
  induction s generalizing jump with
  | nil => simp [jumps]
  | cons l rest ih =>
      rw [jumps, List.mem_append, List.mem_filterMap, List.mem_map]
      constructor
      · rintro (⟨t, leaves, taken⟩ | ⟨inner, taken, rfl⟩)
        · obtain ⟨mode, found, rfl⟩ := Option.map_eq_some_iff.mp taken
          exact ⟨[], l, rest, mode, rfl, rfl, leaves, found, rfl⟩
        · obtain ⟨before, l', after, mode, rfl, place, leaves, found, target⟩ := ih.mp taken
          exact ⟨l :: before, l', after, mode, rfl, place, leaves, found,
            congrArg (List.cons l) target⟩
      · obtain ⟨place, t, target⟩ := jump
        rintro ⟨before, l', after, mode, eq, rfl, leaves, found, rfl⟩
        obtain _ | ⟨first, before⟩ := before
        · obtain ⟨rfl, rfl⟩ := List.cons.inj eq
          exact .inl ⟨t, leaves, Option.map_eq_some_iff.mpr ⟨mode, found, rfl⟩⟩
        · obtain ⟨rfl, rfl⟩ := List.cons.inj eq
          exact .inr ⟨⟨l'.place, t, before ++ { l' with mode } :: after⟩,
            ih.mpr ⟨before, l', after, mode, rfl, rfl, leaves, found, rfl⟩, rfl⟩

/-- In two states side by side, one of them jumps. -/
theorem jumps_append (s s' : JointState α) : jumps (s ++ s') =
    (jumps s).map (fun jump => { jump with target := jump.target ++ s' }) ++
      (jumps s').map (fun jump => { jump with target := s ++ jump.target }) := by
  induction s with
  | nil => simp [jumps]
  | cons l rest ih =>
      simp only [List.cons_append, jumps, ih, List.map_append, List.map_map, List.map_filterMap,
        List.append_assoc]
      refine congrArg₂ (· ++ ·) (List.filterMap_congr fun t _ => ?_) rfl
      cases l.place.item.mode? t.target <;> rfl

theorem jumps_within (inst : String) (links : List Link) (s : JointState α) :
    jumps (s.map (.within inst links)) = (jumps s).map (.within inst links) := by
  induction s with
  | nil => rfl
  | cons l rest ih =>
      simp only [List.map_cons, jumps, ih, List.map_append, List.map_map, List.map_filterMap]
      congr 1
      refine List.filterMap_congr fun t _ => ?_
      rw [Option.map_map]
      rfl

/-- Where all transitions lead to modes, there is a jump for each transition of each automaton. -/
theorem map_transition_jumps {s : JointState α} (targets : ∀ l ∈ s, ∀ t ∈ l.place.item.transitions,
    t.target ∈ l.place.item.modes.keys) :
    (jumps s).map LocalJump.transition =
      s.flatMap fun l => l.place.item.transitionsFrom l.mode.name := by
  induction s with
  | nil => rfl
  | cons l rest ih =>
      obtain ⟨first, others⟩ := List.forall_mem_cons.mp targets
      simp only [jumps, List.map_append, List.map_map, List.flatMap_cons, List.map_filterMap]
      refine congrArg₂ (· ++ ·) ?_ (ih others)
      rw [List.filterMap_congr (g := some), List.filterMap_some]
      intro t mem
      obtain ⟨mode, found⟩ := NameMap.mem_keys_iff.mp (first t (List.mem_of_mem_filter mem))
      have found : l.place.item.mode? t.target = some mode := found
      rw [found]
      rfl

end JointState

/-! ## The states of a tree -/

namespace Component

/-- All choices of a mode for each flat automaton; the last automaton is run through fastest. -/
def states (c : Component α) : List (JointState α) :=
  tuples (c.members.map fun p => p.item.modes.values.map (Local.mk p))

/-- The number of flat automata. -/
def width (c : Component α) : Nat := c.members.length

mutual

/-- The name of a product mode, given the names of the modes in it. -/
def stateName : Component α → List String → String
  | flat _, names => ".".intercalate names
  | network _ children, names => ".".intercalate (childStateNames children names)

/-- The names of the modes that the children are in. -/
def childStateNames {taken : List String} : Children α taken → List String → List String
  | .none, _ => []
  | .more _ _ _ child rest, names =>
      stateName child (names.take child.width) :: childStateNames rest (names.drop child.width)

end

theorem stateName_flat (a : Automaton α) (name : String) : (flat a).stateName [name] = name := by
  rw [stateName, String.intercalate_singleton]

/-- The names of the states of a tree. -/
def stateNames (c : Component α) : List String := c.states.map fun s => c.stateName s.modeNames

/-- Different states have different names. -/
def DistinctStates (c : Component α) : Prop := c.stateNames.Nodup

/-- A jump leads to a state. -/
theorem target_mem_tuples {places : List (Place (Automaton α))} {s : JointState α}
    (mem : s ∈ tuples (places.map fun p => p.item.modes.values.map (Local.mk p)))
    {jump : LocalJump α} (taken : jump ∈ s.jumps) :
    jump.target ∈ tuples (places.map fun p => p.item.modes.values.map (Local.mk p)) := by
  rw [mem_tuples] at mem ⊢
  induction places generalizing s jump with
  | nil =>
      cases mem
      cases taken
  | cons p places ih =>
      obtain _ | ⟨first, others⟩ := mem
      obtain ⟨m, _, rfl⟩ := List.mem_map.mp first
      obtain taken | taken := List.mem_append.mp taken
      · obtain ⟨t, _, found⟩ := List.mem_filterMap.mp taken
        obtain ⟨mode, looked, rfl⟩ := Option.map_eq_some_iff.mp found
        have stored : mode ∈ p.item.modes.values :=
          List.mem_map.mpr ⟨_, NameMap.find?_eq_some_iff.mp looked, rfl⟩
        exact .cons (List.mem_map_of_mem stored) others
      · obtain ⟨inner, inRest, rfl⟩ := List.mem_map.mp taken
        exact .cons first (ih others inRest)

theorem target_mem_states {c : Component α} {s : JointState α} (mem : s ∈ c.states)
    {jump : LocalJump α} (taken : jump ∈ s.jumps) : jump.target ∈ c.states :=
  target_mem_tuples mem taken

theorem place_mem_members {c : Component α} {s : JointState α} (mem : s ∈ c.states) {l : Local α}
    (inState : l ∈ s) : l.place ∈ c.members := by
  obtain ⟨choices, listed, mem⟩ :=
    Success.exists_of_forall₂_left (mem_tuples.mp mem) inState
  obtain ⟨p, inTree, rfl⟩ := List.mem_map.mp listed
  obtain ⟨m, _, rfl⟩ := List.mem_map.mp mem
  exact inTree

theorem length_of_mem_states {c : Component α} {s : JointState α} (mem : s ∈ c.states) :
    s.length = c.width := by
  rw [(mem_tuples.mp mem).length_eq, List.length_map, width]

/-- There are as many states as the numbers of modes of the automata multiply to. -/
theorem length_states (c : Component α) :
    c.states.length = (c.automata.map fun a => a.modes.size).prod := by
  rw [states, length_tuples, ← map_item_members, List.map_map, List.map_map]
  simp [Function.comp_def, NameMap.values, NameMap.size]

theorem states_flat (a : Automaton α) :
    (flat a).states = a.modes.values.map fun m => [⟨.here a, m⟩] := by
  rw [states, members, List.map_singleton]
  simp only [tuples, List.map_singleton, List.flatMap_map]
  exact List.flatMap_pure_eq_map ..

/-- The states of a tree inside a network. -/
theorem tuples_within (inst : String) (links : List Link) (c : Component α) :
    tuples ((c.members.map (Place.within inst links)).map fun p =>
        p.item.modes.values.map (Local.mk p)) =
      c.states.map (List.map (.within inst links)) := by
  rw [states, ← tuples_map, List.map_map, List.map_map]
  congr 1
  refine List.map_congr_left fun p _ => ?_
  simp only [Function.comp, Place.item_within, List.map_map]
  rfl

/-! ## Names of states -/

/-- Names that can be the mode names of a state of a tree with a number of automata. -/
structure NamesFor (count : Nat) (names : List String) : Prop where
  length : names.length = count
  simple : ∀ name ∈ names, IsSimple name

theorem NamesFor.take {first second : Nat} {names : List String}
    (h : NamesFor (first + second) names) : NamesFor first (names.take first) where
  length := by rw [List.length_take, h.length]; omega
  simple := fun name mem => h.simple name (List.mem_of_mem_take mem)

theorem NamesFor.drop {first second : Nat} {names : List String}
    (h : NamesFor (first + second) names) : NamesFor second (names.drop first) where
  length := by rw [List.length_drop, h.length]; omega
  simple := fun name mem => h.simple name (List.mem_of_mem_drop mem)

theorem points_intercalate_congr {names names' : List String}
    (same : names.map points = names'.map points) :
    points (".".intercalate names) = points (".".intercalate names') := by
  have lengths : names.length = names'.length := by simpa using congrArg List.length same
  obtain rfl | nonempty := eq_or_ne names []
  · obtain rfl := List.map_eq_nil_iff.mp same.symm
    rfl
  · have nonempty' : names' ≠ [] := by
      rintro rfl
      exact nonempty (List.length_eq_zero_iff.mp lengths)
    have count := points_intercalate nonempty
    have count' := points_intercalate nonempty'
    rw [same] at count
    omega

theorem width_more {taken : List String} (inst : String) (fresh : inst ∉ taken)
    (links : List Link) (child : Component α) (rest : Children α (inst :: taken)) :
    (childMembers (.more inst fresh links child rest)).length =
      child.width + (childMembers rest).length := by
  rw [childMembers, List.length_append, List.length_map, width]

mutual

/-- The number of points in the name of a state depends on the tree alone. -/
theorem points_stateName : ∀ {c : Component α} {names names' : List String},
    NamesFor c.width names → NamesFor c.width names' →
      points (c.stateName names) = points (c.stateName names')
  | .flat a, names, names', h, h' => by
      obtain ⟨name, rfl⟩ := List.length_eq_one_iff.mp h.length
      obtain ⟨name', rfl⟩ := List.length_eq_one_iff.mp h'.length
      have simple := points_eq_zero_iff.mpr (h.simple name List.mem_cons_self)
      have simple' := points_eq_zero_iff.mpr (h'.simple name' List.mem_cons_self)
      rw [stateName, stateName, String.intercalate_singleton, String.intercalate_singleton, simple,
        simple']
  | .network scope children, names, names', h, h' =>
      points_intercalate_congr (points_childStateNames h h')

theorem points_childStateNames :
    ∀ {taken : List String} {children : Children α taken} {names names' : List String},
      NamesFor (childMembers children).length names →
      NamesFor (childMembers children).length names' →
        (childStateNames children names).map points =
          (childStateNames children names').map points
  | _, .none, _, _, _, _ => rfl
  | _, .more inst _ links child rest, names, names', h, h' => by
      rw [width_more] at h h'
      rw [childStateNames, childStateNames, List.map_cons, List.map_cons,
        points_stateName h.take h'.take, points_childStateNames h.drop h'.drop]

end

mutual

/-- The name of a state determines the names of the modes. -/
theorem stateName_inj : ∀ {c : Component α} {names names' : List String},
    NamesFor c.width names → NamesFor c.width names' →
      c.stateName names = c.stateName names' → names = names'
  | .flat a, names, names', h, h', eq => by
      obtain ⟨name, rfl⟩ := List.length_eq_one_iff.mp h.length
      obtain ⟨name', rfl⟩ := List.length_eq_one_iff.mp h'.length
      rw [stateName, stateName, String.intercalate_singleton, String.intercalate_singleton] at eq
      rw [eq]
  | .network scope children, names, names', h, h', eq =>
      childStateNames_inj h h' (intercalate_inj (points_childStateNames h h') eq)

theorem childStateNames_inj :
    ∀ {taken : List String} {children : Children α taken} {names names' : List String},
      NamesFor (childMembers children).length names →
      NamesFor (childMembers children).length names' →
        childStateNames children names = childStateNames children names' → names = names'
  | _, .none, names, names', h, h', _ => by
      rw [List.length_eq_zero_iff.mp h.length, List.length_eq_zero_iff.mp h'.length]
  | _, .more inst _ links child rest, names, names', h, h', eq => by
      rw [width_more] at h h'
      obtain ⟨first, others⟩ := List.cons.inj eq
      rw [← List.take_append_drop child.width names, ← List.take_append_drop child.width names',
        stateName_inj h.take h'.take first, childStateNames_inj h.drop h'.drop others]

end

/-- The name of a state of a network joins the names of the states of its instances. -/
theorem childStateNames_flatten :
    ∀ {taken : List String} {children : Children α taken} {groups : List (List String)},
      List.Forall₂ (fun entry names => names.length = entry.2.2.width) children.toList groups →
        childStateNames children groups.flatten =
          List.zipWith (fun entry names => stateName entry.2.2 names) children.toList groups
  | _, .none, groups, h => by
      cases h
      rfl
  | _, .more inst _ links child rest, groups, h => by
      obtain _ | ⟨first, others⟩ := h
      rw [childStateNames, List.flatten_cons, List.take_left' first, List.drop_left' first,
        childStateNames_flatten others]
      rfl

section

variable {c : Component α}

/-- Modes are stored under their names, and these contain no points. -/
structure SimpleModes (c : Component α) : Prop where
  stored : ∀ p ∈ c.members, ∀ entry ∈ p.item.modes.entries, entry.2.name = entry.1
  simple : ∀ p ∈ c.members, ∀ name ∈ p.item.modes.keys, IsSimple name

theorem map_modeNames_states (h : c.SimpleModes) :
    c.states.map JointState.modeNames = tuples (c.members.map fun p => p.item.modes.keys) := by
  have names : (c.states.map JointState.modeNames) =
      c.states.map (List.map fun l : Local α => l.mode.name) := rfl
  rw [names, states, ← tuples_map, List.map_map]
  congr 1
  refine List.map_congr_left fun p mem => ?_
  simp only [Function.comp, List.map_map, NameMap.values, NameMap.keys]
  exact List.map_congr_left fun entry stored => h.stored p mem entry stored

theorem namesFor_of_mem_states (h : c.SimpleModes) {s : JointState α} (mem : s ∈ c.states) :
    NamesFor c.width s.modeNames := by
  refine ⟨(List.length_map ..).trans (length_of_mem_states mem), fun name inNames => ?_⟩
  have chosen := List.mem_map_of_mem (f := JointState.modeNames) mem
  rw [map_modeNames_states h, mem_tuples] at chosen
  obtain ⟨keys, listed, mem⟩ := Success.exists_of_forall₂_left chosen inNames
  obtain ⟨p, inTree, rfl⟩ := List.mem_map.mp listed
  exact h.simple p inTree name mem

/-- Names without points tell states apart. -/
theorem SimpleModes.distinctStates (h : c.SimpleModes) : c.DistinctStates := by
  have names : (c.states.map JointState.modeNames).Nodup := by
    rw [map_modeNames_states h]
    refine nodup_tuples (List.forall_mem_map.mpr fun p _ => p.item.modes.keys_nodup)
  have namesFor {names} (mem : names ∈ c.states.map JointState.modeNames) :
      NamesFor c.width names := by
    obtain ⟨s, inStates, rfl⟩ := List.mem_map.mp mem
    exact namesFor_of_mem_states h inStates
  have joined := List.Nodup.map_on (f := c.stateName)
    (fun x hx y hy eq => stateName_inj (namesFor hx) (namesFor hy) eq) names
  rwa [List.map_map] at joined

end

end Component

end HybridAutomata
