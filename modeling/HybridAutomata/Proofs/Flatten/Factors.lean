import HybridAutomata.Proofs.Expr.Connectives
import HybridAutomata.Proofs.Expr.Substitution
import HybridAutomata.Proofs.Flatten.States
import HybridAutomata.Proofs.Flatten.Steps

/-!
# Products that interleave

The modes of a factor may stand for states of several automata side by side, and its transitions for
their jumps. If the factors of a product do so, the product does as well, for their states side by
side. This also holds if names in the factors are renamed, provided that the renaming keeps names
apart; the renamings of all levels add up to the one that belongs to the place of an automaton.
-/

namespace HybridAutomata

open Flattened Product Success

variable {α : Type}

/-! ## Modes for states -/

/-- The rates of the mode, with their names as they are outside. -/
def Local.rates (l : Local α) : List (String × Perturbed α) :=
  l.mode.flows.map (renameEntry l.place.rename)

namespace JointState

/-- The rates of all modes, in order. -/
def rates (s : JointState α) : List (String × Perturbed α) := s.flatMap Local.rates

/-- The names that get a rate. -/
def assigned (s : JointState α) : List String := s.rates.map Prod.fst

/-- Time can pass if it can in all modes. -/
def hasFlow (s : JointState α) : Bool := s.all (·.mode.hasFlow)

theorem rates_within (inst : String) (links : List Link) (s : JointState α) :
    rates (s.map (.within inst links)) = s.rates.map (renameEntry (outerName inst links)) := by
  rw [rates, rates, List.flatMap_map, List.map_flatMap]
  refine List.flatMap_congr fun l _ => ?_
  rw [Local.rates, Local.rates, List.map_map, renameEntry_comp]
  rfl

@[simp] theorem hasFlow_within (inst : String) (links : List Link) (s : JointState α) :
    hasFlow (s.map (.within inst links)) = s.hasFlow := by
  rw [hasFlow, hasFlow, List.all_map]
  rfl

theorem hasFlow_append (s s' : JointState α) : hasFlow (s ++ s') = (s.hasFlow && s'.hasFlow) :=
  List.all_append ..

theorem rates_append (s s' : JointState α) : rates (s ++ s') = s.rates ++ s'.rates :=
  List.flatMap_append ..

end JointState

/-- The transition for a jump, from mode to mode. -/
def LocalJump.transitionFrom (name : List String → String) (s : JointState α)
    (jump : LocalJump α) : Transition α :=
  { jump.transition.rename jump.place.rename with
    source := name s.modeNames
    target := name jump.target.modeNames }

section

variable [Scalar α]

/-- A mode in which all automata are in their modes at once. -/
structure JointMode (s : JointState α) (m : Mode α) : Prop where
  urgent : m.urgent = s.any (·.mode.urgent)
  invariant : ∀ env, m.invariant.holds env = .ok true ↔
    ∀ l ∈ s, (l.mode.invariant.rename l.place.rename).holds env = .ok true
  hasFlow : m.hasFlow = s.hasFlow
  /-- The rates are those of all modes, in order; they are for different variables. -/
  flows : s.hasFlow = true → m.flows = s.rates

/-- The states that the modes of an automaton stand for, and the names of these modes. -/
structure StateSpace (α : Type) where
  states : List (JointState α)
  name : List String → String

namespace StateSpace

/-- The states with their names. -/
def named (space : StateSpace α) : List (String × JointState α) :=
  space.states.map fun s => (space.name s.modeNames, s)

/-- The states, seen from a network in which the tree is an instance. -/
def within (inst : String) (links : List Link) (space : StateSpace α) : StateSpace α :=
  { space with states := space.states.map (List.map (.within inst links)) }

omit [Scalar α] in
theorem name_within (inst : String) (links : List Link) (space : StateSpace α) :
    (space.within inst links).name = space.name := rfl

/-- Jumps lead to states. -/
def Closed (space : StateSpace α) : Prop :=
  ∀ s ∈ space.states, ∀ jump ∈ s.jumps, jump.target ∈ space.states

/-- The transitions for all jumps of all states. -/
def transitions (space : StateSpace α) : List (Transition α) :=
  space.states.flatMap fun s => s.jumps.map (LocalJump.transitionFrom space.name s)

omit [Scalar α] in
/-- Where states have different names, transitions from the name of a state are for its jumps. -/
theorem transitions_from (space : StateSpace α)
    (nodup : (space.states.map fun s => space.name s.modeNames).Nodup) {s : JointState α}
    (mem : s ∈ space.states) : space.transitions.filter (·.source == space.name s.modeNames) =
      s.jumps.map (LocalJump.transitionFrom space.name s) := by
  have keys : (space.states.flatMap fun s => [space.name (JointState.modeNames s)]).Nodup := by
    have names := List.flatMap_pure_eq_map
      (fun s => space.name (JointState.modeNames s)) space.states
    exact names ▸ nodup
  have others : ∀ other ∈ space.states, space.name s.modeNames ∉ [space.name other.modeNames] →
      (other.jumps.map (LocalJump.transitionFrom space.name other)).filter
        (·.source == space.name s.modeNames) = [] := by
    intro other _ absent
    rw [List.filter_eq_nil_iff]
    intro t taken same
    obtain ⟨jump, _, rfl⟩ := List.mem_map.mp taken
    exact absent (List.mem_singleton.mpr (beq_iff_eq.mp same).symm)
  rw [transitions, List.filter_flatMap,
    flatMap_eq_of_key keys others mem (List.mem_singleton_self _), List.filter_eq_self.mpr]
  intro t taken
  obtain ⟨jump, _, rfl⟩ := List.mem_map.mp taken
  exact beq_self_eq_true _

omit [Scalar α] in
theorem map_snd_named (space : StateSpace α) : space.named.map Prod.snd = space.states := by
  rw [named, List.map_map]
  exact List.map_id _

end StateSpace

/-- The modes of a factor stand for the states, and the transitions from such a mode for the jumps
of its state. -/
structure Factor.Interleaves (f : Factor α) (space : StateSpace α) : Prop where
  modes : List.Forall₂ (fun s entry => entry.1 = space.name s.modeNames ∧
    entry.2.name = entry.1 ∧ JointMode s entry.2) space.states f.automaton.modes.entries
  leaves : f.leaves = space.states.map (List.map Local.leaf)
  transitions : ∀ s ∈ space.states, f.automaton.transitionsFrom (space.name s.modeNames) =
    s.jumps.map (LocalJump.transitionFrom space.name s)

/-- A choice in a product stands for a state of its factor. -/
structure Stands (n : String × JointState α) (choice : Choice α) : Prop where
  key : choice.key = n.1
  name : choice.mode.name = n.1
  leaves : choice.leaves = n.2.map Local.leaf
  joint : JointMode n.2 choice.mode

namespace Factor.Interleaves

variable {f : Factor α} {space : StateSpace α}

theorem keys (h : f.Interleaves space) :
    f.automaton.modes.keys = space.states.map fun s => space.name s.modeNames :=
  eq_map_of_forall₂ (List.forall₂_map_right_iff.mpr (h.modes.imp fun _ _ entry => entry.1))

/-- Different states have modes of different names. -/
theorem eq_of_name_eq (h : f.Interleaves space) {s s' : JointState α} (mem : s ∈ space.states)
    (mem' : s' ∈ space.states) (eq : space.name s.modeNames = space.name s'.modeNames) : s = s' :=
  List.inj_on_of_nodup_map (h.keys ▸ f.automaton.modes.keys_nodup) mem mem' eq

theorem choices (h : f.Interleaves space) : List.Forall₂ Stands space.named f.choices := by
  rw [StateSpace.named, Factor.choices, h.leaves]
  have modes := h.modes
  generalize space.states = states, f.automaton.modes.entries = entries at modes
  induction modes with
  | nil => exact .nil
  | cons first _ ih =>
      obtain ⟨key, name, joint⟩ := first
      exact .cons ⟨key, name.trans key, rfl, joint⟩ ih

/-- Looking up the name of a state finds what stands for it. -/
theorem exists_choice? (h : f.Interleaves space) {s : JointState α} (mem : s ∈ space.states) :
    ∃ choice, f.choice? (space.name s.modeNames) = some choice ∧
      Stands (space.name s.modeNames, s) choice := by
  obtain ⟨choice, listed, stands⟩ :=
    exists_of_forall₂_left h.choices (List.mem_map_of_mem (f := fun s => (_, s)) mem)
  have present : (f.choices.find? (·.key == space.name s.modeNames)).isSome = true :=
    List.find?_isSome.mpr ⟨choice, listed, beq_iff_eq.mpr stands.key⟩
  obtain ⟨found, hfound⟩ := Option.isSome_iff_exists.mp present
  refine ⟨found, hfound, ?_⟩
  obtain ⟨n, isNamed, standsFor⟩ :=
    exists_of_forall₂_right h.choices (List.mem_of_find?_eq_some hfound)
  obtain ⟨s', mem', rfl⟩ := List.mem_map.mp isNamed
  have same : found.key = space.name s.modeNames := by simpa using List.find?_some hfound
  obtain rfl := h.eq_of_name_eq mem' mem (standsFor.key.symm.trans same)
  exact standsFor

end Factor.Interleaves

/-! ## Renaming -/

namespace JointMode

variable {s : JointState α} {m : Mode α} {inst : String} {links : List Link}

/-- Seen from a network, names are renamed once more. -/
theorem within (h : JointMode s m) (apart : s.hasFlow = true →
    Set.InjOn (outerName inst links) {x | x ∈ s.assigned}) :
    JointMode (s.map (.within inst links)) (m.rename (outerName inst links)) where
  urgent := by
    rw [Mode.urgent_rename, h.urgent, List.any_map]
    rfl
  invariant := by
    intro env
    rw [Mode.invariant_rename, Expr.holds_rename, h.invariant, List.forall_mem_map]
    refine forall₂_congr fun l _ => ?_
    have renamed : l.mode.invariant.rename (l.within inst links).place.rename =
        (l.mode.invariant.rename l.place.rename).rename (outerName inst links) := by
      simp [Local.within]
    rw [← Expr.holds_rename, ← renamed]
    rfl
  hasFlow := by
    rw [Mode.hasFlow_rename, h.hasFlow, JointState.hasFlow_within]
  flows := by
    intro flowing
    rw [JointState.hasFlow_within] at flowing
    have apart : Set.InjOn (outerName inst links) {x | x ∈ m.assigned} := by
      rw [Mode.assigned, h.flows flowing]
      exact apart flowing
    rw [Mode.flows_rename apart, h.flows flowing, JointState.rates_within]

end JointMode

omit [Scalar α] in
theorem LocalJump.transitionFrom_within {inst : String} {links : List Link}
    (name : List String → String) {s : JointState α} {jump : LocalJump α}
    (apart : Set.InjOn jump.place.rename {x | x ∈ jump.transition.assigned}) :
    (jump.within inst links).transitionFrom name (s.map (.within inst links)) =
      (jump.transitionFrom name s).rename (outerName inst links) := by
  have renamed := Transition.rename_rename (g := outerName inst links) apart
  rw [transitionFrom, transitionFrom, JointState.modeNames_within, within,
    JointState.modeNames_within, Place.rename_within, ← renamed]
  rfl

/-- A part of a network interleaves as its child does, unless two rates or new values of the child
get one name. -/
theorem Part.interleaves {part : Part α} {space : StateSpace α}
    (h : part.flattened.factor.Interleaves space)
    (rates : ∀ s ∈ space.states, s.hasFlow = true → Set.InjOn part.outer {x | x ∈ s.assigned})
    (resets : ∀ s ∈ space.states, ∀ jump ∈ s.jumps,
      Set.InjOn jump.place.rename {x | x ∈ jump.transition.assigned}) :
    part.factor.Interleaves (space.within part.inst part.links) where
  modes := by
    rw [Part.modes_factor]
    refine List.forall₂_map_left_iff.mpr (List.forall₂_map_right_iff.mpr ?_)
    refine ((List.forall₂_and_left _ _).mpr ⟨rates, h.modes⟩).imp ?_
    rintro s entry ⟨apart, key, name, joint⟩
    refine ⟨?_, name, joint.within apart⟩
    rw [JointState.modeNames_within]
    exact key
  leaves := by
    have leaves : part.factor.leaves = part.flattened.factor.leaves := rfl
    rw [leaves, h.leaves, StateSpace.within, List.map_map]
    refine List.map_congr_left fun s _ => ?_
    rw [Function.comp, List.map_map]
    rfl
  transitions := by
    refine List.forall_mem_map.mpr fun (s : JointState α) mem => ?_
    have leaving := h.transitions s mem
    have sources : ((fun t : Transition α => t.source == space.name s.modeNames) ∘
        Transition.rename part.outer) = fun t => t.source == space.name s.modeNames := rfl
    rw [Automaton.transitionsFrom] at leaving ⊢
    rw [StateSpace.name_within, JointState.modeNames_within, Part.transitions_factor,
      List.filter_map, sources, Part.automaton, leaving, JointState.jumps_within, List.map_map,
      List.map_map]
    refine List.map_congr_left fun jump taken => ?_
    exact (LocalJump.transitionFrom_within space.name (resets s mem jump taken)).symm

/-! ## Products -/

section

variable {spaces : List (StateSpace α)} {factors : List (Factor α)}

theorem hasFlow_of_stands {chosen : List (String × JointState α)} {tuple : List (Choice α)}
    (stands : List.Forall₂ Stands chosen tuple) :
    tuple.all (·.mode.hasFlow) = JointState.hasFlow (chosen.flatMap Prod.snd) := by
  induction stands with
  | nil => rfl
  | cons first _ ih =>
      rw [List.all_cons, List.flatMap_cons, JointState.hasFlow_append, ih, first.joint.hasFlow]

/-- Choices that stand for states are joined to a mode that stands for the states side by side. -/
theorem Product.Joins.joint {chosen : List (String × JointState α)} {tuple : List (Choice α)}
    {m : Mode α} (h : Joins tuple m) (stands : List.Forall₂ Stands chosen tuple) :
    JointMode (chosen.flatMap Prod.snd) m where
  urgent := by
    rw [h.urgent]
    clear h
    induction stands with
    | nil => rfl
    | cons first _ ih =>
        rw [List.any_cons, List.flatMap_cons, List.any_append, ih, first.joint.urgent]
  invariant := by
    intro env
    rw [h.invariant, Expr.andAll_holds_iff, List.forall_mem_map]
    clear h
    induction stands with
    | nil => simp
    | cons first _ ih =>
        rw [List.forall_mem_cons, List.flatMap_cons, List.forall_mem_append, ih,
          first.joint.invariant]
  hasFlow := h.hasFlow.trans (hasFlow_of_stands stands)
  flows := by
    intro flowing
    rw [h.flows ((h.hasFlow.trans (hasFlow_of_stands stands)).trans flowing)]
    clear h
    induction stands with
    | nil => rfl
    | cons first _ ih =>
        rw [List.flatMap_cons, JointState.hasFlow_append, Bool.and_eq_true] at flowing
        rw [List.flatMap_cons, List.flatMap_cons, JointState.rates_append, ih flowing.2,
          first.joint.flows flowing.1]

omit [Scalar α] in
theorem modeName_eq {chosen : List (String × JointState α)} {tuple : List (Choice α)}
    (names : List.Forall₂ (fun n choice => choice.mode.name = n.1) chosen tuple) :
    modeName tuple = ".".intercalate (chosen.map Prod.fst) := by
  rw [modeName]
  congr 1
  induction names with
  | nil => rfl
  | cons first _ ih => rw [List.map_cons, List.map_cons, ih, first]

theorem modeName_of_stands {chosen : List (String × JointState α)} {tuple : List (Choice α)}
    (stands : List.Forall₂ Stands chosen tuple) :
    modeName tuple = ".".intercalate (chosen.map Prod.fst) :=
  modeName_eq (stands.imp fun _ _ choice => choice.name)

/-- One automaton of a product moves: its transitions, for the jumps of its state. `label` is the
name of the product mode in which the automaton has come to another state. -/
theorem moved_eq {f : Factor α} {space : StateSpace α} (h : f.Interleaves space)
    (closed : space.Closed) {s : JointState α} (mem : s ∈ space.states) {choice : Choice α}
    (stands : Stands (space.name s.modeNames, s) choice) {before after : List (Choice α)}
    {row : List (Transition α)} {label : JointState α → String}
    (labels : ∀ s' ∈ space.states, ∀ choice', Stands (space.name s'.modeNames, s') choice' →
      modeName (before ++ choice' :: after) = label s')
    (success : (f.automaton.transitionsFrom choice.key).mapM
      (move (before ++ choice :: after) before.length f) = .ok row) :
    row = s.jumps.map fun jump => { jump.transition.rename jump.place.rename with
      source := modeName (before ++ choice :: after)
      target := label jump.target } := by
  rw [stands.key, h.transitions s mem] at success
  refine eq_map_of_forall₂ (((List.forall₂_and_left _ _).mpr ⟨closed s mem,
    List.forall₂_map_left_iff.mp (mapM_eq_ok_iff.mp success)⟩).imp ?_)
  rintro jump t' ⟨inSpace, moved⟩
  obtain ⟨target, looked, rfl⟩ := move_eq_ok_iff.mp moved
  obtain ⟨target', looked', standsFor⟩ := h.exists_choice? inSpace
  obtain rfl := Option.some.inj (looked.symm.trans looked')
  rw [List.set_append_right _ _ (Nat.le_refl _), Nat.sub_self, List.set_cons_zero,
    labels jump.target inSpace target standsFor]
  rfl

/-- The automata of a product move one after the other; here those from a position on. -/
theorem rows_flatten_eq {name : List String → String}
    {chosen chosen' : List (String × JointState α)} {tuple tuple' : List (Choice α)}
    {rows : List (List (Transition α))} (closed : ∀ space ∈ spaces, space.Closed)
    (parts : List.Forall₂ Factor.Interleaves factors spaces)
    (before : List.Forall₂ Stands chosen tuple) (after : List.Forall₂ Stands chosen' tuple')
    (listed : List.Forall₂ (fun n space => n ∈ StateSpace.named space) chosen' spaces)
    (names : ∀ other, List.Forall₂ (fun n space => n ∈ StateSpace.named space) other spaces →
      name (JointState.modeNames ((chosen ++ other).flatMap Prod.snd)) =
        ".".intercalate ((chosen ++ other).map Prod.fst))
    (success : List.Forall₂ (fun entry row =>
        (entry.1.1.automaton.transitionsFrom entry.1.2.key).mapM
          (move (tuple ++ tuple') entry.2 entry.1.1) = .ok row)
      ((factors.zip tuple').zipIdx tuple.length) rows) :
    rows.flatten = (JointState.jumps (chosen'.flatMap Prod.snd)).map fun jump =>
      { jump.transition.rename jump.place.rename with
        source := modeName (tuple ++ tuple')
        target := name (JointState.modeNames (chosen.flatMap Prod.snd ++ jump.target)) } := by
  induction listed generalizing chosen tuple tuple' factors rows with
  | nil =>
      cases after
      cases parts
      cases success
      rfl
  | @cons n space chosen' spaces mem listed ih =>
      obtain _ | @⟨_, choice, _, tuple', stands, after⟩ := after
      obtain _ | ⟨first, parts⟩ := parts
      obtain _ | ⟨moved, success⟩ := success
      obtain ⟨closedFirst, closed⟩ := List.forall_mem_cons.mp closed
      obtain ⟨s, inSpace, rfl⟩ := List.mem_map.mp mem
      -- The first automaton moves, the others stay.
      let label (s' : JointState α) : String := name (JointState.modeNames
        (chosen.flatMap Prod.snd ++ (s' ++ chosen'.flatMap Prod.snd)))
      have labels (s' : JointState α) (mem' : s' ∈ space.states) (choice' : Choice α)
          (standsFor : Stands (space.name s'.modeNames, s') choice') :
          modeName (tuple ++ choice' :: tuple') = label s' := by
        have isNamed : (space.name s'.modeNames, s') ∈ space.named :=
          List.mem_map.mpr ⟨s', mem', rfl⟩
        rw [modeName_of_stands (List.rel_append before (.cons standsFor after)),
          ← names _ (.cons isNamed listed), List.flatMap_append, List.flatMap_cons]
      have row := moved_eq first closedFirst inSpace stands labels moved
      -- The first automaton stays, the others move.
      have others := ih closed parts (List.rel_append before (.cons stands .nil)) after
        (fun other h => by
          have joined := names (_ :: other) (.cons mem h)
          rwa [List.append_cons] at joined)
        (by
          rw [List.append_cons] at success
          rw [List.length_append]
          exact success)
      rw [List.flatten_cons, row, others, List.flatMap_cons, JointState.jumps_append,
        List.map_append, List.map_map, List.map_map, ← List.append_cons]
      refine congrArg₂ (· ++ ·) (List.map_congr_left fun jump _ => rfl)
        (List.map_congr_left fun jump _ => ?_)
      simp [Function.comp]

/-- The states of a space are the states of several spaces side by side, under joined names. -/
structure StateSpace.Joins (space : StateSpace α) (spaces : List (StateSpace α)) : Prop where
  states : space.states = (tuples (spaces.map named)).map (List.flatMap Prod.snd)
  name : ∀ chosen ∈ tuples (spaces.map named),
    space.name (JointState.modeNames (chosen.flatMap Prod.snd)) =
      ".".intercalate (chosen.map Prod.fst)
  nodup : (space.states.map fun s => space.name s.modeNames).Nodup

namespace Product.ProductOf

variable {scope : Scope α} {entries : List (String × Mode α × List Leaf)}
  {rows : List (List (Transition α))} {f : Factor α} {space : StateSpace α}

/-- The tuples of a product stand for states side by side. -/
theorem stands (parts : List.Forall₂ Factor.Interleaves factors spaces) :
    List.Forall₂ (List.Forall₂ Stands) (tuples (spaces.map StateSpace.named))
      (tuples (factors.map Factor.choices)) :=
  forall₂_tuples (List.forall₂_map_left_iff.mpr (List.forall₂_map_right_iff.mpr
    (parts.flip.imp fun _ _ part => part.choices)))

/-- The modes of a product stand for states side by side. -/
theorem entries_stand (h : ProductOf scope factors entries rows f)
    (parts : List.Forall₂ Factor.Interleaves factors spaces) :
    List.Forall₂ (fun chosen entry => entry.1 = ".".intercalate (chosen.map Prod.fst) ∧
        entry.2.1.name = entry.1 ∧ JointMode (chosen.flatMap Prod.snd) entry.2.1 ∧
          entry.2.2 = (chosen.flatMap Prod.snd).map Local.leaf)
      (tuples (spaces.map StateSpace.named)) entries := by
  have leaves {chosen : List (String × JointState α)} {tuple : List (Choice α)}
      (stands : List.Forall₂ Stands chosen tuple) :
      tuple.flatMap Choice.leaves = (chosen.flatMap Prod.snd).map Local.leaf := by
    induction stands with
    | nil => rfl
    | cons first _ ih =>
        rw [List.flatMap_cons, List.flatMap_cons, List.map_append, ih, first.leaves]
  refine (forall₂_comp (stands parts) h.made).imp ?_
  rintro chosen ⟨key, m, recorded⟩ ⟨tuple, stands, success, eq⟩
  obtain ⟨rfl, eq⟩ := Prod.mk.inj eq
  obtain ⟨_, rfl⟩ := Prod.mk.inj eq
  have joins := joins_of_mode success
  exact ⟨modeName_of_stands stands, joins.name, joins.joint stands, leaves stands⟩

/-- The transitions of a product are the jumps of its states. -/
theorem rows_eq (h : ProductOf scope factors entries rows f)
    (parts : List.Forall₂ Factor.Interleaves factors spaces)
    (closed : ∀ space ∈ spaces, space.Closed) (joins : space.Joins spaces) :
    rows = space.states.map fun s => s.jumps.map (LocalJump.transitionFrom space.name s) := by
  rw [joins.states, List.map_map]
  refine eq_map_of_forall₂ (((List.forall₂_and_left _ _).mpr
    ⟨fun _ mem => mem, forall₂_comp (stands parts) h.moved⟩).imp ?_)
  rintro chosen row ⟨mem, tuple, stands, success⟩
  simp only [moves, bind_eq_ok_iff, pure_eq_ok_iff] at success
  obtain ⟨rows, success, rfl⟩ := success
  have listed {other} : List.Forall₂ (fun n space => n ∈ StateSpace.named space) other spaces ↔
      other ∈ tuples (spaces.map StateSpace.named) := by
    rw [mem_tuples, List.forall₂_map_right_iff]
  rw [rows_flatten_eq closed parts .nil stands (listed.mpr mem)
    (fun other h => joins.name other (listed.mp h)) (mapM_eq_ok_iff.mp success)]
  refine List.map_congr_left fun jump _ => ?_
  rw [List.nil_append, modeName_of_stands stands, ← joins.name chosen mem]
  rfl

/-- A product of interleavings is one, and it has no other transitions. -/
theorem interleaves (h : ProductOf scope factors entries rows f)
    (parts : List.Forall₂ Factor.Interleaves factors spaces)
    (closed : ∀ space ∈ spaces, space.Closed) (joins : space.Joins spaces) :
    f.Interleaves space ∧ f.automaton.transitions = space.transitions := by
  have stand := h.entries_stand parts
  have names : entries.map Prod.fst = space.states.map fun s => space.name s.modeNames := by
    rw [joins.states, List.map_map]
    have keys := eq_map_of_forall₂
      (List.forall₂_map_right_iff.mpr (stand.imp fun _ _ entry => entry.1))
    exact keys.trans (List.map_congr_left fun chosen mem => (joins.name chosen mem).symm)
  have stored := NameMap.entries_ofList (names ▸ joins.nodup)
  have transitions : f.automaton.transitions = space.transitions := by
    rw [h.transitions, h.rows_eq parts closed joins]
    rfl
  have modes : f.automaton.modes.entries = entries.map fun entry => (entry.1, entry.2.1) := by
    rw [h.modes]
    exact congrArg (List.map _) stored
  have recorded : f.leaves = entries.map fun entry => entry.2.2 := by
    rw [h.leaves, NameMap.values, stored, List.map_map]
    rfl
  refine ⟨⟨?_, ?_, ?_⟩, transitions⟩
  · rw [modes, joins.states]
    refine List.forall₂_map_left_iff.mpr (List.forall₂_map_right_iff.mpr ?_)
    refine ((List.forall₂_and_left _ _).mpr ⟨joins.name, stand⟩).imp ?_
    rintro chosen entry ⟨name, key, stored, joint, _⟩
    exact ⟨key.trans name.symm, stored, joint⟩
  · rw [recorded, joins.states, List.map_map]
    refine eq_map_of_forall₂ (List.forall₂_map_right_iff.mpr ?_)
    exact stand.imp fun _ _ entry => entry.2.2.2
  · intro s mem
    rw [Automaton.transitionsFrom, transitions]
    exact space.transitions_from joins.nodup mem

end Product.ProductOf

end

end

end HybridAutomata
