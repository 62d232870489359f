import HybridAutomata.Proofs.Exact.Fields
import HybridAutomata.Proofs.Flatten.Steps
import HybridAutomata.Proofs.Model.Rules

/-!
# Flattening and the rules of a model

The rules ask more of a flat automaton than of a network: it must not declare a name both as
variable and as constant, and flows and resets must be for variables. All other rules survive
flattening. The two that need not are kept if no variable of the tree has the qualified name of a
constant, and no name with a flow or a reset becomes a constant on its way up; a variable that is
linked to a constant breaks the second condition.
-/

namespace HybridAutomata

open Flattened Success

variable {α : Type}

/-! ## Rules for names, and rules for kinds of names -/

/-- The names that rates or new values are for, and those they mention. -/
def entryNames (entries : List (String × Perturbed α)) : List String :=
  entries.flatMap fun entry => entry.1 :: entry.2.expr.names

namespace Mode

def names (m : Mode α) : List String := m.invariant.names ++ entryNames m.flows

end Mode

namespace Transition

def names (t : Transition α) : List String := t.guard.names ++ entryNames t.reset.entries

end Transition

namespace Automaton

/-- The names that get a rate or a new value anywhere. -/
def assigned (a : Automaton α) : List String :=
  a.modes.values.flatMap Mode.assigned ++ a.transitions.flatMap Transition.assigned

/-- The rules for an automaton that do not tell variables from constants. -/
structure Closed (a : Automaton α) : Prop where
  stored : ∀ entry ∈ a.modes.entries, entry.2.name = entry.1
  modes : ∀ m ∈ a.modes.values, m.names ⊆ a.declared
  endpoints : ∀ t ∈ a.transitions, t.source ∈ a.modes.keys ∧ t.target ∈ a.modes.keys
  transitions : ∀ t ∈ a.transitions, t.names ⊆ a.declared

/-- The rules that do. -/
structure KeepsKinds (a : Automaton α) : Prop where
  disjoint : ∀ name ∈ a.constants.keys, name ∉ a.vars.toList
  assigned : ∀ name ∈ a.assigned, name ∉ a.constants.keys

theorem assigns_iff {s : Scope α} {entries : List (String × Perturbed α)}
    (disjoint : ∀ name ∈ s.constants.keys, name ∉ s.vars.toList) :
    (∀ entry ∈ entries, s.Assigns entry) ↔ entryNames entries ⊆ s.declared ∧
      ∀ name ∈ entries.map Prod.fst, name ∉ s.constants.keys := by
  have names : entryNames entries ⊆ s.declared ↔
      ∀ entry ∈ entries, entry.1 ∈ s.declared ∧ s.Closes entry.2.expr := by
    rw [entryNames]
    constructor
    · intro all entry mem
      exact List.cons_subset.mp fun name inEntry =>
        all (List.mem_flatMap.mpr ⟨entry, mem, inEntry⟩)
    · intro all name mem
      obtain ⟨entry, mem, inEntry⟩ := List.mem_flatMap.mp mem
      exact List.cons_subset.mpr (all entry mem) inEntry
  rw [names, List.forall_mem_map, ← forall₂_and]
  refine forall₂_congr fun entry _ => ?_
  constructor
  · intro h
    exact ⟨⟨List.mem_append_left _ h.target, h.value⟩, fun isConstant =>
      disjoint entry.1 isConstant h.target⟩
  · rintro ⟨⟨declared, value⟩, notConstant⟩
    exact ⟨(List.mem_append.mp declared).resolve_right notConstant, value⟩

/-- An automaton keeps the rules exactly if it keeps those of both kinds. -/
theorem sound_iff {a : Automaton α} : a.Sound ↔ a.Closed ∧ a.KeepsKinds := by
  constructor
  · intro h
    have flows (m) (mem : m ∈ a.modes.values) :=
      (assigns_iff h.disjoint).mp (h.modes m mem).flows
    have resets (t) (mem : t ∈ a.transitions) :=
      (assigns_iff h.disjoint).mp (h.transitions t mem).resets
    refine ⟨⟨h.stored, ?_, ?_, ?_⟩, ⟨h.disjoint, ?_⟩⟩
    · intro m mem
      exact List.append_subset.mpr ⟨(h.modes m mem).invariant, (flows m mem).1⟩
    · intro t mem
      exact ⟨(h.transitions t mem).source, (h.transitions t mem).target⟩
    · intro t mem
      exact List.append_subset.mpr ⟨(h.transitions t mem).guard, (resets t mem).1⟩
    · intro name mem
      obtain mem | mem := List.mem_append.mp mem
      · obtain ⟨m, inModes, mem⟩ := List.mem_flatMap.mp mem
        exact (flows m inModes).2 name mem
      · obtain ⟨t, inTransitions, mem⟩ := List.mem_flatMap.mp mem
        exact (resets t inTransitions).2 name mem
  · rintro ⟨closed, kinds⟩
    refine ⟨⟨closed.stored, ?_, ?_⟩, kinds.disjoint⟩
    · intro m mem
      obtain ⟨invariant, flows⟩ := List.append_subset.mp (closed.modes m mem)
      refine ⟨invariant, (assigns_iff kinds.disjoint).mpr ⟨flows, fun name assigned => ?_⟩⟩
      exact kinds.assigned name
        (List.mem_append_left _ (List.mem_flatMap.mpr ⟨m, mem, assigned⟩))
    · intro t mem
      obtain ⟨guard, resets⟩ := List.append_subset.mp (closed.transitions t mem)
      obtain ⟨source, target⟩ := closed.endpoints t mem
      refine ⟨source, target, guard,
        (assigns_iff kinds.disjoint).mpr ⟨resets, fun name assigned => ?_⟩⟩
      exact kinds.assigned name
        (List.mem_append_right _ (List.mem_flatMap.mpr ⟨t, mem, assigned⟩))

end Automaton

/-! ## Names in renamed and joined modes -/

theorem mem_entryNames {entries : List (String × Perturbed α)} {name : String} :
    name ∈ entryNames entries ↔ ∃ entry ∈ entries, name = entry.1 ∨ name ∈ entry.2.expr.names := by
  simp [entryNames]

theorem mem_names_renameEntry {f : String → String} {entry : String × Perturbed α} {name : String}
    (h : name = (renameEntry f entry).1 ∨ name ∈ (renameEntry f entry).2.expr.names) :
    ∃ x, (x = entry.1 ∨ x ∈ entry.2.expr.names) ∧ f x = name := by
  obtain rfl | h := h
  · exact ⟨entry.1, .inl rfl, rfl⟩
  · rw [renameEntry, Perturbed.expr_rename, Expr.names_rename] at h
    obtain ⟨x, mem, rfl⟩ := List.mem_map.mp h
    exact ⟨x, .inr mem, rfl⟩

namespace Mode

variable {f : String → String} {m : Mode α} {name : String}

/-- The names of a renamed mode are renamed names of the mode. -/
theorem exists_of_mem_names_rename (h : name ∈ (m.rename f).names) : ∃ x ∈ m.names, f x = name := by
  obtain h | h := List.mem_append.mp h
  · rw [invariant_rename, Expr.names_rename] at h
    obtain ⟨x, mem, rfl⟩ := List.mem_map.mp h
    exact ⟨x, List.mem_append_left _ mem, rfl⟩
  · obtain ⟨entry, mem, h⟩ := mem_entryNames.mp h
    obtain ⟨original, stored, rfl⟩ := mem_flows_rename mem
    obtain ⟨x, hx, rfl⟩ := mem_names_renameEntry h
    exact ⟨x, List.mem_append_right _ (mem_entryNames.mpr ⟨original, stored, hx⟩), rfl⟩

theorem exists_of_mem_assigned_rename (h : name ∈ (m.rename f).assigned) :
    ∃ x ∈ m.assigned, f x = name := by
  obtain ⟨entry, mem, rfl⟩ := List.mem_map.mp h
  obtain ⟨original, stored, rfl⟩ := mem_flows_rename mem
  exact ⟨original.1, List.mem_map_of_mem stored, rfl⟩

theorem flows_eq_nil_of_not_hasFlow (h : m.hasFlow = false) : m.flows = [] := by
  obtain ⟨_, flow, _, _⟩ := m
  cases flow with
  | none => rfl
  | some flow => cases h

end Mode

namespace Transition

variable {f : String → String} {t : Transition α} {name : String}

theorem exists_of_mem_names_rename (h : name ∈ (t.rename f).names) : ∃ x ∈ t.names, f x = name := by
  obtain h | h := List.mem_append.mp h
  · rw [guard_rename, Expr.names_rename] at h
    obtain ⟨x, mem, rfl⟩ := List.mem_map.mp h
    exact ⟨x, List.mem_append_left _ mem, rfl⟩
  · obtain ⟨entry, mem, h⟩ := mem_entryNames.mp h
    obtain ⟨original, stored, rfl⟩ := mem_renameAssignments mem
    obtain ⟨x, hx, rfl⟩ := mem_names_renameEntry h
    exact ⟨x, List.mem_append_right _ (mem_entryNames.mpr ⟨original, stored, hx⟩), rfl⟩

theorem exists_of_mem_assigned_rename (h : name ∈ (t.rename f).assigned) :
    ∃ x ∈ t.assigned, f x = name := by
  obtain ⟨entry, mem, rfl⟩ := List.mem_map.mp h
  obtain ⟨original, stored, rfl⟩ := mem_renameAssignments mem
  exact ⟨original.1, List.mem_map_of_mem stored, rfl⟩

end Transition

namespace Product.Joins

variable {tuple : List (Choice α)} {m : Mode α} {name : String}

/-- A rate of a product mode is a rate of a chosen mode. -/
theorem mem_flows (h : Joins tuple m) {entry : String × Perturbed α} (mem : entry ∈ m.flows) :
    ∃ choice ∈ tuple, entry ∈ choice.mode.flows := by
  cases flowing : m.hasFlow with
  | false =>
      rw [Mode.flows_eq_nil_of_not_hasFlow flowing] at mem
      cases mem
  | true =>
      rw [h.flows flowing] at mem
      exact List.mem_flatMap.mp mem

/-- The names of a product mode are names of the chosen modes. -/
theorem mem_names (h : Joins tuple m) (mem : name ∈ m.names) :
    ∃ choice ∈ tuple, name ∈ choice.mode.names := by
  obtain mem | mem := List.mem_append.mp mem
  · have all : m.invariant.names ⊆ tuple.flatMap (·.mode.invariant.names) := by
      rw [h.invariant]
      refine Expr.names_andAll (List.forall_mem_map.mpr fun choice inTuple name inChoice => ?_)
      exact List.mem_flatMap.mpr ⟨choice, inTuple, inChoice⟩
    obtain ⟨choice, inTuple, mem⟩ := List.mem_flatMap.mp (all mem)
    exact ⟨choice, inTuple, List.mem_append_left _ mem⟩
  · obtain ⟨entry, mem, hname⟩ := mem_entryNames.mp mem
    obtain ⟨choice, inTuple, mem⟩ := h.mem_flows mem
    exact ⟨choice, inTuple,
      List.mem_append_right _ (mem_entryNames.mpr ⟨entry, mem, hname⟩)⟩

theorem mem_assigned (h : Joins tuple m) (mem : name ∈ m.assigned) :
    ∃ choice ∈ tuple, name ∈ choice.mode.assigned := by
  obtain ⟨entry, stored, rfl⟩ := List.mem_map.mp mem
  obtain ⟨choice, inTuple, stored⟩ := h.mem_flows stored
  exact ⟨choice, inTuple, List.mem_map_of_mem stored⟩

end Product.Joins

namespace Part

variable {part : Part α}

/-- A choice in a part is a renamed mode of the child. -/
theorem exists_of_mem_choices {choice : Choice α} (h : choice ∈ part.factor.choices) :
    ∃ m ∈ part.automaton.modes.values, choice.mode = m.rename part.outer := by
  obtain ⟨⟨⟨key, mode⟩, leaves⟩, mem, rfl⟩ := List.mem_map.mp h
  have stored := (List.of_mem_zip mem).1
  rw [modes_factor] at stored
  obtain ⟨⟨key, m⟩, stored, eq⟩ := List.mem_map.mp stored
  exact ⟨m, List.mem_map_of_mem stored, (Prod.mk.inj eq).2.symm⟩

end Part

namespace NetworkOf

variable {scope : Scope α} {children : Children α} {parts : List (Part α)} {f : Flattened α}

/-- A mode of a network is joined from renamed modes of its parts. -/
theorem exists_choices (h : NetworkOf scope children parts f) {entry : String × Mode α}
    (mem : entry ∈ f.factor.automaton.modes.entries) : ∃ tuple, entry.1 = Product.modeName tuple ∧
      Product.Joins tuple entry.2 ∧ ∀ choice ∈ tuple, ∃ part ∈ parts,
        ∃ m ∈ part.automaton.modes.values, choice.mode = m.rename part.outer := by
  obtain ⟨entries, rows, product⟩ := h.productOf
  obtain ⟨tuple, chosen, name, joins⟩ := product.mem_modes mem
  refine ⟨tuple, name, joins, fun choice inTuple => ?_⟩
  obtain ⟨choices, inChoices, mem⟩ :=
    exists_of_forall₂_left (Product.mem_tuples.mp chosen) inTuple
  rw [List.map_map] at inChoices
  obtain ⟨part, inParts, rfl⟩ := List.mem_map.mp inChoices
  exact ⟨part, inParts, Part.exists_of_mem_choices mem⟩

/-- A transition of a network is a renamed transition of a part, from mode to mode. -/
theorem exists_transition (h : NetworkOf scope children parts f) {t : Transition α}
    (mem : t ∈ f.factor.automaton.transitions) :
    t.source ∈ f.factor.automaton.modes.keys ∧ t.target ∈ f.factor.automaton.modes.keys ∧
      ∃ part ∈ parts, ∃ t' ∈ part.automaton.transitions, t.guard = (t'.rename part.outer).guard ∧
        t.reset = (t'.rename part.outer).reset := by
  obtain ⟨entries, rows, product⟩ := h.productOf
  obtain ⟨source, target, factor, inFactors, t', mem, guard, reset⟩ := product.mem_transitions mem
  obtain ⟨part, inParts, rfl⟩ := List.mem_map.mp inFactors
  rw [Part.transitions_factor] at mem
  obtain ⟨t', inPart, rfl⟩ := List.mem_map.mp mem
  exact ⟨source, target, part, inParts, t', inPart, guard, reset⟩

end NetworkOf

/-! ## What flattening keeps -/

namespace Component

variable {c : Component α} {f : Flattened α}

/-- Flattening keeps the rules that do not tell variables from constants. -/
theorem closed_of_flatten (h : c.flatten = .ok f) (sound : c.Sound) :
    f.factor.automaton.Closed := by
  refine flatten_induction (P := fun c f => c.Sound → f.factor.automaton.Closed) ?_ ?_ h sound
  · intro a sound
    exact (Automaton.sound_iff.mp (sound_flat_iff.mp sound)).1
  · intro scope children parts f made ih sound
    have closed {part} (mem : part ∈ parts) : part.automaton.Closed := by
      refine ih part mem ⟨fun a inChild => sound.automata a ?_,
        (made.instances sound.instances mem).2⟩
      rw [← map_item_members] at inChild ⊢
      obtain ⟨p, place, rfl⟩ := List.mem_map.mp inChild
      exact List.mem_map.mpr ⟨_, made.mem_members.mpr ⟨part, mem, p, place, rfl⟩, rfl⟩
    have declared {part} (mem : part ∈ parts) {x} (hx : x ∈ part.automaton.declared) :
        part.outer x ∈ f.factor.automaton.declared :=
      made.outer_mem_declared mem (made.instances sound.instances mem).1 hx
    refine ⟨?_, ?_, ?_, ?_⟩
    · intro entry mem
      obtain ⟨tuple, name, joins, _⟩ := made.exists_choices mem
      exact joins.name.trans name.symm
    · intro m mem name inMode
      obtain ⟨entry, stored, rfl⟩ := List.mem_map.mp mem
      obtain ⟨tuple, _, joins, chosen⟩ := made.exists_choices stored
      obtain ⟨choice, inTuple, inChoice⟩ := joins.mem_names inMode
      obtain ⟨part, inParts, m, inPart, eq⟩ := chosen choice inTuple
      rw [eq] at inChoice
      obtain ⟨x, hx, rfl⟩ := Mode.exists_of_mem_names_rename inChoice
      exact declared inParts ((closed inParts).modes m inPart hx)
    · intro t mem
      obtain ⟨source, target, _⟩ := made.exists_transition mem
      exact ⟨source, target⟩
    · intro t mem name inTransition
      obtain ⟨_, _, part, inParts, t', inPart, guard, reset⟩ := made.exists_transition mem
      have same : t.names = (t'.rename part.outer).names := by
        rw [Transition.names, Transition.names, guard, reset]
      rw [same] at inTransition
      obtain ⟨x, hx, rfl⟩ := Transition.exists_of_mem_names_rename inTransition
      exact declared inParts ((closed inParts).transitions t' inPart hx)

/-- Rates and new values are for renamed names of the flat automata of the tree. -/
theorem exists_of_mem_assigned (h : c.flatten = .ok f) {name : String}
    (mem : name ∈ f.factor.automaton.assigned) :
    ∃ p ∈ c.members, ∃ x ∈ p.item.assigned, p.rename x = name := by
  refine flatten_induction (P := fun c f => ∀ name ∈ f.factor.automaton.assigned,
    ∃ p ∈ c.members, ∃ x ∈ p.item.assigned, p.rename x = name) ?_ ?_ h name mem
  · intro a name mem
    exact ⟨.here a, List.mem_singleton_self _, name, mem, rfl⟩
  · intro scope children parts f made ih name mem
    have lifted {part} (inParts : part ∈ parts) {y} (inPart : y ∈ part.automaton.assigned) :
        ∃ p ∈ (network scope children).members, ∃ x ∈ p.item.assigned,
          p.rename x = part.outer y := by
      obtain ⟨q, inChild, x, assigned, rfl⟩ := ih part inParts y inPart
      exact ⟨_, made.mem_members.mpr ⟨part, inParts, q, inChild, rfl⟩, x, assigned, rfl⟩
    obtain mem | mem := List.mem_append.mp mem
    · obtain ⟨m, inModes, mem⟩ := List.mem_flatMap.mp mem
      obtain ⟨entry, stored, rfl⟩ := List.mem_map.mp inModes
      obtain ⟨tuple, _, joins, chosen⟩ := made.exists_choices stored
      obtain ⟨choice, inTuple, inChoice⟩ := joins.mem_assigned mem
      obtain ⟨part, inParts, m, inPart, eq⟩ := chosen choice inTuple
      rw [eq] at inChoice
      obtain ⟨y, hy, rfl⟩ := Mode.exists_of_mem_assigned_rename inChoice
      exact lifted inParts (List.mem_append_left _ (List.mem_flatMap.mpr ⟨m, inPart, hy⟩))
    · obtain ⟨t, inTransitions, mem⟩ := List.mem_flatMap.mp mem
      obtain ⟨_, _, part, inParts, t', inPart, _, reset⟩ := made.exists_transition inTransitions
      rw [Transition.assigned, reset] at mem
      obtain ⟨y, hy, rfl⟩ := Transition.exists_of_mem_assigned_rename (t := t') mem
      exact lifted inParts (List.mem_append_right _ (List.mem_flatMap.mpr ⟨t', inPart, hy⟩))

/-- Variables and constants of a tree are kept apart: no variable has the qualified name of a
constant, and no name with a flow or a reset becomes one on its way up. -/
structure KeepsKinds (c : Component α) : Prop where
  disjoint : ∀ p ∈ c.scopes, ∀ x ∈ p.item.vars.toList, ∀ q ∈ c.scopes,
    ∀ y ∈ q.item.constants.keys, p.path.qualify x ≠ q.path.qualify y
  assigned : ∀ p ∈ c.members, ∀ x ∈ p.item.assigned, ∀ q ∈ c.scopes,
    ∀ y ∈ q.item.constants.keys, p.rename x ≠ q.path.qualify y

theorem keepsKinds_of_flatten (h : c.flatten = .ok f) (kinds : c.KeepsKinds) :
    f.factor.automaton.KeepsKinds where
  disjoint := by
    intro name isConstant isVar
    obtain ⟨p, hp, x, hx, rfl⟩ := exists_of_mem_vars h isVar
    obtain ⟨q, hq, y, hy, same⟩ := exists_of_mem_constants h isConstant
    exact kinds.disjoint p hp x hx q hq y hy same.symm
  assigned := by
    intro name assigned isConstant
    obtain ⟨p, hp, x, hx, rfl⟩ := exists_of_mem_assigned h assigned
    obtain ⟨q, hq, y, hy, same⟩ := exists_of_mem_constants h isConstant
    exact kinds.assigned p hp x hx q hq y hy same.symm

/-! ## Regions and plot -/

/-- A name of the tree is looked up as a declared name. -/
theorem nameOf_mem_declared (h : c.flatten = .ok f) (instances : c.ForInstances KeepsInstance)
    {name : String} (mem : name ∈ c.namesBelow .root) :
    f.nameOf name ∈ f.factor.automaton.declared := by
  obtain ⟨p, inTree, x, declared, rfl⟩ := mem_namesBelow_root.mp mem
  obtain ⟨q, inTree, y, declared, _, eq⟩ := exists_nameOf h inTree declared
  rw [eq]
  exact rename_mem_declared h instances inTree declared

theorem keepsPlot_nameOf (h : c.flatten = .ok f) (instances : c.ForInstances KeepsInstance)
    {name : String} (kept : c.KeepsPlot name) :
    (flat f.factor.automaton).KeepsPlot (f.nameOf name) := by
  rw [KeepsPlot, mem_namesBelow_flat]
  by_cases mem : name ∈ c.namesBelow .root
  · exact .inr (nameOf_mem_declared h instances mem)
  · obtain rfl := kept.resolve_right mem
    left
    cases found : f.aliases.find? "" with
    | none => rw [nameOf, found, Option.getD_none]
    | some value =>
        obtain ⟨p, inTree, x, declared, eq⟩ :=
          exists_of_mem_aliases h (NameMap.find?_eq_some_iff.mp found)
        exact absurd (mem_namesBelow_root.mpr
          ⟨p, inTree, x, declared, (congrArg Prod.fst eq).symm⟩) mem

/-- A region of a leaf mentions declared names. -/
theorem closes_leafRegion (h : c.flatten = .ok f) (instances : c.ForInstances KeepsInstance)
    {regions : NameMap (Expr α)} (kept : ∀ entry ∈ regions.entries, c.KeepsRegion entry)
    {leaf : Leaf} {region : Expr α} (found : f.leafRegion? regions leaf = some region) :
    f.factor.automaton.Closes region := by
  obtain ⟨original, looked, rfl⟩ := Option.map_eq_some_iff.mp found
  have stored : ∃ key, (key, original) ∈ regions.entries := by
    obtain looked | ⟨_, looked⟩ := Option.or_eq_some_iff.mp looked
    · exact ⟨_, NameMap.find?_eq_some_iff.mp looked⟩
    · exact ⟨_, NameMap.find?_eq_some_iff.mp looked⟩
  obtain ⟨key, stored⟩ := stored
  intro name mem
  rw [Expr.names_rename] at mem
  obtain ⟨x, hx, rfl⟩ := List.mem_map.mp mem
  exact nameOf_mem_declared h instances ((kept _ stored).names x hx)

/-- Regions that are made for modes of the flat automaton keep the rules. -/
theorem keepsRegion_regions {region? : List Leaf → Option (Expr α)}
    (closed : ∀ leaves region, region? leaves = some region → f.factor.automaton.Closes region) :
    ∀ entry ∈ (f.regions region?).entries, (flat f.factor.automaton).KeepsRegion entry := by
  intro entry mem
  obtain ⟨mode, leaves, found⟩ := mem_regions mem
  exact keepsRegion_flat_iff.mpr ⟨mem_modeNames_flat mode, closed leaves entry.2 found⟩

theorem closes_initial (h : c.flatten = .ok f) (instances : c.ForInstances KeepsInstance)
    {regions : NameMap (Expr α)} (kept : ∀ entry ∈ regions.entries, c.KeepsRegion entry)
    {leaves : List Leaf} {region : Expr α} (found : f.initial? regions leaves = some region) :
    f.factor.automaton.Closes region := by
  obtain ⟨items, parts, rfl⟩ := Option.map_eq_some_iff.mp found
  obtain ⟨_, rfl⟩ := mapM_eq_some_iff.mp parts
  refine Expr.names_andAll fun item mem => ?_
  obtain ⟨leaf, _, found⟩ := List.mem_filterMap.mp mem
  exact closes_leafRegion h instances kept found

theorem closes_forbidden (h : c.flatten = .ok f) (instances : c.ForInstances KeepsInstance)
    {regions : NameMap (Expr α)} (kept : ∀ entry ∈ regions.entries, c.KeepsRegion entry)
    {leaves : List Leaf} {region : Expr α} (found : f.forbidden? regions leaves = some region) :
    f.factor.automaton.Closes region := by
  rw [forbidden?] at found
  split at found
  · cases found
  · cases found
    refine Expr.names_orAll fun item mem => ?_
    obtain ⟨leaf, _, found⟩ := List.mem_filterMap.mp mem
    exact closes_leafRegion h instances kept found

end Component

namespace Model

variable [Scalar α]

/-- The flattened model keeps the rules if its automaton keeps those that tell variables from
constants. -/
theorem sound_of_flatten {m : Model α} (sound : m.Sound) {f : Flattened α}
    (flattened : m.root.flatten = .ok f) (kinds : f.factor.automaton.KeepsKinds) :
    (f.model m).Sound where
  root := Component.sound_flat_iff.mpr
    (Automaton.sound_iff.mpr ⟨Component.closed_of_flatten flattened sound.root, kinds⟩)
  init := Component.keepsRegion_regions fun _ _ =>
    Component.closes_initial flattened sound.root.instances sound.init
  forbidden := Component.keepsRegion_regions fun _ _ =>
    Component.closes_forbidden flattened sound.root.instances sound.forbidden
  plot := ⟨Component.keepsPlot_nameOf flattened sound.root.instances sound.plot.1,
    Component.keepsPlot_nameOf flattened sound.root.instances sound.plot.2⟩
  horizon := sound.horizon

/-- The flat model that a valid model is flattened to keeps all rules, except perhaps those that
tell variables from constants; and it keeps these if the tree keeps variables and constants
apart. -/
theorem flatten_valid_iff {m m' : Model α} (valid : m.Valid) (success : m.flatten = .ok m') :
    ∃ a, m'.root = .flat a ∧ (m'.Valid ↔ a.KeepsKinds) ∧ (m.root.KeepsKinds → m'.Valid) := by
  have sound := valid_iff.mp valid
  have kinds {a : Automaton α} (sound : (Component.flat a).Sound) : a.KeepsKinds :=
    (Automaton.sound_iff.mp (Component.sound_flat_iff.mp sound)).2
  cases shape : m.root.isFlat with
  | true =>
      rw [flatten, shape] at success
      cases success
      cases root : m.root with
      | network => simp [root, Component.isFlat] at shape
      | flat a => exact ⟨a, rfl, iff_of_true valid (kinds (root ▸ sound.root)), fun _ => valid⟩
  | false =>
      obtain ⟨f, flattened, rfl⟩ := flatten_network_eq_ok shape success
      rw [valid_iff]
      exact ⟨f.factor.automaton, rfl,
        ⟨fun sound => kinds sound.root, sound_of_flatten sound flattened⟩,
        fun tree => sound_of_flatten sound flattened
          (Component.keepsKinds_of_flatten flattened tree)⟩

end Model

/-- A tank with an inflow that it does not control. -/
def tank : Automaton (Extended ℚ) where
  vars := .ofList ["level", "inflow"]
  modes := .ofList [("fill", {
    name := "fill"
    flow := some (.ofList [("level", .exact (.var "inflow"))]) })]

/-- A network in which the inflow of the tank is a constant, and its level a variable. -/
def suppliedTank : Model (Extended ℚ) where
  root := Component.addChild
    (.network { vars := .ofList ["height"], constants := .ofList [("supply", ⟨1, 2⟩)] } .none)
    "tank" [⟨"height", "level"⟩, ⟨"supply", "inflow"⟩] (.flat tank)
  init := .ofList [("fill", .eq (.var "tank.level") (.num 0))]
  settings := .initial

/-- Only the level has a flow, so the supplied tank stays valid. -/
theorem suppliedTank_flatten_valid : suppliedTank.Valid ∧ suppliedTank.root.KeepsKinds ∧
    ∃ m', suppliedTank.flatten = .ok m' ∧ m'.Valid := by
  have valid : suppliedTank.Valid := by
    rw [Model.Valid]
    decide +kernel
  have kinds : suppliedTank.root.KeepsKinds := ⟨by decide +kernel, by decide +kernel⟩
  obtain ⟨m', success⟩ : ∃ m', suppliedTank.flatten = .ok m' := ⟨_, rfl⟩
  obtain ⟨_, _, _, keeps⟩ := Model.flatten_valid_iff valid success
  exact ⟨valid, kinds, m', success, keeps kinds⟩

/-- A network in which the level of the tank is a constant. -/
def frozenTank : Model (Extended ℚ) where
  root := Component.addChild (.network { constants := .ofList [("supply", ⟨1, 2⟩)] } .none)
    "tank" [⟨"supply", "level"⟩] (.flat tank)
  settings := .initial

/-- The network is valid, and its flat form has a flow for a constant. -/
theorem frozenTank_flatten_not_valid : frozenTank.Valid ∧
    ∃ m', frozenTank.flatten = .ok m' ∧ ¬m'.Valid := by
  have valid : frozenTank.Valid := by
    rw [Model.Valid]
    decide +kernel
  refine ⟨valid, _, rfl, ?_⟩
  rw [Model.Valid]
  decide +kernel

end HybridAutomata
