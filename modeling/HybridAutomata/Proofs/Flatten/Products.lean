import Mathlib.Algebra.BigOperators.Group.List.Basic
import HybridAutomata.Proofs.Names
import HybridAutomata.Proofs.Success
import HybridAutomata.Transform.Product

/-!
# What a product is made of

A product has a mode for every tuple of choices, stored under the joined name, and a transition for
every move of one of its automata. If two tuples had the same name, one of the modes would be lost;
if all names differ, modes and leaves stand in the order of the tuples.
-/

namespace HybridAutomata

open Success

variable {α β γ : Type}

namespace Product

/-! ## Tuples -/

/-- A tuple takes an item from every list. -/
theorem mem_tuples {tuple : List β} {lists : List (List β)} :
    tuple ∈ tuples lists ↔ List.Forall₂ (· ∈ ·) tuple lists := by
  induction lists generalizing tuple with
  | nil => simp [tuples]
  | cons items rest ih =>
      simp only [tuples, List.mem_flatMap, List.mem_map, ih]
      constructor
      · rintro ⟨item, mem, others, h, rfl⟩
        exact .cons mem h
      · rintro (_ | ⟨mem, h⟩)
        exact ⟨_, mem, _, h, rfl⟩

theorem length_tuples (lists : List (List β)) :
    (tuples lists).length = (lists.map List.length).prod := by
  induction lists with
  | nil => rfl
  | cons items rest ih =>
      rw [tuples, List.length_flatMap, List.map_cons, List.prod_cons, ← ih]
      simp

theorem tuples_map (f : β → γ) (lists : List (List β)) :
    tuples (lists.map (List.map f)) = (tuples lists).map (List.map f) := by
  induction lists with
  | nil => rfl
  | cons items rest ih =>
      simp only [List.map_cons, tuples, ih, List.flatMap_map, List.map_flatMap, List.map_map]
      rfl

theorem tuples_append (first second : List (List β)) :
    tuples (first ++ second) =
      (tuples first).flatMap fun tuple => (tuples second).map (tuple ++ ·) := by
  induction first with
  | nil => simp [tuples]
  | cons items rest ih =>
      simp only [List.cons_append, tuples, ih, List.flatMap_assoc, List.map_flatMap,
        List.flatMap_map, List.map_map]
      rfl

/-- To choose group by group is to choose at once. -/
theorem tuples_flatten (groups : List (List (List β))) :
    tuples groups.flatten = (tuples (groups.map tuples)).map List.flatten := by
  induction groups with
  | nil => rfl
  | cons group rest ih =>
      simp only [List.flatten_cons, tuples_append, List.map_cons, tuples, ih, List.map_flatMap,
        List.map_map]
      rfl

theorem nodup_tuples {lists : List (List β)} (nodup : ∀ items ∈ lists, items.Nodup) :
    (tuples lists).Nodup := by
  induction lists with
  | nil => exact List.nodup_singleton _
  | cons items rest ih =>
      obtain ⟨first, others⟩ := List.forall_mem_cons.mp nodup
      refine List.nodup_flatMap.mpr ⟨?_, ?_⟩
      · intro item _
        exact List.Nodup.map (List.cons_injective (a := item)) (ih others)
      · refine first.imp ?_
        intro item item' ne tuple mem mem'
        obtain ⟨_, _, rfl⟩ := List.mem_map.mp mem
        obtain ⟨_, _, eq⟩ := List.mem_map.mp mem'
        exact ne (List.cons.inj eq).1.symm

/-- Lists with the same items have the same tuples. -/
theorem mem_tuples_congr {lists lists' : List (List β)}
    (same : List.Forall₂ (fun items items' => ∀ item, item ∈ items ↔ item ∈ items') lists lists')
    {tuple : List β} : tuple ∈ tuples lists ↔ tuple ∈ tuples lists' := by
  rw [mem_tuples, mem_tuples]
  induction same generalizing tuple with
  | nil => rfl
  | cons first _ ih => cases tuple <;> simp [first, ih]

/-- If tuples are not repeated, items are not, unless there are no tuples at all. -/
theorem nodup_of_nodup_tuples {lists : List (List β)} (nodup : (tuples lists).Nodup)
    (nonempty : tuples lists ≠ []) : ∀ items ∈ lists, items.Nodup := by
  induction lists with
  | nil => exact List.forall_mem_nil _
  | cons items rest ih =>
      obtain ⟨item, mem, others⟩ : ∃ item ∈ items, tuples rest ≠ [] := by
        simpa [tuples] using nonempty
      obtain ⟨each, apart⟩ := List.nodup_flatMap.mp nodup
      refine List.forall_mem_cons.mpr ⟨?_, ih ((each item mem).of_map _) others⟩
      refine apart.imp fun {item item'} disjoint same => ?_
      obtain ⟨tuple, listed⟩ := List.exists_mem_of_ne_nil _ others
      exact disjoint (List.mem_map_of_mem listed) (same ▸ List.mem_map_of_mem listed)

theorem forall₂_tuples {R : β → γ → Prop} {lists : List (List β)} {lists' : List (List γ)}
    (h : List.Forall₂ (List.Forall₂ R) lists lists') :
    List.Forall₂ (List.Forall₂ R) (tuples lists) (tuples lists') := by
  induction h with
  | nil => exact .cons .nil .nil
  | cons first _ ih =>
      refine List.rel_flatMap first ?_
      intro item item' related
      refine List.rel_map ?_ ih
      intro _ _ others
      exact .cons related others

/-- Another choice in one place makes another tuple. -/
theorem set_mem_tuples {tuple : List β} {lists : List (List β)} (mem : tuple ∈ tuples lists)
    {position : Nat} {items : List β} {item : β} (found : lists[position]? = some items)
    (chosen : item ∈ items) : tuple.set position item ∈ tuples lists := by
  rw [mem_tuples] at mem ⊢
  induction mem generalizing position with
  | nil => cases found
  | cons first others ih =>
      cases position with
      | zero =>
          cases found
          exact .cons chosen others
      | succ position => exact .cons first (ih found)

/-! ## Modes -/

/-- Rates are joined if no two of them are for one variable, and then all of them are there. -/
theorem joinRates_eq_ok_iff {mode : String} {flow joined : NameMap (Perturbed α)}
    {rates : List (String × Perturbed α)} : joinRates mode flow rates = .ok joined ↔
      (flow.keys ++ rates.map Prod.fst).Nodup ∧ joined.entries = flow.entries ++ rates := by
  induction rates generalizing flow with
  | nil =>
      rw [joinRates, List.map_nil, List.append_nil, List.append_nil, Except.ok.injEq]
      constructor
      · rintro rfl
        exact ⟨flow.keys_nodup, rfl⟩
      · rintro ⟨_, same⟩
        exact NameMap.ext same.symm
  | cons entry rates ih =>
      obtain ⟨name, rate⟩ := entry
      rw [joinRates]
      split
      · next present =>
          rw [NameMap.contains_iff] at present
          constructor
          · intro h
            cases h
          · rintro ⟨nodup, _⟩
            exact absurd rfl ((List.nodup_append.mp nodup).2.2 name present name (by simp))
      · next absent =>
          rw [NameMap.contains_iff] at absent
          rw [ih, NameMap.keys, NameMap.insert_entries_of_not_mem rate absent, List.map_append,
            List.append_assoc, List.append_assoc]
          rfl

/-- What a product mode has of the chosen modes. -/
structure Joins (tuple : List (Choice α)) (m : Mode α) : Prop where
  name : m.name = modeName tuple
  urgent : m.urgent = tuple.any (·.mode.urgent)
  invariant : m.invariant = Expr.andAll (tuple.map (·.mode.invariant))
  hasFlow : m.hasFlow = tuple.all (·.mode.hasFlow)
  flows : m.hasFlow = true → m.flows = tuple.flatMap (·.mode.flows)

theorem joins_of_mode {tuple : List (Choice α)} {m : Mode α} (h : mode tuple = .ok m) :
    Joins tuple m := by
  simp only [mode, bind_eq_ok_iff, pure_eq_ok_iff] at h
  obtain ⟨flow, joined, rfl⟩ := h
  have all : (tuple.map Choice.mode).all Mode.hasFlow = tuple.all (·.mode.hasFlow) :=
    List.all_map
  have shape : flow.isSome = tuple.all (·.mode.hasFlow) ∧
      ∀ rates, flow = some rates → rates.entries = tuple.flatMap (·.mode.flows) := by
    rw [Product.flow, all] at joined
    split at joined
    · next flowing =>
        obtain ⟨rates, success, rfl⟩ := map_eq_ok_iff.mp joined
        rw [flowing]
        refine ⟨rfl, fun found same => ?_⟩
        rw [← Option.some.inj same, (joinRates_eq_ok_iff.mp success).2, List.flatMap_map]
        rfl
    · next still =>
        cases joined
        rw [Bool.not_eq_true] at still
        rw [still]
        refine ⟨rfl, fun rates none => ?_⟩
        cases none
  exact {
    name := rfl
    urgent := List.any_map
    invariant := congrArg Expr.andAll (List.map_map ..)
    hasFlow := shape.1
    flows := by
      intro flowing
      cases flow with
      | none => cases flowing
      | some rates => exact shape.2 rates rfl }

/-! ## Transitions -/

theorem move_eq_ok_iff {tuple : List (Choice α)} {position : Nat} {factor : Factor α}
    {t t' : Transition α} : move tuple position factor t = .ok t' ↔
      ∃ target, factor.choice? t.target = some target ∧
        t' = { t with
          source := modeName tuple
          target := modeName (tuple.set position target) } := by
  rw [move]
  split
  · next target found => simp [found, eq_comm]
  · next absent => simp [absent]

/-- A transition of the product moves one automaton. -/
theorem mem_moves {factors : List (Factor α)} {tuple : List (Choice α)} {ts : List (Transition α)}
    (h : moves factors tuple = .ok ts) {t' : Transition α} (mem : t' ∈ ts) :
    ∃ (position : Nat) (factor : Factor α) (t : Transition α) (target : Choice α),
      factors[position]? = some factor ∧ t ∈ factor.automaton.transitions ∧
        target ∈ factor.choices ∧
        t' = { t with
          source := modeName tuple
          target := modeName (tuple.set position target) } := by
  simp only [moves, bind_eq_ok_iff, pure_eq_ok_iff] at h
  obtain ⟨rows, success, rfl⟩ := h
  obtain ⟨row, inRows, mem⟩ := List.mem_flatten.mp mem
  obtain ⟨⟨⟨factor, choice⟩, position⟩, entry, row_eq⟩ := (mem_of_mapM success).mp inRows
  obtain ⟨t, leaves, moved⟩ := (mem_of_mapM row_eq).mp mem
  obtain ⟨target, found, rfl⟩ := move_eq_ok_iff.mp moved
  have place := List.getElem?_zip_eq_some.mp (List.mem_zipIdx_iff_getElem?.mp entry)
  exact ⟨position, factor, t, target, place.1, List.mem_of_mem_filter leaves,
    List.mem_of_find?_eq_some found, rfl⟩

/-! ## The product -/

/-- A product, given its modes with their leaves, and its transitions tuple by tuple. -/
structure ProductOf (scope : Scope α) (factors : List (Factor α))
    (entries : List (String × Mode α × List Leaf)) (rows : List (List (Transition α)))
    (f : Factor α) : Prop where
  scope : f.automaton.toScope = scope
  modes : f.automaton.modes = (NameMap.ofList entries).map Prod.fst
  leaves : f.leaves = (NameMap.ofList entries).values.map Prod.snd
  transitions : f.automaton.transitions = rows.flatten
  made : List.Forall₂ (fun tuple entry => mode tuple = .ok entry.2.1 ∧
      entry = (modeName tuple, entry.2.1, tuple.flatMap Choice.leaves))
    (tuples (factors.map Factor.choices)) entries
  moved : List.Forall₂ (fun tuple row => moves factors tuple = .ok row)
    (tuples (factors.map Factor.choices)) rows

theorem exists_productOf {scope : Scope α} {factors : List (Factor α)} {f : Factor α}
    (h : ofFactors scope factors = .ok f) :
    ∃ entries rows, ProductOf scope factors entries rows f := by
  simp only [ofFactors, modes, bind_eq_ok_iff, pure_eq_ok_iff] at h
  obtain ⟨_, ⟨entries, made, rfl⟩, rows, moved, rfl⟩ := h
  refine ⟨entries, rows, rfl, rfl, rfl, rfl, ?_, mapM_eq_ok_iff.mp moved⟩
  refine (mapM_eq_ok_iff.mp made).imp ?_
  intro tuple entry success
  simp only [bind_eq_ok_iff, pure_eq_ok_iff] at success
  obtain ⟨m, success, rfl⟩ := success
  exact ⟨success, by rw [(joins_of_mode success).name]⟩

namespace ProductOf

variable {scope : Scope α} {factors : List (Factor α)}
  {entries : List (String × Mode α × List Leaf)} {rows : List (List (Transition α))} {f : Factor α}

/-- A mode of the product is the mode of a tuple, under the name of that tuple. -/
theorem mem_modes (h : ProductOf scope factors entries rows f) {entry : String × Mode α}
    (mem : entry ∈ f.automaton.modes.entries) :
    ∃ tuple ∈ tuples (factors.map Factor.choices), entry.1 = modeName tuple ∧
      Joins tuple entry.2 := by
  rw [h.modes] at mem
  obtain ⟨original, stored, rfl⟩ := List.mem_map.mp mem
  obtain ⟨tuple, mem, success, eq⟩ :=
    exists_of_forall₂_right h.made (NameMap.mem_of_mem_ofList stored)
  exact ⟨tuple, mem, congrArg Prod.fst eq, joins_of_mode success⟩

/-- There is a mode for every tuple. -/
theorem modeName_mem_keys (h : ProductOf scope factors entries rows f) {tuple : List (Choice α)}
    (mem : tuple ∈ tuples (factors.map Factor.choices)) :
    modeName tuple ∈ f.automaton.modes.keys := by
  obtain ⟨entry, mem, _, eq⟩ := exists_of_forall₂_left h.made mem
  rw [h.modes, NameMap.keys_map, NameMap.mem_keys_ofList]
  exact List.mem_map.mpr ⟨entry, mem, congrArg Prod.fst eq⟩

/-- A transition of the product joins modes of tuples. -/
theorem mem_transitions (h : ProductOf scope factors entries rows f) {t' : Transition α}
    (mem : t' ∈ f.automaton.transitions) :
    t'.source ∈ f.automaton.modes.keys ∧ t'.target ∈ f.automaton.modes.keys ∧
      ∃ factor ∈ factors, ∃ t ∈ factor.automaton.transitions,
        t'.guard = t.guard ∧ t'.reset = t.reset := by
  rw [h.transitions] at mem
  obtain ⟨row, inRows, mem⟩ := List.mem_flatten.mp mem
  obtain ⟨tuple, inTuples, moved⟩ := exists_of_forall₂_right h.moved inRows
  obtain ⟨position, factor, t, target, place, leaves, chosen, rfl⟩ := mem_moves moved mem
  have choices : (factors.map Factor.choices)[position]? = some factor.choices := by
    rw [List.getElem?_map, place, Option.map_some]
  exact ⟨h.modeName_mem_keys inTuples,
    h.modeName_mem_keys (set_mem_tuples inTuples choices chosen), factor,
    List.mem_of_getElem? place, t, leaves, rfl, rfl⟩

end ProductOf

end Product

end HybridAutomata
