import Mathlib.Data.List.Forall2
import Mathlib.Data.List.Nodup
import Mathlib.Data.List.Perm.Subperm
import HybridAutomata.Names

/-!
# Look-up in maps of names

A map of names answers a look-up with the one entry under the name, and the operations on maps act
on look-ups pointwise. Numbered names determine the name and the number they were made from, because
digits contain no underscore.
-/

namespace HybridAutomata

namespace NameSet

theorem mem_insertAll {s : NameSet} {names : List String} {name : String} :
    name ∈ (s.insertAll names).toList ↔ name ∈ s.toList ∨ name ∈ names := by
  induction names generalizing s with
  | nil => simp [insertAll]
  | cons first rest ih =>
      have unfolded : s.insertAll (first :: rest) = (s.insert first).insertAll rest := rfl
      rw [unfolded, ih, mem_insert, List.mem_cons, or_assoc]

theorem mem_ofList {names : List String} {name : String} :
    name ∈ (ofList names).toList ↔ name ∈ names := by
  rw [ofList, mem_insertAll]
  simp [EmptyCollection.emptyCollection, empty]

theorem mem_erase {s : NameSet} {erased name : String} :
    name ∈ (s.erase erased).toList ↔ name ∈ s.toList ∧ name ≠ erased := by
  rw [erase, toList_filter, List.mem_filter, bne_iff_ne]

end NameSet

namespace NameMap

variable {β γ : Type}

theorem ext {m m' : NameMap β} (h : m.entries = m'.entries) : m = m' := by
  obtain ⟨entries, _⟩ := m
  obtain ⟨entries', _⟩ := m'
  obtain rfl : entries = entries' := h
  rfl

/-- Names are not repeated, so an entry is found under its name. -/
theorem find?_eq_some_iff {m : NameMap β} {name : String} {value : β} :
    m.find? name = some value ↔ (name, value) ∈ m.entries := by
  obtain ⟨entries, nodup⟩ := m
  change entries.lookup name = some value ↔ (name, value) ∈ entries
  induction entries with
  | nil => simp
  | cons entry rest ih =>
      obtain ⟨key, other⟩ := entry
      obtain ⟨notMem, nodup⟩ := List.nodup_cons.mp nodup
      rw [List.lookup_cons, List.mem_cons]
      by_cases h : name = key
      · subst h
        have absent : (name, value) ∉ rest := by
          intro mem
          exact notMem (List.mem_map.mpr ⟨_, mem, rfl⟩)
        simp [absent, eq_comm]
      · rw [beq_eq_false_iff_ne.mpr h, ih nodup]
        simp [h]

theorem find?_eq_none_iff {m : NameMap β} {name : String} :
    m.find? name = none ↔ name ∉ m.keys := by
  rw [find?, List.lookup_eq_none_iff, keys, List.mem_map]
  constructor
  · rintro h ⟨entry, mem, rfl⟩
    simpa using h entry mem
  · intro h entry mem
    rw [bne_iff_ne]
    intro eq
    exact h ⟨entry, mem, eq.symm⟩

/-- A name is among the keys exactly if something is stored under it. -/
theorem mem_keys_iff {m : NameMap β} {name : String} :
    name ∈ m.keys ↔ ∃ value, m.find? name = some value := by
  rw [← Option.ne_none_iff_exists', Ne, find?_eq_none_iff, not_not]

theorem mem_keys_of_mem {m : NameMap β} {entry : String × β} (h : entry ∈ m.entries) :
    entry.1 ∈ m.keys :=
  List.mem_map_of_mem h

theorem exists_indexOf?_eq_some {m : NameMap β} {name : String} (h : name ∈ m.keys) :
    ∃ index, m.indexOf? name = some index := by
  rw [← Option.isSome_iff_exists, indexOf?, List.findIdx?_isSome]
  exact contains_iff.mpr h

theorem insert_entries_of_not_mem {m : NameMap β} {name : String} (value : β)
    (h : name ∉ m.keys) : (m.insert name value).entries = m.entries ++ [(name, value)] := by
  have absent : name ∉ m.entries.map Prod.fst := h
  simp [insert, absent]

theorem mem_entries_insert {m : NameMap β} {name : String} {value : β} {entry : String × β} :
    entry ∈ (m.insert name value).entries ↔
      entry = (name, value) ∨ entry ∈ m.entries ∧ entry.1 ≠ name := by
  by_cases present : name ∈ m.keys
  · obtain ⟨old, found⟩ := mem_keys_iff.mp present
    have replaced : (m.insert name value).entries = replace name value m.entries := by
      have present' : name ∈ m.entries.map Prod.fst := present
      simp [insert, present']
    rw [replaced, replace, List.mem_map]
    constructor
    · rintro ⟨other, mem, rfl⟩
      by_cases h : other.1 = name
      · simp [h]
      · simp [h, mem]
    · rintro (rfl | ⟨mem, ne⟩)
      · exact ⟨(name, old), find?_eq_some_iff.mp found, by simp⟩
      · exact ⟨entry, mem, by simp [ne]⟩
  · rw [insert_entries_of_not_mem value present, List.mem_append, List.mem_singleton, or_comm]
    have stays : entry ∈ m.entries → entry.1 ≠ name := by
      intro mem eq
      exact present (eq ▸ mem_keys_of_mem mem)
    exact or_congr_right ⟨fun mem => ⟨mem, stays mem⟩, And.left⟩

theorem find?_insert (m : NameMap β) (name key : String) (value : β) :
    (m.insert name value).find? key = if key = name then some value else m.find? key := by
  ext other
  rw [find?_eq_some_iff, mem_entries_insert]
  by_cases h : key = name
  · simp [h, eq_comm]
  · simp [h, find?_eq_some_iff]

/-- Entries with distinct names are stored as they stand. -/
theorem entries_insertAll (m : NameMap β) (entries : List (String × β))
    (nodup : (m.keys ++ entries.map Prod.fst).Nodup) :
    (m.insertAll entries).entries = m.entries ++ entries := by
  induction entries generalizing m with
  | nil => simp [insertAll]
  | cons entry rest ih =>
      have absent : entry.1 ∉ m.keys := by
        intro mem
        exact (List.nodup_append.mp nodup).2.2 entry.1 mem entry.1 (by simp) rfl
      have inserted := insert_entries_of_not_mem entry.2 absent
      change ((m.insert entry.1 entry.2).insertAll rest).entries = _
      rw [ih, inserted, List.append_assoc]
      · rfl
      · simpa [keys, inserted] using nodup

theorem entries_ofList {entries : List (String × β)} (nodup : (entries.map Prod.fst).Nodup) :
    (ofList entries).entries = entries :=
  entries_insertAll ∅ entries nodup

theorem mem_keys_insertAll {m : NameMap β} {entries : List (String × β)} {name : String} :
    name ∈ (m.insertAll entries).keys ↔ name ∈ m.keys ∨ name ∈ entries.map Prod.fst := by
  induction entries generalizing m with
  | nil => simp [insertAll]
  | cons entry rest ih =>
      have unfolded : m.insertAll (entry :: rest) = (m.insert entry.1 entry.2).insertAll rest := rfl
      rw [unfolded, ih, mem_keys_insert, List.map_cons, List.mem_cons, or_assoc]

/-- Every name that is given an entry is a key. -/
theorem mem_keys_ofList {entries : List (String × β)} {name : String} :
    name ∈ (ofList entries).keys ↔ name ∈ entries.map Prod.fst := by
  rw [ofList, mem_keys_insertAll]
  exact or_iff_right List.not_mem_nil

/-- A map made from entries has no others. -/
theorem mem_of_mem_insertAll {m : NameMap β} {entries : List (String × β)} {entry : String × β}
    (h : entry ∈ (m.insertAll entries).entries) : entry ∈ m.entries ∨ entry ∈ entries := by
  induction entries generalizing m with
  | nil => exact .inl h
  | cons first rest ih =>
      have unfolded : m.insertAll (first :: rest) = (m.insert first.1 first.2).insertAll rest := rfl
      rw [unfolded] at h
      obtain h | h := ih h
      · obtain rfl | ⟨h, _⟩ := mem_entries_insert.mp h
        · exact .inr List.mem_cons_self
        · exact .inl h
      · exact .inr (List.mem_cons_of_mem _ h)

theorem mem_of_mem_ofList {entries : List (String × β)} {entry : String × β}
    (h : entry ∈ (ofList entries).entries) : entry ∈ entries :=
  (mem_of_mem_insertAll h).resolve_left List.not_mem_nil

theorem find?_mapWithKey (f : String → β → γ) (m : NameMap β) (name : String) :
    (m.mapWithKey f).find? name = (m.find? name).map (f name) := by
  ext value
  simp only [find?_eq_some_iff, Option.map_eq_some_iff, mapWithKey, List.mem_map, Prod.mk.injEq]
  constructor
  · rintro ⟨entry, mem, rfl, rfl⟩
    exact ⟨entry.2, mem, rfl⟩
  · rintro ⟨old, mem, rfl⟩
    exact ⟨(name, old), mem, rfl, rfl⟩

theorem find?_map (f : β → γ) (m : NameMap β) (name : String) :
    (m.map f).find? name = (m.find? name).map f :=
  find?_mapWithKey (fun _ => f) m name

theorem find?_filter (p : String → β → Bool) (m : NameMap β) (name : String) :
    (m.filter p).find? name = (m.find? name).filter (p name) := by
  ext value
  rw [find?_eq_some_iff, Option.filter_eq_some_iff, find?_eq_some_iff]
  exact List.mem_filter

theorem find?_erase (m : NameMap β) (erased name : String) :
    (m.erase erased).find? name = if name = erased then none else m.find? name := by
  rw [erase, find?_filter]
  by_cases h : name = erased
  · rw [if_pos h]
    simp [h]
  · have kept : (name != erased) = true := bne_iff_ne.mpr h
    rw [if_neg h]
    cases m.find? name <;> simp [Option.filter, kept]

theorem mem_keys_erase {m : NameMap β} {erased name : String} :
    name ∈ (m.erase erased).keys ↔ name ∈ m.keys ∧ name ≠ erased := by
  rw [mem_keys_iff, mem_keys_iff, find?_erase]
  by_cases h : name = erased <;> simp [h]

/-- Entries that are inserted are found before those that were there. -/
theorem find?_insertAll (m m' : NameMap β) (name : String) :
    (m.insertAll m'.entries).find? name = (m'.find? name).or (m.find? name) := by
  obtain ⟨entries, nodup⟩ := m'
  change (m.insertAll entries).find? name = (entries.lookup name).or (m.find? name)
  induction entries generalizing m with
  | nil => rfl
  | cons entry rest ih =>
      obtain ⟨key, value⟩ := entry
      obtain ⟨absent, distinct⟩ := List.nodup_cons.mp nodup
      have unfolded : m.insertAll ((key, value) :: rest) = (m.insert key value).insertAll rest :=
        rfl
      rw [unfolded, ih _ distinct, find?_insert, List.lookup_cons]
      by_cases h : name = key
      · subst h
        have none : rest.lookup name = none := find?_eq_none_iff (m := ⟨rest, distinct⟩).mpr absent
        simp [none]
      · rw [if_neg h, beq_eq_false_iff_ne.mpr h]

/-- A map may be made from those entries for whose value there is another one. -/
theorem find?_ofList_filterMap {entries : List (String × β)} (nodup : (entries.map Prod.fst).Nodup)
    (f : β → Option γ) {entry : String × β} (mem : entry ∈ entries) :
    (ofList (entries.filterMap fun entry => (f entry.2).map (Prod.mk entry.1))).find? entry.1 =
      f entry.2 := by
  have kept : ((entries.filterMap fun entry => (f entry.2).map (Prod.mk entry.1)).map
      Prod.fst).Sublist (entries.map Prod.fst) := by
    clear nodup mem
    induction entries with
    | nil => exact .slnil
    | cons first rest ih =>
        rw [List.filterMap_cons]
        cases f first.2 with
        | none => exact ih.cons _
        | some => exact ih.cons_cons _
  ext value
  rw [find?_eq_some_iff, entries_ofList (kept.nodup nodup), List.mem_filterMap]
  constructor
  · rintro ⟨other, mem', eq⟩
    obtain ⟨value', found, eq⟩ := Option.map_eq_some_iff.mp eq
    obtain ⟨same, rfl⟩ := Prod.mk.inj eq
    obtain rfl := List.inj_on_of_nodup_map nodup mem' mem same
    exact found
  · intro found
    exact ⟨entry, mem, Option.map_eq_some_iff.mpr ⟨value, found, rfl⟩⟩

/-! ## Related maps -/

/-- Entries under one name, with related values. -/
def RelatedEntries (R : β → γ → Prop) (entry : String × β) (entry' : String × γ) : Prop :=
  entry.1 = entry'.1 ∧ R entry.2 entry'.2

/-- Two maps with the same names in one order, and related values under them. -/
def Related (R : β → γ → Prop) (m : NameMap β) (m' : NameMap γ) : Prop :=
  List.Forall₂ (RelatedEntries R) m.entries m'.entries

section

variable {R : β → γ → Prop} {m : NameMap β} {m' : NameMap γ}

theorem Related.keys (h : Related R m m') : m.keys = m'.keys := by
  rw [NameMap.keys, NameMap.keys, ← List.forall₂_eq_eq_eq, List.forall₂_map_left_iff,
    List.forall₂_map_right_iff]
  exact h.imp fun _ _ related => related.1

theorem Related.flip {S : γ → β → Prop} (h : Related R m m')
    (imp : ∀ value value', R value value' → S value' value) : Related S m' m :=
  List.Forall₂.imp (fun _ _ related => ⟨related.1.symm, imp _ _ related.2⟩) (List.Forall₂.flip h)

/-- Under one name there are related values. -/
theorem Related.find? (h : Related R m m') (name : String) :
    Option.Rel R (m.find? name) (m'.find? name) := by
  have pairs : List.Forall₂ (RelatedEntries R) m.entries m'.entries := h
  rw [NameMap.find?, NameMap.find?]
  generalize m.entries = entries, m'.entries = entries' at pairs
  induction pairs with
  | nil => exact .none
  | @cons first first' _ _ related _ ih =>
      obtain ⟨key, value⟩ := first
      obtain ⟨key', value'⟩ := first'
      obtain ⟨rfl, related⟩ : key = key' ∧ R value value' := related
      rw [List.lookup_cons, List.lookup_cons]
      split
      · exact .some related
      · exact ih

theorem Related.insert (h : Related R m m') (name : String) {value : β} {value' : γ}
    (related : R value value') : Related R (m.insert name value) (m'.insert name value') := by
  have keys : m.entries.map Prod.fst = m'.entries.map Prod.fst := h.keys
  by_cases present : name ∈ m.entries.map Prod.fst
  · have present' := keys ▸ present
    simp only [Related, NameMap.insert, present, present', ↓reduceDIte, replace,
      List.forall₂_map_left_iff, List.forall₂_map_right_iff]
    refine List.Forall₂.imp (fun entry entry' same => ?_) h
    rw [← same.1]
    split
    · exact ⟨rfl, related⟩
    · exact same
  · have absent' := keys ▸ present
    simp only [Related, NameMap.insert, present, absent', ↓reduceDIte]
    exact List.rel_append h (.cons ⟨rfl, related⟩ .nil)

theorem Related.insertAll {entries : List (String × β)} {entries' : List (String × γ)}
    (inserted : List.Forall₂ (RelatedEntries R) entries entries') (h : Related R m m') :
    Related R (m.insertAll entries) (m'.insertAll entries') := by
  induction inserted generalizing m m' with
  | nil => exact h
  | @cons entry entry' _ _ first _ ih =>
      have next := h.insert entry.1 first.2
      rw [first.1] at next
      simpa only [NameMap.insertAll, List.foldl_cons, first.1] using ih next

theorem related_ofList {entries : List (String × β)} {entries' : List (String × γ)}
    (h : List.Forall₂ (RelatedEntries R) entries entries') :
    Related R (ofList entries) (ofList entries') :=
  Related.insertAll h .nil

end

end NameMap

/-! ## Lists with keys -/

/-- If only one item of a list has a key, and the others contribute nothing for it, then the list
contributes what that item does. -/
theorem flatMap_eq_of_key {β γ : Type} {keys : β → List String} {contribution : β → List γ}
    {name : String} {items : List β} {item : β} (nodup : (items.flatMap keys).Nodup)
    (nothing : ∀ other ∈ items, name ∉ keys other → contribution other = [])
    (mem : item ∈ items) (hkey : name ∈ keys item) :
    items.flatMap contribution = contribution item := by
  induction items with
  | nil => cases mem
  | cons first rest ih =>
      rw [List.flatMap_cons, List.nodup_append] at nodup
      obtain ⟨_, nodup, disjoint⟩ := nodup
      have inRest {other : β} (h : other ∈ rest) (key : name ∈ keys other) :
          name ∈ rest.flatMap keys :=
        List.mem_flatMap.mpr ⟨other, h, key⟩
      rw [List.flatMap_cons]
      obtain rfl | mem := List.mem_cons.mp mem
      · have none : rest.flatMap contribution = [] := by
          rw [List.flatMap_eq_nil_iff]
          intro other h
          apply nothing other (List.mem_cons_of_mem _ h)
          intro key
          exact disjoint name hkey name (inRest h key) rfl
        rw [none, List.append_nil]
      · have none : contribution first = [] := by
          apply nothing first List.mem_cons_self
          intro key
          exact disjoint name key name (inRest mem hkey) rfl
        rw [none, List.nil_append]
        exact ih nodup (fun other h => nothing other (List.mem_cons_of_mem _ h)) mem

/-! ## Numbered names -/

@[simp] theorem numbered_zero (name : String) : numbered name 0 = name := rfl

/-- The last occurrence of an item splits a list in one way only. -/
private theorem append_cons_cancel {α : Type} {a : α} {l l' r r' : List α} (h : a ∉ r)
    (h' : a ∉ r') (eq : l ++ a :: r = l' ++ a :: r') : l = l' ∧ r = r' := by
  obtain ⟨c, rfl, hc⟩ | ⟨c, rfl, hc⟩ := List.append_eq_append_iff.mp eq <;>
    cases c <;> simp_all

/-- A number behind an underscore can be read off, and so can what stands before it. -/
theorem append_underscore_toDigits_inj {l l' : List Char} {i j : Nat}
    (h : l ++ '_' :: Nat.toDigits 10 i = l' ++ '_' :: Nat.toDigits 10 j) : l = l' ∧ i = j := by
  obtain ⟨before, digits⟩ :=
    append_cons_cancel Nat.underscore_not_in_toDigits Nat.underscore_not_in_toDigits h
  have numbers := congrArg (Nat.ofDigitChars 10 · 0) digits
  simp only [Nat.ofDigitChars_ten_toDigits] at numbers
  exact ⟨before, numbers⟩

theorem toList_numbered (name : String) {index : Nat} (h : 0 < index) :
    (numbered name index).toList = name.toList ++ '_' :: Nat.toDigits 10 (index + 1) := by
  simp [numbered, Nat.ne_of_gt h]

/-- Two numbered names are equal only if name and number are. -/
theorem numbered_inj {name name' : String} {i j : Nat} (hi : 0 < i) (hj : 0 < j)
    (h : numbered name i = numbered name' j) : name = name' ∧ i = j := by
  have lists := congrArg String.toList h
  rw [toList_numbered name hi, toList_numbered name' hj] at lists
  obtain ⟨names, numbers⟩ := append_underscore_toDigits_inj lists
  exact ⟨String.toList_inj.mp names, by omega⟩

theorem numbered_ne_self (name : String) {index : Nat} (h : 0 < index) :
    numbered name index ≠ name := by
  intro eq
  have lengths := congrArg (List.length ∘ String.toList) eq
  simp only [Function.comp, toList_numbered name h, List.length_append, List.length_cons] at lengths
  omega

theorem numbered_injective (name : String) : Function.Injective (numbered name) := by
  intro i j eq
  obtain rfl | hi := Nat.eq_zero_or_pos i
  · obtain rfl | hj := Nat.eq_zero_or_pos j
    · rfl
    · exact absurd eq.symm (numbered_ne_self name hj)
  · obtain rfl | hj := Nat.eq_zero_or_pos j
    · exact absurd eq (numbered_ne_self name hi)
    · exact (numbered_inj hi hj eq).2

/-- Taken names cannot use up more candidates than there are of them. -/
theorem exists_lt_candidate_not_mem {candidate : Nat → String}
    (injective : Function.Injective candidate) (taken : List String) :
    ∃ index < taken.length + 1, candidate index ∉ taken := by
  by_contra none
  push Not at none
  have all : (List.range (taken.length + 1)).map candidate ⊆ taken := by
    intro name mem
    obtain ⟨index, below, rfl⟩ := List.mem_map.mp mem
    exact none index (List.mem_range.mp below)
  have nodup := List.Nodup.map injective (List.nodup_range (n := taken.length + 1))
  have count := (List.Nodup.subperm nodup all).length_le
  rw [List.length_map, List.length_range] at count
  omega

/-- So a free candidate is found, and it is the first one that is free. -/
theorem exists_firstFree_eq {candidate : Nat → String} (injective : Function.Injective candidate)
    (taken : List String) : ∃ index, firstFree candidate taken = candidate index ∧
      candidate index ∉ taken ∧ ∀ earlier < index, candidate earlier ∈ taken := by
  obtain ⟨free, below, notTaken⟩ := exists_lt_candidate_not_mem injective taken
  cases found : (List.range (taken.length + 1)).find? ((!taken.contains ·) ∘ candidate) with
  | none =>
      have isTaken := List.find?_eq_none.mp found free (List.mem_range.mpr below)
      exact absurd (by simpa using isTaken) notTaken
  | some index =>
      obtain ⟨isFree, _, first⟩ := List.find?_range_eq_some.mp found
      refine ⟨index, ?_, by simpa using isFree, fun earlier before => ?_⟩
      · rw [firstFree, List.find?_map, found]
        rfl
      · simpa using first earlier before

theorem firstFree_not_mem {candidate : Nat → String} (injective : Function.Injective candidate)
    {taken : List String} : firstFree candidate taken ∉ taken := by
  obtain ⟨index, found, free, _⟩ := exists_firstFree_eq injective taken
  exact found ▸ free

end HybridAutomata
