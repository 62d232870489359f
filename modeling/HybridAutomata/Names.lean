/-!
# Sets and maps of names

Declarations, modes, flows and regions are kept in the order in which they were first written, and
that order shows in every listing. `NameSet` and `NameMap` are lists without repeated names; the
fact that no name is repeated is part of the type, so an entry is determined by its name.

Inserting under a name that is present replaces the value and leaves the entry where it is.
-/

namespace HybridAutomata

/-- Distinct names in the order of their first insertion. -/
structure NameSet where
  toList : List String
  nodup : toList.Nodup

/-- Values under distinct names, in the order of first insertion. -/
structure NameMap (β : Type) where
  entries : List (String × β)
  nodup : (entries.map Prod.fst).Nodup

namespace NameSet

def empty : NameSet := ⟨[], List.nodup_nil⟩

instance : EmptyCollection NameSet := ⟨empty⟩
instance : Inhabited NameSet := ⟨∅⟩

def contains (s : NameSet) (name : String) : Bool := s.toList.contains name

def size (s : NameSet) : Nat := s.toList.length

/-- Appends a name unless it is present. -/
def insert (s : NameSet) (name : String) : NameSet :=
  if h : name ∈ s.toList then s
  else
    ⟨s.toList ++ [name], by
      rw [List.nodup_append]
      refine ⟨s.nodup, by simp, ?_⟩
      intro a ha b hb hab
      exact h (by simp_all)⟩

/-- Inserts the names one after the other. -/
def insertAll (s : NameSet) (names : List String) : NameSet := names.foldl insert s

def ofList (names : List String) : NameSet := (∅ : NameSet).insertAll names

/-- Keeps the names that satisfy `p`. -/
def filter (s : NameSet) (p : String → Bool) : NameSet :=
  ⟨s.toList.filter p, List.filter_sublist.nodup s.nodup⟩

def erase (s : NameSet) (name : String) : NameSet := s.filter (· != name)

@[simp] theorem toList_insert_of_mem {s : NameSet} {name : String} (h : name ∈ s.toList) :
    (s.insert name).toList = s.toList := by simp [insert, h]

@[simp] theorem toList_insert_of_not_mem {s : NameSet} {name : String} (h : name ∉ s.toList) :
    (s.insert name).toList = s.toList ++ [name] := by simp [insert, h]

theorem mem_insert {s : NameSet} {name a : String} :
    a ∈ (s.insert name).toList ↔ a ∈ s.toList ∨ a = name := by
  by_cases h : name ∈ s.toList
  · rw [toList_insert_of_mem h]; grind
  · rw [toList_insert_of_not_mem h]; simp

theorem contains_iff {s : NameSet} {name : String} : s.contains name = true ↔ name ∈ s.toList := by
  simp [contains]

@[simp] theorem toList_filter (s : NameSet) (p : String → Bool) :
    (s.filter p).toList = s.toList.filter p := rfl

end NameSet

namespace NameMap

variable {β γ : Type}

def empty : NameMap β := ⟨[], List.nodup_nil⟩

instance : EmptyCollection (NameMap β) := ⟨empty⟩
instance : Inhabited (NameMap β) := ⟨∅⟩

def keys (m : NameMap β) : List String := m.entries.map Prod.fst

def values (m : NameMap β) : List β := m.entries.map Prod.snd

def size (m : NameMap β) : Nat := m.entries.length

def contains (m : NameMap β) (name : String) : Bool := m.entries.any (·.1 == name)

/-- The value under a name. -/
def find? (m : NameMap β) (name : String) : Option β := m.entries.lookup name

/-- The position of a name among the keys. -/
def indexOf? (m : NameMap β) (name : String) : Option Nat := m.entries.findIdx? (·.1 == name)

/-- Sets the value under `name` in place. -/
def replace (name : String) (value : β) (entries : List (String × β)) : List (String × β) :=
  entries.map fun entry => if entry.1 = name then (name, value) else entry

theorem map_fst_replace (name : String) (value : β) (entries : List (String × β)) :
    (replace name value entries).map Prod.fst = entries.map Prod.fst := by
  unfold replace
  rw [List.map_map]
  refine List.map_congr_left fun entry _ => ?_
  by_cases h : entry.1 = name <;> simp [h]

/-- Replaces the value under a name that is present, and appends an entry for one that is not. -/
def insert (m : NameMap β) (name : String) (value : β) : NameMap β :=
  if h : name ∈ m.entries.map Prod.fst then
    ⟨replace name value m.entries, by rw [map_fst_replace]; exact m.nodup⟩
  else
    ⟨m.entries ++ [(name, value)], by
      rw [List.map_append, List.nodup_append]
      refine ⟨m.nodup, by simp, ?_⟩
      intro a ha b hb hab
      exact h (by simp_all)⟩

/-- Inserts the entries one after the other. -/
def insertAll (m : NameMap β) (entries : List (String × β)) : NameMap β :=
  entries.foldl (fun m entry => m.insert entry.1 entry.2) m

/-- The map with the given entries; of two with one name, the later value at the earlier place. -/
def ofList (entries : List (String × β)) : NameMap β := (∅ : NameMap β).insertAll entries

/-- Keeps the entries that satisfy `p`. -/
def filter (m : NameMap β) (p : String → β → Bool) : NameMap β :=
  ⟨m.entries.filter fun entry => p entry.1 entry.2,
    (List.filter_sublist.map Prod.fst).nodup m.nodup⟩

def erase (m : NameMap β) (name : String) : NameMap β := m.filter fun key _ => key != name

/-- Applies `f` to every value. -/
def map (f : β → γ) (m : NameMap β) : NameMap γ :=
  ⟨m.entries.map fun entry => (entry.1, f entry.2), by
    rw [List.map_map]; exact m.nodup⟩

/-- Applies `f` to every name and value, keeping the names. -/
def mapWithKey (f : String → β → γ) (m : NameMap β) : NameMap γ :=
  ⟨m.entries.map fun entry => (entry.1, f entry.1 entry.2), by
    rw [List.map_map]; exact m.nodup⟩

/-- Applies `f`, which may fail, to every value, in the order of the entries. -/
def mapM {ε : Type} (f : β → Except ε γ) (m : NameMap β) : Except ε (NameMap γ) := do
  return .ofList (← m.entries.mapM fun entry => do return (entry.1, ← f entry.2))

/-- Renames the keys; of two keys that become one, the later value at the earlier place. -/
def mapKeys (f : String → String) (m : NameMap β) : NameMap β :=
  ofList (m.entries.map fun entry => (f entry.1, entry.2))

@[simp] theorem keys_map (f : β → γ) (m : NameMap β) : (m.map f).keys = m.keys := by
  simp [keys, map]

@[simp] theorem values_map (f : β → γ) (m : NameMap β) : (m.map f).values = m.values.map f := by
  simp [values, map]

@[simp] theorem keys_mapWithKey (f : String → β → γ) (m : NameMap β) :
    (m.mapWithKey f).keys = m.keys := by
  simp [keys, mapWithKey]

theorem mem_keys_insert {m : NameMap β} {name key : String} {value : β} :
    key ∈ (m.insert name value).keys ↔ key ∈ m.keys ∨ key = name := by
  unfold insert
  split
  · rename_i h
    simp only [keys, map_fst_replace]
    grind
  · simp [keys]

theorem keys_nodup (m : NameMap β) : m.keys.Nodup := m.nodup

/-- Whether a name is present shows in the keys. -/
theorem contains_iff {m : NameMap β} {name : String} : m.contains name = true ↔ name ∈ m.keys := by
  simp [contains, keys]

end NameMap

/-- The first candidate that is not among the taken names. With `n` names taken, one of the first
`n + 1` candidates is free if no two candidates are equal. -/
def firstFree (candidate : Nat → String) (taken : List String) : String :=
  (((List.range (taken.length + 1)).map candidate).find? (!taken.contains ·)).getD (candidate 0)

/-- A name, and the same name with `_2`, `_3`, … behind it. -/
def numbered (name : String) (index : Nat) : String :=
  if index = 0 then name else name ++ "_" ++ toString (index + 1)

end HybridAutomata
