import HybridAutomata.Proofs.Exact.Fields
import HybridAutomata.Proofs.Model.ModeNames

/-!
# How long short names get

A short form gives up more of its name the longer its number is, and so it stays within the limit as
long as the number does. How far the numbers go depends on how many modes there are. All names are
within the limit if there are few modes; from some number of modes on there are models whose names
have so much in common that not all short forms can be, as there are more of them than numbers that
fit.
-/

namespace HybridAutomata

open Success

namespace ModeName

variable {limit number : Nat} {taken names : List String} {name : String}

/-! ## Room for the number -/

theorem length_cut_le (limit : Nat) (name : String) : (cut limit name).length ≤ limit := by
  rw [cut, String.length_ofList]
  exact List.length_take_le _ _

/-- A numbered name is within the limit exactly if the number leaves room for the underscore. -/
theorem length_cutNumbered_le_iff (accepted : 2 ≤ limit) :
    (cutNumbered limit name number).length ≤ limit ↔ number < 10 ^ (limit - 1) := by
  have room : 0 < limit - 1 := Nat.sub_pos_of_lt accepted
  rw [← Nat.length_toDigits_le_iff (by decide) room, ← String.length_toList, toList_cutNumbered]
  have suffix : ("_" ++ toString number).length = (Nat.toDigits 10 number).length + 1 := by
    rw [← String.length_toList]
    simp
  rw [suffix, List.length_append, List.length_take, List.length_cons]
  omega

/-- The search ends with the cut name, or with a number that is at most two more than there are
names in its way. -/
theorem shorten_eq (limit : Nat) (taken : List String) (name : String) :
    shorten limit taken name = cut limit name ∨ ∃ number, 2 ≤ number ∧
      number ≤ taken.length + 2 ∧ shorten limit taken name = cutNumbered limit name number := by
  rw [shorten]
  split
  · have injective : Function.Injective fun index => cutNumbered limit name (index + 2) :=
      fun i j eq => Nat.add_right_cancel (cutNumbered_injective limit name eq)
    obtain ⟨index, found, _, earlier⟩ := exists_firstFree_eq injective taken
    obtain ⟨free, below, notTaken⟩ := exists_lt_candidate_not_mem injective taken
    have first : index ≤ free := Nat.not_lt.mp fun before => notTaken (earlier free before)
    exact .inr ⟨index + 2, by omega, by omega, found⟩
  · exact .inl rfl

theorem length_shorten_le (accepted : 2 ≤ limit) (room : taken.length + 2 < 10 ^ (limit - 1)) :
    (shorten limit taken name).length ≤ limit := by
  obtain cutOff | ⟨number, _, le, numbered⟩ := shorten_eq limit taken name
  · exact cutOff ▸ length_cut_le limit name
  · rw [numbered, length_cutNumbered_le_iff accepted]
    exact le.trans_lt room

/-- One name after the other is taken, so that all of them count for the last one. -/
theorem length_shortForms_le (accepted : 2 ≤ limit)
    (room : taken.length + names.length + 1 < 10 ^ (limit - 1)) :
    ∀ entry ∈ shortForms limit taken names, entry.2.length ≤ limit := by
  induction names generalizing taken with
  | nil => exact List.forall_mem_nil _
  | cons name names ih =>
      rw [List.length_cons] at room
      refine List.forall_mem_cons.mpr ⟨length_shorten_le accepted (by omega), ih ?_⟩
      rw [List.length_cons]
      omega

theorem length_newName_le (accepted : 2 ≤ limit) (few : names.length + 1 < 10 ^ (limit - 1))
    (mem : name ∈ names) : (newName limit names name).length ≤ limit := by
  obtain fits | long := Nat.lt_or_ge limit name.length |>.symm
  · rwa [newName_of_length_le fits]
  · have form := NameMap.mem_of_mem_ofList (mem_newNames mem long)
    have parts := List.length_eq_length_filter_add (l := names)
      fun name => decide (name.length ≤ limit)
    rw [parts] at few
    have within := length_shortForms_le accepted few _ form
    exact within

/-! ## Too many names -/

/-- A short form is the cut name or has a number. -/
theorem exists_number_of_mem_shortForms {entry : String × String}
    (mem : entry ∈ shortForms limit taken names) : entry.2 = cut limit entry.1 ∨
      ∃ number, 2 ≤ number ∧ entry.2 = cutNumbered limit entry.1 number := by
  induction names generalizing taken with
  | nil => cases mem
  | cons name names ih =>
      obtain rfl | later := List.mem_cons.mp mem
      · refine (shorten_eq limit taken name).imp_right ?_
        rintro ⟨number, least, _, numbered⟩
        exact ⟨number, least, numbered⟩
      · exact ih later

/-- What is behind the limit does not show in a numbered name. -/
theorem cutNumbered_congr {other : String} (same : cut limit name = cut limit other)
    (number : Nat) : cutNumbered limit name number = cutNumbered limit other number := by
  have lists : name.toList.take limit = other.toList.take limit := by
    simpa [cut] using congrArg String.toList same
  have first (rest : Nat) (list : List Char) :
      list.take (limit - rest) = (list.take limit).take (limit - rest) := by
    rw [List.take_take, Nat.min_eq_left (Nat.sub_le limit rest)]
  rw [← String.toList_inj, toList_cutNumbered, toList_cutNumbered, first, lists, ← first]

/-- The last number that fits, without any name before it. -/
def lastNumbered (limit : Nat) : String := "_" ++ toString (10 ^ (limit - 1) - 1)

theorem toList_lastNumbered (limit : Nat) :
    (lastNumbered limit).toList = '_' :: Nat.toDigits 10 (10 ^ (limit - 1) - 1) := by
  simp [lastNumbered]

theorem length_lastNumbered (accepted : 3 ≤ limit) : (lastNumbered limit).length = limit := by
  have positive (k : Nat) : 0 < 10 ^ k := Nat.pow_pos (by decide)
  have next : 10 ^ (limit - 1) = 10 ^ (limit - 2) * 10 := by
    rw [← Nat.pow_succ]
    congr 1
    omega
  have most : (Nat.toDigits 10 (10 ^ (limit - 1) - 1)).length ≤ limit - 1 := by
    rw [Nat.length_toDigits_le_iff (by decide) (by omega)]
    exact Nat.sub_lt (positive _) Nat.one_pos
  have least : ¬(Nat.toDigits 10 (10 ^ (limit - 1) - 1)).length ≤ limit - 2 := by
    rw [Nat.length_toDigits_le_iff (by decide) (by omega), next]
    have := positive (limit - 2)
    omega
  rw [← String.length_toList, toList_lastNumbered, List.length_cons]
  omega

theorem cut_lastNumbered (accepted : 3 ≤ limit) :
    cut limit (lastNumbered limit) = lastNumbered limit := by
  rw [cut, List.take_of_length_le, String.ofList_toList]
  rw [String.length_toList, length_lastNumbered accepted]

theorem cutNumbered_lastNumbered (accepted : 3 ≤ limit) :
    cutNumbered limit (lastNumbered limit) (10 ^ (limit - 1) - 1) = lastNumbered limit := by
  have parts : cutNumbered limit (lastNumbered limit) (10 ^ (limit - 1) - 1) =
      cut (limit - (lastNumbered limit).length) (lastNumbered limit) ++ lastNumbered limit := rfl
  rw [parts, length_lastNumbered accepted, Nat.sub_self, cut, List.take_zero]
  exact String.empty_append

/-- If a name begins with the last number that fits, its short form has a number in any case. -/
theorem exists_newName_eq_cutNumbered (accepted : 3 ≤ limit) (mem : name ∈ names)
    (long : limit < name.length) (begins : cut limit name = lastNumbered limit) :
    ∃ number, 2 ≤ number ∧
      newName limit names name = cutNumbered limit (lastNumbered limit) number := by
  have form := NameMap.mem_of_mem_ofList (mem_newNames mem long)
  obtain cutOff | ⟨number, least, numbered⟩ := exists_number_of_mem_shortForms form
  · have large : 10 ^ 2 ≤ 10 ^ (limit - 1) := Nat.pow_le_pow_right (by decide) (by omega)
    refine ⟨10 ^ (limit - 1) - 1, by omega, ?_⟩
    exact (cutOff.trans begins).trans (cutNumbered_lastNumbered accepted).symm
  · have same := begins.trans (cut_lastNumbered accepted).symm
    exact ⟨number, least, numbered.trans (cutNumbered_congr same number)⟩

/-- If all names begin with the last number that fits, then all short forms have numbers; and as the
short forms are different, there must be enough numbers that fit. -/
theorem length_add_one_lt (accepted : 3 ≤ limit) (nodup : names.Nodup)
    (long : ∀ name ∈ names, limit < name.length)
    (alike : ∀ name ∈ names, cut limit name = lastNumbered limit)
    (fits : ∀ name ∈ names, (newName limit names name).length ≤ limit) :
    names.length + 1 < 10 ^ (limit - 1) := by
  have numbered : names.map (newName limit names) ⊆
      (List.range (10 ^ (limit - 1) - 2)).map fun index =>
        cutNumbered limit (lastNumbered limit) (index + 2) := by
    intro short mem
    obtain ⟨name, given, rfl⟩ := List.mem_map.mp mem
    have fits := fits name given
    obtain ⟨number, least, eq⟩ :=
      exists_newName_eq_cutNumbered accepted given (long name given) (alike name given)
    rw [eq, length_cutNumbered_le_iff (by omega)] at fits
    refine List.mem_map.mpr ⟨number - 2, List.mem_range.mpr (by omega), ?_⟩
    rw [Nat.sub_add_cancel least, eq]
  have different := nodup.map_on fun name mem name' mem' eq =>
    newName_injOn limit names mem mem' eq
  have count := (List.Nodup.subperm different numbered).length_le
  rw [List.length_map, List.length_map, List.length_range] at count
  have large : 10 ^ 2 ≤ 10 ^ (limit - 1) := Nat.pow_le_pow_right (by decide) (by omega)
  omega

/-- Names that begin with the last number that fits. -/
def alike (limit index : Nat) : String := lastNumbered limit ++ "_" ++ toString index

theorem toList_alike (limit index : Nat) :
    (alike limit index).toList = (lastNumbered limit).toList ++ '_' :: Nat.toDigits 10 index := by
  simp [alike]

theorem alike_injective (limit : Nat) : Function.Injective (alike limit) := by
  intro i j eq
  have lists := congrArg String.toList eq
  rw [toList_alike, toList_alike] at lists
  exact (append_underscore_toDigits_inj lists).2

theorem length_alike (accepted : 3 ≤ limit) (index : Nat) : limit < (alike limit index).length := by
  rw [← String.length_toList, toList_alike, List.length_append, String.length_toList,
    length_lastNumbered accepted, List.length_cons]
  omega

theorem cut_alike (accepted : 3 ≤ limit) (index : Nat) :
    cut limit (alike limit index) = lastNumbered limit := by
  have length := (String.length_toList ..).trans (length_lastNumbered accepted)
  rw [cut, toList_alike, List.take_left' length, String.ofList_toList]

end ModeName

/-! ## Models -/

variable {α : Type}

/-- The modes of a flat model have names of at most this many characters. -/
def Model.NamesWithin (m : Model α) (limit : Nat) : Prop :=
  ∀ a, m.automaton = .ok a → ∀ name ∈ a.modes.keys, name.length ≤ limit

/-- An automaton with a number of modes whose names begin alike. -/
def crowd (limit count : Nat) : Automaton α where
  modes := .ofList <| (List.range count).map fun index =>
    (ModeName.alike limit index, { name := ModeName.alike limit index })

theorem entries_crowd (limit count : Nat) : (crowd limit count : Automaton α).modes.entries =
    (List.range count).map fun index =>
      (ModeName.alike limit index, { name := ModeName.alike limit index }) := by
  refine NameMap.entries_ofList ?_
  rw [List.map_map]
  exact List.nodup_range.map (ModeName.alike_injective limit)

theorem keys_crowd (limit count : Nat) : (crowd limit count : Automaton α).modes.keys =
    (List.range count).map (ModeName.alike limit) := by
  rw [NameMap.keys, entries_crowd, List.map_map]
  rfl

theorem sound_crowd (limit count : Nat) : (crowd limit count : Automaton α).Sound where
  stored := by
    rw [entries_crowd]
    exact List.forall_mem_map.mpr fun _ _ => rfl
  modes := by
    rw [NameMap.values, entries_crowd]
    refine List.forall_mem_map.mpr (List.forall_mem_map.mpr fun index _ => ⟨?_, ?_⟩)
    · exact List.forall_mem_nil _
    · exact List.forall_mem_nil _
  transitions := List.forall_mem_nil _
  disjoint := List.forall_mem_nil _

variable [Scalar α]

def crowdModel (limit count : Nat) : Model α where
  root := .flat (crowd limit count)
  settings := .initial

namespace Model

variable {limit count : Nat} {m m' : Model α} {a : Automaton α} {pass : String}

omit [Scalar α] in
/-- Flat models get short names with every accepted limit. -/
theorem exists_shortenModeNames (accepted : minNameLimit ≤ limit) (flat : m.automaton = .ok a)
    (pass : String) : ∃ m', m.shortenModeNames limit pass = .ok m' :=
  ⟨_, shortenModeNames_eq_ok_iff.mpr ⟨accepted, a, flat, rfl⟩⟩

omit [Scalar α] in
/-- The modes get their new names, also if no name is too long. -/
theorem exists_automaton_of_shortenModeNames (flat : m.automaton = .ok a)
    (shortened : m.shortenModeNames limit pass = .ok m') : ∃ a', m'.automaton = .ok a' ∧
      ∀ name, name ∈ a'.modes.keys ↔
        ∃ old ∈ a.modes.keys, ModeName.newName limit a.modes.keys old = name := by
  obtain ⟨_, b, flatB, rfl⟩ := shortenModeNames_eq_ok_iff.mp shortened
  obtain rfl := Except.ok.inj (flatB.symm.trans flat)
  split
  · next none => exact ⟨b, flat, by simp [ModeName.newName_of_isEmpty none]⟩
  · refine ⟨_, rfl, fun name => ?_⟩
    rw [Automaton.renameModes, NameMap.mem_keys_ofList, List.map_map, NameMap.keys]
    simp

omit [Scalar α] in
/-- The names are within the limit if all new names are. -/
theorem namesWithin_iff_of_shortenModeNames (flat : m.automaton = .ok a)
    (shortened : m.shortenModeNames limit pass = .ok m') : m'.NamesWithin limit ↔
      ∀ name ∈ a.modes.keys, (ModeName.newName limit a.modes.keys name).length ≤ limit := by
  obtain ⟨a', flat', keys⟩ := exists_automaton_of_shortenModeNames flat shortened
  constructor
  · intro within name mem
    exact within a' flat' _ ((keys _).mpr ⟨name, mem, rfl⟩)
  · intro fits b flatB name mem
    obtain rfl := Except.ok.inj (flat'.symm.trans flatB)
    obtain ⟨old, given, rfl⟩ := (keys name).mp mem
    exact fits old given

/-- With the modes of a crowd the numbers get too long, if there are enough modes. -/
theorem not_namesWithin_crowd (accepted : 4 ≤ limit) (many : 10 ^ (limit - 1) ≤ count + 1)
    (shortened : (crowdModel limit count).shortenModeNames limit pass = .ok m') :
    ¬m'.NamesWithin limit := by
  intro within
  have accepted : 3 ≤ limit := Nat.le_of_succ_le accepted
  have fits := (namesWithin_iff_of_shortenModeNames (a := crowd limit count) rfl shortened).mp within
  have few := ModeName.length_add_one_lt accepted (NameMap.keys_nodup _)
    (fun name mem => ?_) (fun name mem => ?_) fits
  · rw [keys_crowd, List.length_map, List.length_range] at few
    exact Nat.not_lt.mpr many few
  all_goals
    rw [keys_crowd] at mem
    obtain ⟨index, _, rfl⟩ := List.mem_map.mp mem
  · exact ModeName.length_alike accepted index
  · exact ModeName.cut_alike accepted index

/-- Short names respect the limit if there are few modes. For every limit of at least four
characters and every number of modes: all flat models with this number of modes get names within
the limit exactly if a number that is one more than that of the modes fits behind an underscore. -/
theorem namesWithin_shortenModeNames_iff (accepted : 4 ≤ limit) (pass : String) :
    (∀ (m m' : Model α) (a : Automaton α), m.automaton = .ok a → a.modes.size = count →
      m.shortenModeNames limit pass = .ok m' → m'.NamesWithin limit) ↔
    count + 1 < 10 ^ (limit - 1) := by
  constructor
  · intro fits
    by_contra many
    obtain ⟨m', shortened⟩ := exists_shortenModeNames (m := crowdModel (α := α) limit count)
      accepted rfl pass
    have size : (crowd limit count : Automaton α).modes.size = count := by
      rw [NameMap.size, entries_crowd, List.length_map, List.length_range]
    exact not_namesWithin_crowd accepted (Nat.not_lt.mp many) shortened
      (fits _ _ (crowd limit count) rfl size shortened)
  · intro few m m' a flat size shortened
    have length : a.modes.keys.length = count := (List.length_map ..).trans size
    rw [namesWithin_iff_of_shortenModeNames flat shortened]
    exact fun name mem => ModeName.length_newName_le (by omega) (length.symm ▸ few) mem

/-- The heater has few modes. -/
theorem heater_namesWithin : 4 ≤ 7 ∧ heaterModel.automaton = .ok heater ∧
    ∃ m', heaterModel.shortenModeNames 7 "shorten_mode_names" = .ok m' ∧ m'.NamesWithin 7 := by
  obtain ⟨m', shortened⟩ := exists_shortenModeNames (m := heaterModel) (by decide : 4 ≤ 7) rfl
    "shorten_mode_names"
  have within := (namesWithin_shortenModeNames_iff (by decide) "shorten_mode_names").mpr
    (by decide : 3 + 1 < 10 ^ (7 - 1)) heaterModel m' heater rfl rfl shortened
  exact ⟨by decide, rfl, m', shortened, within⟩

/-- A valid model of 999 modes in which the limit of four characters, accepted as it is, is not
respected: one of the modes gets the name `_1000`. -/
theorem crowd_not_namesWithin : (crowdModel 4 999 : Model (Extended ℚ)).Valid ∧
    ∃ m', (crowdModel 4 999 : Model (Extended ℚ)).shortenModeNames 4 "shorten_mode_names" =
      .ok m' ∧ ¬m'.NamesWithin 4 := by
  obtain ⟨m', shortened⟩ := exists_shortenModeNames (m := crowdModel (α := Extended ℚ) 4 999)
    (by decide : 4 ≤ 4) rfl "shorten_mode_names"
  refine ⟨valid_iff.mpr ?_, m', shortened, not_namesWithin_crowd (by decide) (by decide) shortened⟩
  exact {
    root := Component.sound_flat_iff.mpr (sound_crowd 4 999)
    init := List.forall_mem_nil _
    forbidden := List.forall_mem_nil _
    plot := ⟨.inl rfl, .inl rfl⟩
    horizon := by decide +kernel }

end Model

end HybridAutomata
