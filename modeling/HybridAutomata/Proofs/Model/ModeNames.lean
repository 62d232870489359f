import HybridAutomata.Proofs.Flatten.Renaming
import HybridAutomata.Proofs.Model.Rewriting

/-!
# Modes under short names

A short form is found by trying: first the cut name, then numbered ones, until one is free. The
trials end, because numbered names are different for different numbers, however much of the name is
left of them, and only finitely many names are taken. Short forms are different from the names that
stay and from each other, so the renaming keeps modes apart, and the model under short names is the
model with the renaming applied.
-/

namespace HybridAutomata

open Success

/-! ## Trials -/

namespace ModeName

variable {limit : Nat} {taken : List String} {name short found : String} {number : Nat}

/-- The search for a short form as a loop: a name that is free is taken, and after one that is not
the next number is tried. -/
inductive Tries (limit : Nat) (taken : List String) (name : String) :
    String → Nat → String → Prop
  | free {short : String} {number : Nat} (free : short ∉ taken) :
      Tries limit taken name short number short
  | next {short : String} {number : Nat} {found : String} (isTaken : short ∈ taken)
      (rest : Tries limit taken name (cutNumbered limit name number) (number + 1) found) :
      Tries limit taken name short number found

theorem Tries.not_mem (h : Tries limit taken name short number found) : found ∉ taken := by
  induction h with
  | free free => exact free
  | next _ _ ih => exact ih

theorem toList_cutNumbered (limit : Nat) (name : String) (number : Nat) :
    (cutNumbered limit name number).toList =
      name.toList.take (limit - ("_" ++ toString number).length) ++
        '_' :: Nat.toDigits 10 number := by
  simp [cutNumbered, cut]

/-- The number can be read off also if nothing is left of the name. -/
theorem cutNumbered_injective (limit : Nat) (name : String) :
    Function.Injective (cutNumbered limit name) := by
  intro i j eq
  have lists := congrArg String.toList eq
  rw [toList_cutNumbered, toList_cutNumbered] at lists
  exact (append_underscore_toDigits_inj lists).2

example : cutNumbered 4 "cooling" 1000 = "_1000" := by decide

/-- If all before a free candidate are taken, the trials end there. -/
theorem tries_of_mem {count : Nat} (start : short ∈ taken)
    (earlier : ∀ i < count, cutNumbered limit name (number + i) ∈ taken)
    (free : cutNumbered limit name (number + count) ∉ taken) :
    Tries limit taken name short number (cutNumbered limit name (number + count)) := by
  induction count generalizing short number with
  | zero =>
      rw [Nat.add_zero] at free ⊢
      exact .next start (.free free)
  | succ count ih =>
      have shift (i : Nat) : number + (i + 1) = number + 1 + i := by omega
      have next := earlier 0 (Nat.succ_pos count)
      rw [Nat.add_zero] at next
      rw [shift] at free ⊢
      refine .next start (ih next (fun i below => ?_) free)
      exact shift i ▸ earlier (i + 1) (Nat.succ_lt_succ below)

/-- The trials end, and with the short form. -/
theorem tries_shorten (limit : Nat) (taken : List String) (name : String) :
    Tries limit taken name (cut limit name) 2 (shorten limit taken name) := by
  rw [shorten]
  split
  · next isTaken =>
      have injective : Function.Injective fun index => cutNumbered limit name (index + 2) :=
        fun i j eq => Nat.add_right_cancel (cutNumbered_injective limit name eq)
      obtain ⟨index, found, free, earlier⟩ := exists_firstFree_eq injective taken
      rw [found, Nat.add_comm]
      refine tries_of_mem (List.contains_iff_mem.mp isTaken) (fun i below => ?_) ?_
      · exact Nat.add_comm i 2 ▸ earlier i below
      · exact Nat.add_comm index 2 ▸ free
  · next free => exact .free (by simpa using free)

/-! ## New names -/

theorem map_fst_shortForms (limit : Nat) (taken names : List String) :
    (shortForms limit taken names).map Prod.fst = names := by
  induction names generalizing taken with
  | nil => rfl
  | cons name names ih => rw [shortForms, List.map_cons, ih]

/-- Short forms are free, and different from each other. -/
theorem nodup_shortForms (limit : Nat) (taken names : List String) :
    ((shortForms limit taken names).map Prod.snd).Nodup ∧
      ∀ entry ∈ shortForms limit taken names, entry.2 ∉ taken := by
  induction names generalizing taken with
  | nil => exact ⟨List.nodup_nil, fun _ mem => absurd mem List.not_mem_nil⟩
  | cons name names ih =>
      obtain ⟨nodup, free⟩ := ih (shorten limit taken name :: taken)
      refine ⟨List.nodup_cons.mpr ⟨fun mem => ?_, nodup⟩, fun entry mem => ?_⟩
      · obtain ⟨entry, later, eq⟩ := List.mem_map.mp mem
        exact free entry later (eq ▸ List.mem_cons_self)
      · obtain rfl | later := List.mem_cons.mp mem
        · exact (tries_shorten limit taken name).not_mem
        · exact fun isTaken => free entry later (List.mem_cons_of_mem _ isTaken)

/-- The name that a mode gets. -/
def newName (limit : Nat) (names : List String) (name : String) : String :=
  ((newNames limit names).find? name).getD name

section

variable {names : List String}

theorem mem_keys_newNames :
    name ∈ (newNames limit names).keys ↔ name ∈ names ∧ limit < name.length := by
  rw [newNames, NameMap.mem_keys_ofList, map_fst_shortForms, List.mem_filter]
  simp

/-- Names that are short enough stay. -/
theorem newName_of_length_le (fits : name.length ≤ limit) : newName limit names name = name := by
  have absent : (newNames limit names).find? name = none :=
    NameMap.find?_eq_none_iff.mpr fun mem => Nat.not_lt.mpr fits (mem_keys_newNames.mp mem).2
  rw [newName, absent, Option.getD_none]

/-- If no name is too long all stay. -/
theorem newName_of_isEmpty (none : (newNames limit names).entries.isEmpty = true) :
    newName limit names name = name := by
  rw [newName, NameMap.find?, List.isEmpty_iff.mp none]
  rfl

/-- A long name gets its short form. -/
theorem mem_newNames (mem : name ∈ names) (long : limit < name.length) :
    (name, newName limit names name) ∈ (newNames limit names).entries := by
  obtain ⟨short, found⟩ := NameMap.mem_keys_iff.mp (mem_keys_newNames.mpr ⟨mem, long⟩)
  rw [newName, found, Option.getD_some]
  exact NameMap.find?_eq_some_iff.mp found

theorem newName_injOn (limit : Nat) (names : List String) :
    Set.InjOn (newName limit names) {name | name ∈ names} := by
  obtain ⟨nodup, free⟩ := nodup_shortForms limit
    (names.filter fun name => decide (name.length ≤ limit))
    (names.filter fun name => !decide (name.length ≤ limit))
  have form {name : String} (mem : name ∈ names) (long : limit < name.length) :=
    NameMap.mem_of_mem_ofList (mem_newNames mem long)
  have apart {name other : String} (mem : name ∈ names) (fits : name.length ≤ limit)
      (mem' : other ∈ names) (long : limit < other.length) : newName limit names other ≠ name := by
    intro eq
    exact free _ (form mem' long) (List.mem_filter.mpr (by simp [eq, mem, fits]))
  intro name mem other mem' eq
  obtain fits | long := Nat.lt_or_ge limit name.length |>.symm <;>
    obtain fits' | long' := Nat.lt_or_ge limit other.length |>.symm
  · rwa [newName_of_length_le fits, newName_of_length_le fits'] at eq
  · rw [newName_of_length_le fits] at eq
    exact absurd eq.symm (apart mem fits mem' long')
  · rw [newName_of_length_le fits'] at eq
    exact absurd eq (apart mem' fits' mem long)
  · exact congrArg Prod.fst (List.inj_on_of_nodup_map nodup (form mem long) (form mem' long') eq)

end

end ModeName

/-! ## Models up to the names of modes -/

variable {α : Type} {f : String → String}

/-- Two automata that differ in the names of their modes: modes and transitions correspond in
order. -/
structure Automaton.ModesRenamed (f : String → String) (a a' : Automaton α) : Prop where
  scope : a'.toScope = a.toScope
  modes : a'.modes.entries =
    a.modes.entries.map fun entry => (f entry.1, { entry.2 with name := f entry.2.name })
  transitions : a'.transitions =
    a.transitions.map fun t => { t with source := f t.source, target := f t.target }

/-- Two flat models that differ in the names of their modes. -/
structure Model.ModesRenamed (f : String → String) (m m' : Model α) : Prop where
  automata : ∃ a a', m.automaton = .ok a ∧ m'.automaton = .ok a' ∧ a.ModesRenamed f a'
  init : m'.init.entries = m.init.entries.map fun entry => (f entry.1, entry.2)
  forbidden : m'.forbidden.entries = m.forbidden.entries.map fun entry => (f entry.1, entry.2)
  settings : m'.settings = m.settings

section

variable {a : Automaton α}

theorem Automaton.modesRenamed_renameModes
    (stored : ∀ entry ∈ a.modes.entries, entry.2.name = entry.1)
    (injective : Set.InjOn f {name | name ∈ a.modes.keys}) :
    a.ModesRenamed f (a.renameModes f) where
  scope := rfl
  modes := by
    have nodup : (a.modes.keys.map f).Nodup :=
      a.modes.keys_nodup.map_on fun name mem other mem' eq => injective mem mem' eq
    rw [renameModes, NameMap.entries_ofList]
    · exact List.map_congr_left fun entry mem => by rw [stored entry mem]
    · rw [NameMap.keys, List.map_map] at nodup
      rwa [List.map_map]
  transitions := rfl

/-- Where every mode keeps its name nothing changes. -/
theorem Automaton.modesRenamed_refl (a : Automaton α) (same : ∀ name, f name = name) :
    a.ModesRenamed f a where
  scope := rfl
  modes := by simp [same]
  transitions := by simp [same]

variable {m : Model α}

theorem Model.modesRenamed_refl (flat : m.automaton = .ok a) (same : ∀ name, f name = name) :
    m.ModesRenamed f m where
  automata := ⟨a, a, flat, flat, a.modesRenamed_refl same⟩
  init := by simp [same]
  forbidden := by simp [same]
  settings := rfl

/-- At the root, the names under which regions are stored are names of modes, so regions stay apart
if the modes do. -/
theorem Model.modesRenamed_renameModes [Scalar α] (sound : m.Sound) (flat : m.automaton = .ok a)
    (place : a.path = .root) (injective : Set.InjOn f {name | name ∈ a.modes.keys}) :
    m.ModesRenamed f { m.withAutomaton (a.renameModes f) with
      init := m.init.mapKeys f
      forbidden := m.forbidden.mapKeys f } := by
  have root := automaton_eq_ok_iff.mp flat
  have regions {regions : NameMap (Expr α)}
      (kept : ∀ entry ∈ regions.entries, m.root.KeepsRegion entry) :
      (regions.mapKeys f).entries = regions.entries.map fun entry => (f entry.1, entry.2) := by
    refine NameMap.entries_mapKeys (injective.mono fun name mem => ?_)
    obtain ⟨entry, given, rfl⟩ := List.mem_map.mp mem
    exact Component.mem_keys_of_mem_modeNames place (root ▸ (kept entry given).mode)
  exact {
    automata := ⟨a, a.renameModes f, flat, rfl,
      Automaton.modesRenamed_renameModes (sound.automaton flat).stored injective⟩
    init := regions sound.init
    forbidden := regions sound.forbidden
    settings := rfl }

end

/-! ## Short names -/

section

variable {m m' : Model α} {a : Automaton α} {limit : Nat} {pass : String}

/-- A model stays as it is if no name is too long; otherwise its modes and regions are renamed. -/
theorem Model.shortenModeNames_eq_ok_iff :
    m.shortenModeNames limit pass = .ok m' ↔ minNameLimit ≤ limit ∧ ∃ a, m.automaton = .ok a ∧
      m' = if (ModeName.newNames limit a.modes.keys).entries.isEmpty then m else
        { m.withAutomaton (a.renameModes (ModeName.newName limit a.modes.keys)) with
          init := m.init.mapKeys (ModeName.newName limit a.modes.keys)
          forbidden := m.forbidden.mapKeys (ModeName.newName limit a.modes.keys) } := by
  rw [shortenModeNames]
  split
  · next small => simp [Nat.not_le.mpr small]
  · next large =>
      have accepted := Nat.not_lt.mp large
      rw [and_iff_right accepted]
      refine bind_eq_ok_iff.trans (exists_congr fun a => and_congr_right fun _ => ?_)
      dsimp only
      split <;> exact pure_eq_ok_iff.trans eq_comm

/-- Shortening the names of modes terminates, and it is an isomorphism. The search for a short form
ends whatever names are taken; and for a valid flat model at the root path and a limit of at least
four characters it succeeds, and there is a renaming that keeps the modes apart and leaves names
within the limit alone, such that the outcome is the model with the modes renamed, in their own
names, as endpoints of transitions and as names of regions, and with nothing else changed. -/
theorem Model.shortenModeNames_renames [Scalar α] (valid : m.Valid) (flat : m.automaton = .ok a)
    (place : m.root.path = .root) (accepted : 4 ≤ limit) (pass : String) :
    (∀ taken name, ModeName.Tries limit taken name (ModeName.cut limit name) 2
      (ModeName.shorten limit taken name)) ∧
    ∃ (f : String → String) (m' : Model α), m.shortenModeNames limit pass = .ok m' ∧
      Set.InjOn f {name | name ∈ a.modes.keys} ∧ (∀ name, name.length ≤ limit → f name = name) ∧
      m.ModesRenamed f m' := by
  have atRoot := (path_of_automaton flat).trans place
  have injective := ModeName.newName_injOn limit a.modes.keys
  refine ⟨ModeName.tries_shorten limit, ModeName.newName limit a.modes.keys, _,
    shortenModeNames_eq_ok_iff.mpr ⟨accepted, a, flat, rfl⟩, injective,
    fun name fits => ModeName.newName_of_length_le fits, ?_⟩
  split
  · next none => exact m.modesRenamed_refl flat fun name => ModeName.newName_of_isEmpty none
  · exact modesRenamed_renameModes (valid_iff.mp valid) flat atRoot injective

end

/-- A heater with two modes whose names begin alike, and one whose name is what they begin with. -/
def heater : Automaton (Extended ℚ) where
  vars := .ofList ["temperature"]
  modes := .ofList
    [("heating_up_fast", { name := "heating_up_fast" }),
     ("heating_up_slowly", { name := "heating_up_slowly" }),
     ("heating", { name := "heating" })]
  transitions :=
    [{ source := "heating", target := "heating_up_slowly" },
     { source := "heating_up_slowly", target := "heating_up_fast" }]

def heaterModel : Model (Extended ℚ) where
  root := .flat heater
  init := .ofList [("heating", .bool true)]
  forbidden := .ofList [("heating_up_fast", .gt (.var "temperature") (.num 90))]
  settings := .initial

/-- Cut to seven characters, the names would be the same, so two modes get numbers. -/
theorem heater_shortenModeNames :
    heaterModel.Valid ∧ heaterModel.root.path = .root ∧ ∃ f m',
      heaterModel.shortenModeNames 7 "shorten_mode_names" = .ok m' ∧
      Set.InjOn f {name | name ∈ heater.modes.keys} ∧ f "heating" = "heating" ∧
      heaterModel.ModesRenamed f m' ∧
      m'.root.modeNames = ["heati_2", "heati_3", "heating"] := by
  have valid : heaterModel.Valid := by
    rw [Model.Valid]
    decide +kernel
  obtain ⟨_, f, m', success, injective, stays, renamed⟩ :=
    Model.shortenModeNames_renames (a := heater) valid rfl rfl (by decide : 4 ≤ 7)
      "shorten_mode_names"
  obtain ⟨_, success', names⟩ : ∃ m', heaterModel.shortenModeNames 7 "shorten_mode_names" = .ok m' ∧
      decide (m'.root.modeNames = ["heati_2", "heati_3", "heating"]) = true :=
    exists_ok_of_any (by decide +kernel)
  obtain rfl := Except.ok.inj (success.symm.trans success')
  exact ⟨valid, rfl, f, m', success, injective, stays "heating" (by decide), renamed,
    of_decide_eq_true names⟩

end HybridAutomata
