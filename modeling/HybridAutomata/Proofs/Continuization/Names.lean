import Mathlib.Data.List.Nodup
import HybridAutomata.Continuization.Windows
import HybridAutomata.Proofs.Names

/-!
# Names of window modes

A continuized mode gives way to a window mode and two error modes per window, under names made from
its own. Names of modes are arbitrary, so two made names could be equal, or equal to the name of
another mode. The only check is that a made name is no mode of the automaton unless it is the mode
itself. It suffices: made names end in a number or in a word, and a name that is equal to a made one
without being made belongs to a mode and is refused by the check.
-/

namespace HybridAutomata

namespace Continuization

/-- The names made for one window of a mode. -/
def windowNames (mode : String) (index : Nat) : List String :=
  [windowName mode index, lowerErrorName (windowName mode index),
    upperErrorName (windowName mode index)]

/-- The names that stand for a mode with a number of windows. -/
def madeNames (count : Nat) (mode : String) : List String :=
  (List.range count).flatMap (windowNames mode)

/-- The names of all modes when some modes have given way to their windows. -/
def namesAfter (count : Nat) (continuized : String → Bool) (modes : List String) : List String :=
  modes.flatMap fun mode => if continuized mode then madeNames count mode else [mode]

/-- No name made for a mode is another mode. -/
def Fresh (modes : List String) (count : Nat) (mode : String) : Prop :=
  ∀ index < count, ∀ name ∈ windowNames mode index, name ∈ modes → name = mode

/-! ## Comparing made names -/

theorem mem_windowNames {name mode : String} {index : Nat} :
    name ∈ windowNames mode index ↔ name = windowName mode index ∨
      name = lowerErrorName (windowName mode index) ∨
      name = upperErrorName (windowName mode index) := by
  simp [windowNames]

theorem lowerErrorName_inj {w w' : String} (h : lowerErrorName w = lowerErrorName w') : w = w' :=
  (String.append_left_inj _).mp h

theorem upperErrorName_inj {w w' : String} (h : upperErrorName w = upperErrorName w') : w = w' :=
  (String.append_left_inj _).mp h

theorem lowerErrorName_ne_upperErrorName (w w' : String) :
    lowerErrorName w ≠ upperErrorName w' := by
  intro h
  have lists := congrArg String.toList h
  rw [lowerErrorName, upperErrorName, String.toList_append, String.toList_append] at lists
  have endings := List.append_inj_right' lists (by simp)
  simp at endings

/-- A numbered name ends in a digit. -/
theorem numbered_ne_append {name word ending : String} {index : Nat} (last : Char) (h : 0 < index)
    (hlast : ending.toList.getLast? = some last) (hdigit : last.isDigit = false) :
    numbered name index ≠ word ++ ending := by
  intro eq
  obtain ⟨init, digit, split⟩ := (List.eq_nil_or_concat _).resolve_left
    (Nat.toDigits_ne_nil (n := index + 1) (b := 10))
  have lists := congrArg (List.getLast? ∘ String.toList) eq
  simp only [Function.comp, toList_numbered name h, String.toList_append, split,
    List.concat_eq_append, ← List.cons_append, ← List.append_assoc, List.getLast?_append, hlast,
    List.getLast?_singleton, Option.some_or, Option.some.injEq] at lists
  have isDigit := Nat.isDigit_of_mem_toDigits (c := digit) (b := 10) (n := index + 1)
    (by decide) (by decide) (by simp [split])
  simp [lists, hdigit] at isDigit

theorem numbered_ne_lowerErrorName {name w : String} {index : Nat} (h : 0 < index) :
    numbered name index ≠ lowerErrorName w :=
  numbered_ne_append 'r' h (by simp) (by decide)

theorem numbered_ne_upperErrorName {name w : String} {index : Nat} (h : 0 < index) :
    numbered name index ≠ upperErrorName w :=
  numbered_ne_append 'r' h (by simp) (by decide)

/-- Something is put behind a name to make an error name. -/
theorem windowName_append_ne_self (mode ending : String) (index : Nat)
    (h : 0 < ending.toList.length) : windowName mode index ++ ending ≠ mode := by
  intro eq
  have lengths := congrArg (List.length ∘ String.toList) eq
  simp only [Function.comp, String.toList_append, List.length_append] at lengths
  obtain rfl | positive := Nat.eq_zero_or_pos index
  · simp only [windowName, numbered_zero] at lengths
    omega
  · simp only [windowName, toList_numbered mode positive, List.length_append,
      List.length_cons] at lengths
    omega

/-! ## Names in an automaton -/

/-- A mode found among the names made for one is that mode, in its first window. -/
theorem Fresh.eq_of_mem {modes : List String} {count index : Nat} {mode name : String}
    (fresh : Fresh modes count mode) (hindex : index < count) (made : name ∈ windowNames mode index)
    (mem : name ∈ modes) : name = mode ∧ index = 0 := by
  have same := fresh index hindex name made mem
  refine ⟨same, Nat.eq_zero_of_not_pos ?_⟩
  intro positive
  obtain rfl | rfl | rfl := mem_windowNames.mp made
  · exact numbered_ne_self mode positive same
  · exact windowName_append_ne_self mode _ index (by simp) same
  · exact windowName_append_ne_self mode _ index (by simp) same

section

variable {modes : List String} {count i j : Nat} {mode mode' name : String}

theorem windowName_inj (hmode : mode ∈ modes) (hmode' : mode' ∈ modes)
    (fresh : Fresh modes count mode) (fresh' : Fresh modes count mode') (hi : i < count)
    (hj : j < count) (h : windowName mode i = windowName mode' j) : mode = mode' ∧ i = j := by
  obtain rfl | hi' := Nat.eq_zero_or_pos i
  · have kept : mode ∈ windowNames mode' j := mem_windowNames.mpr (.inl h)
    obtain ⟨same, rfl⟩ := fresh'.eq_of_mem hj kept hmode
    exact ⟨same, rfl⟩
  · obtain rfl | hj' := Nat.eq_zero_or_pos j
    · have kept : mode' ∈ windowNames mode i := mem_windowNames.mpr (.inl h.symm)
      obtain ⟨same, rfl⟩ := fresh.eq_of_mem hi kept hmode'
      exact ⟨same.symm, rfl⟩
    · exact numbered_inj hi' hj' h

/-- Names made for different modes or windows differ. -/
theorem windowNames_disjoint (hmode : mode ∈ modes) (hmode' : mode' ∈ modes)
    (fresh : Fresh modes count mode) (fresh' : Fresh modes count mode') (hi : i < count)
    (hj : j < count) (made : name ∈ windowNames mode i) (made' : name ∈ windowNames mode' j) :
    mode = mode' ∧ i = j := by
  by_cases taken : name ∈ modes
  · obtain ⟨rfl, rfl⟩ := fresh.eq_of_mem hi made taken
    obtain ⟨rfl, rfl⟩ := fresh'.eq_of_mem hj made' taken
    exact ⟨rfl, rfl⟩
  -- A name that is not taken is numbered or ends in a word.
  have positive {mode : String} {i : Nat} (hmode : mode ∈ modes) (h : name = windowName mode i) :
      0 < i := by
    refine Nat.pos_of_ne_zero ?_
    rintro rfl
    exact taken (h ▸ hmode)
  have windows {w : String} (h : w = windowName mode i) (h' : w = windowName mode' j) :
      mode = mode' ∧ i = j :=
    windowName_inj hmode hmode' fresh fresh' hi hj (h.symm.trans h')
  rcases mem_windowNames.mp made with h | h | h <;>
    obtain h' | h' | h' := mem_windowNames.mp made'
  · exact windows h h'
  · exact absurd (h.symm.trans h') (numbered_ne_lowerErrorName (positive hmode h))
  · exact absurd (h.symm.trans h') (numbered_ne_upperErrorName (positive hmode h))
  · exact absurd (h'.symm.trans h) (numbered_ne_lowerErrorName (positive hmode' h'))
  · exact windows rfl (lowerErrorName_inj (h.symm.trans h'))
  · exact absurd (h.symm.trans h') (lowerErrorName_ne_upperErrorName _ _)
  · exact absurd (h'.symm.trans h) (numbered_ne_upperErrorName (positive hmode' h'))
  · exact absurd (h'.symm.trans h) (lowerErrorName_ne_upperErrorName _ _)
  · exact windows rfl (upperErrorName_inj (h.symm.trans h'))

end

theorem windowNames_nodup (mode : String) (index : Nat) : (windowNames mode index).Nodup := by
  have window (ending : String) (h : 0 < ending.toList.length) :
      windowName mode index ≠ windowName mode index ++ ending := by
    intro eq
    exact windowName_append_ne_self (windowName mode index) ending 0 h eq.symm
  simp only [windowNames, List.nodup_cons, List.mem_cons, List.not_mem_nil, or_false, not_or,
    not_false_eq_true, List.nodup_nil, and_true]
  exact ⟨⟨window _ (by simp), window _ (by simp)⟩, lowerErrorName_ne_upperErrorName _ _⟩

theorem mem_madeNames {count : Nat} {name mode : String} :
    name ∈ madeNames count mode ↔ ∃ index < count, name ∈ windowNames mode index := by
  simp [madeNames]

/-- The names of one mode's windows are pairwise distinct. -/
theorem madeNames_nodup {modes : List String} {count : Nat} {mode : String}
    (hmode : mode ∈ modes) (fresh : Fresh modes count mode) : (madeNames count mode).Nodup := by
  refine List.nodup_flatMap.mpr ⟨fun index _ => windowNames_nodup mode index, ?_⟩
  refine List.nodup_range.imp_of_mem ?_
  intro i j hi hj ne name made made'
  rw [List.mem_range] at hi hj
  apply ne
  exact (windowNames_disjoint hmode hmode fresh fresh hi hj made made').2

/-- If the made names are fresh, no two modes get the same name. -/
theorem namesAfter_nodup {modes : List String} {count : Nat} {continuized : String → Bool}
    (nodup : modes.Nodup)
    (fresh : ∀ mode ∈ modes, continuized mode = true → Fresh modes count mode) :
    (namesAfter count continuized modes).Nodup := by
  rw [namesAfter, List.nodup_flatMap]
  constructor
  · intro mode hmode
    by_cases h : continuized mode = true
    · simpa [h] using madeNames_nodup hmode (fresh mode hmode h)
    · simp [h]
  · refine nodup.imp_of_mem ?_
    intro mode mode' hmode hmode' ne name mem mem'
    apply ne
    by_cases h : continuized mode = true <;> by_cases h' : continuized mode' = true
    · simp only [h, h', ↓reduceIte, mem_madeNames] at mem mem'
      obtain ⟨i, hi, made⟩ := mem
      obtain ⟨j, hj, made'⟩ := mem'
      exact (windowNames_disjoint hmode hmode' (fresh mode hmode h) (fresh mode' hmode' h') hi hj
        made made').1
    · simp only [h, h', ↓reduceIte, mem_madeNames, List.mem_singleton, Bool.false_eq_true]
        at mem mem'
      obtain ⟨i, hi, made⟩ := mem
      subst mem'
      exact ((fresh mode hmode h).eq_of_mem hi made hmode').1.symm
    · simp only [h, h', ↓reduceIte, mem_madeNames, List.mem_singleton, Bool.false_eq_true]
        at mem mem'
      obtain ⟨j, hj, made'⟩ := mem'
      subst mem
      exact ((fresh mode' hmode' h').eq_of_mem hj made' hmode).1
    · simp only [h, h', ↓reduceIte, List.mem_singleton, Bool.false_eq_true] at mem mem'
      exact mem.symm.trans mem'

end Continuization

end HybridAutomata
