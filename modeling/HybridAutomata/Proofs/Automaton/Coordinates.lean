import HybridAutomata.Proofs.Automaton.Rules

/-!
# Coordinates

A state lists one value per variable, in the order of declaration. The value of a variable is the
one at its position, a declared name has a value in every state that is long enough, and a further
variable at the end leaves the others where they are.
-/

namespace HybridAutomata

namespace Scope

open valuation (coordinate)

section

variable {β : Type} {names : List String} {values : List β} {name : String}

theorem coordinate_ne_none (mem : name ∈ names) (enough : names.length ≤ values.length) :
    coordinate names values name ≠ none := by
  induction names generalizing values with
  | nil => cases mem
  | cons first rest ih =>
      cases values with
      | nil => simp at enough
      | cons value values =>
          rw [coordinate]
          split
          · exact Option.some_ne_none value
          · next other =>
              have later : name ∈ rest :=
                (List.mem_cons.mp mem).resolve_left fun same => other (by simp [same])
              exact ih later (Nat.le_of_succ_le_succ enough)

theorem coordinate_eq_none (absent : name ∉ names) : coordinate names values name = none := by
  induction names generalizing values with
  | nil => rfl
  | cons first rest ih =>
      obtain ⟨other, later⟩ := not_or.mp (mt List.mem_cons.mpr absent)
      cases values with
      | nil => rfl
      | cons value values => rw [coordinate, if_neg (by simpa using Ne.symm other), ih later]

theorem mem_of_coordinate {value : β} (found : coordinate names values name = some value) :
    value ∈ values := by
  induction names generalizing values with
  | nil => cases values <;> cases found
  | cons first rest ih =>
      cases values with
      | nil => cases found
      | cons other values =>
          rw [coordinate] at found
          split at found
          · exact Option.some.inj found ▸ List.mem_cons_self
          · exact List.mem_cons_of_mem _ (ih found)

/-- Coordinates of lists that are related item by item are related. -/
theorem coordinate_rel {γ : Type} {R : β → γ → Prop} {others : List γ}
    (h : List.Forall₂ R values others) (names : List String) (name : String) :
    Option.Rel R (coordinate names values name) (coordinate names others name) := by
  induction h generalizing names with
  | nil => cases names <;> exact .none
  | cons first _ ih =>
      cases names with
      | nil => exact .none
      | cons other names =>
          rw [coordinate, coordinate]
          split
          · exact .some first
          · exact ih names

/-- Variables are not repeated, so the value of one is the value at its position. -/
theorem coordinate_eq_getElem? (nodup : names.Nodup) {i : Nat} (position : names[i]? = some name) :
    coordinate names values name = values[i]? := by
  induction names generalizing values i with
  | nil => simp at position
  | cons first rest ih =>
      obtain ⟨absent, nodup⟩ := List.nodup_cons.mp nodup
      cases values with
      | nil => rfl
      | cons value values =>
          rw [coordinate]
          cases i with
          | zero =>
              obtain rfl : first = name := by simpa using position
              simp
          | succ i =>
              rw [List.getElem?_cons_succ] at position
              have other : first ≠ name := by
                rintro rfl
                exact absent (List.mem_of_getElem? position)
              simp [other, ih nodup position]

/-- The value of another variable does not depend on a variable that comes last. -/
theorem coordinate_append_of_ne {last : String} (other : name ≠ last) :
    coordinate (names ++ [last]) values name =
      coordinate names (values.take names.length) name := by
  induction names generalizing values with
  | nil => cases values <;> simp [coordinate, other.symm]
  | cons first rest ih =>
      cases values with
      | nil => rfl
      | cons value values =>
          rw [List.cons_append, coordinate, List.length_cons, List.take_succ_cons, coordinate, ih]

end

section

variable {α : Type} {s : Scope α} {name : String}

/-- In a state with a coordinate per variable, every declared name has a value. -/
theorem valuation_ne_none [Scalar α] {state : List α} (mem : name ∈ s.declared)
    (dimension : state.length = s.vars.size) : s.valuation state name ≠ none := by
  rw [valuation]
  split
  · exact Option.some_ne_none _
  · next absent =>
      obtain isVariable | isConstant := List.mem_append.mp mem
      · exact absurd absent (coordinate_ne_none isVariable (Nat.le_of_eq dimension.symm))
      · obtain ⟨interval, found⟩ := NameMap.mem_keys_iff.mp isConstant
        simp [found]

/-- A name that is no variable has the same value in every state. -/
theorem valuation_of_not_mem [Scalar α] (absent : name ∉ s.vars.toList) (state : List α) :
    s.valuation state name = (s.constants.find? name).map Interval.middle := by
  rw [valuation, coordinate_eq_none absent]

/-- The value of a variable is the coordinate at its position. A constant of its name would take
over in states that are too short. -/
theorem valuation_eq_getElem? [Scalar α] {state : List α} {i : Nat}
    (position : s.vars.toList[i]? = some name) (noConstant : name ∉ s.constants.keys) :
    s.valuation state name = state[i]? := by
  rw [valuation, coordinate_eq_getElem? s.vars.nodup position]
  cases state[i]? with
  | some value => rfl
  | none => rw [NameMap.find?_eq_none_iff.mpr noConstant, Option.map_none]

/-- In a box with an interval per variable, every declared name has an interval. -/
theorem ranging_ne_none {box : List (Interval α)} (mem : name ∈ s.declared)
    (dimension : box.length = s.vars.size) : s.ranging box name ≠ none := by
  rw [ranging]
  split
  · exact Option.some_ne_none _
  · next absent =>
      obtain isVariable | isConstant := List.mem_append.mp mem
      · exact absurd absent (coordinate_ne_none isVariable (Nat.le_of_eq dimension.symm))
      · obtain ⟨interval, found⟩ := NameMap.mem_keys_iff.mp isConstant
        simp [found]

end

end Scope

end HybridAutomata
