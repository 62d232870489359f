import HybridAutomata.Continuization.TimeTriggered
import HybridAutomata.Proofs.Automaton.Formulas
import HybridAutomata.Proofs.Continuization.Integrity
import HybridAutomata.Proofs.Expr.Substitution

/-!
# Laws in place of the sampled variable

At the end of a time-triggered continuization, the law of a window takes the place of the sampled
variable in the mode of the window and on the ways out of it. That changes neither modes nor ends of
transitions, and it keeps the rules if the laws mention declared names. The law of a mode is found
again in each of its windows, because a window mode belongs to one mode only.
-/

namespace HybridAutomata

variable {α : Type}

/-! ## In a mode and in a transition -/

theorem Scope.Closes.substitute {s : Scope α} {e law : Expr α} {sampled : String}
    (h : s.Closes e) (hlaw : s.Closes law) : s.Closes (e.substitute sampled law) := by
  intro name mem
  obtain ⟨mem, _⟩ | ⟨_, mem⟩ := Expr.mem_names_substitute.mp mem
  · exact h name mem
  · exact hlaw name mem

namespace Mode

variable {m : Mode α} {sampled y : String} {law : Expr α} {law? : Option (Expr α)}

/-- The mode with the law, if there is one, in place of the sampled variable. -/
def inlined (m : Mode α) (sampled : String) : Option (Expr α) → Mode α
  | some law => m.inlineLaw sampled law
  | none => m

@[simp] theorem inlined_name : (m.inlined sampled law?).name = m.name := by
  cases law? <;> rfl

theorem flowOf?_inlineLaw : (m.inlineLaw sampled law).flowOf? y =
    (m.flowOf? y).map fun rate =>
      if y = sampled then rate else rate.mapExpr (·.substitute sampled law) :=
  flowOf?_mapFlow _ m y

end Mode

/-- The transition with the law, if there is one, in place of the sampled variable. -/
def Transition.inlined (t : Transition α) (sampled : String) : Option (Expr α) → Transition α
  | some law => t.mapExprs (·.substitute sampled law)
  | none => t

section

variable {t : Transition α} {sampled : String} {law? : Option (Expr α)}

@[simp] theorem Transition.inlined_source : (t.inlined sampled law?).source = t.source := by
  cases law? <;> rfl

@[simp] theorem Transition.inlined_target : (t.inlined sampled law?).target = t.target := by
  cases law? <;> rfl

@[simp] theorem Transition.keys_inlined :
    (t.inlined sampled law?).reset.keys = t.reset.keys := by
  cases law? with
  | none => rfl
  | some law => exact NameMap.keys_map _ _

theorem Scope.KeepsMode.inlined {s : Scope α} {m : Mode α} (h : s.KeepsMode m)
    (closed : ∀ law, law? = some law → s.Closes law) : s.KeepsMode (m.inlined sampled law?) := by
  cases law? with
  | none => exact h
  | some law =>
      obtain ⟨invariant, rates⟩ := Scope.keepsMode_iff.mp h
      refine Scope.keepsMode_iff.mpr ⟨invariant.substitute (closed law rfl), ?_⟩
      intro y rate found
      rw [Mode.inlined, Mode.flowOf?_inlineLaw, Option.map_eq_some_iff] at found
      obtain ⟨original, found, rfl⟩ := found
      have kept := rates y original found
      refine ⟨kept.target, ?_⟩
      dsimp only
      split
      · exact kept.value
      · exact kept.value.substitute (closed law rfl)

theorem Automaton.KeepsTransition.inlined {a : Automaton α} (h : a.KeepsTransition t)
    (closed : ∀ law, law? = some law → a.Closes law) :
    a.KeepsTransition (t.inlined sampled law?) := by
  cases law? with
  | none => exact h
  | some law =>
      refine ⟨h.source, h.target, h.guard.substitute (closed law rfl), ?_⟩
      intro entry mem
      obtain ⟨original, given, rfl⟩ := List.mem_map.mp mem
      have kept := h.resets original given
      exact ⟨kept.target, kept.value.substitute (closed law rfl)⟩

end

namespace Sampling

variable {s : Sampling α} {laws : NameMap (Expr α)} {a : Automaton α}

theorem mode?_inlineLaws (name : String) : (s.inlineLaws laws a).mode? name =
    (a.mode? name).map (·.inlined s.sampled (laws.find? name)) := by
  refine (NameMap.find?_mapWithKey _ a.modes name).trans ?_
  cases laws.find? name <;> rfl

theorem transitions_inlineLaws : (s.inlineLaws laws a).transitions =
    a.transitions.map fun t => t.inlined s.sampled (laws.find? t.source) := by
  refine List.map_congr_left fun t _ => ?_
  cases laws.find? t.source <;> rfl

theorem keys_inlineLaws : (s.inlineLaws laws a).modes.keys = a.modes.keys :=
  NameMap.keys_mapWithKey _ _

/-- Laws that mention declared names only keep the rules for modes and transitions. -/
theorem wellFormed_inlineLaws (h : a.WellFormed)
    (closed : ∀ name law, laws.find? name = some law → a.Closes law) :
    (s.inlineLaws laws a).WellFormed where
  stored := by
    rintro ⟨key, m⟩ mem
    have found := NameMap.find?_eq_some_iff.mpr mem
    rw [← Automaton.mode?, mode?_inlineLaws, Option.map_eq_some_iff] at found
    obtain ⟨original, found, rfl⟩ := found
    rw [Mode.inlined_name]
    exact h.stored _ (NameMap.find?_eq_some_iff.mp found)
  modes := by
    intro m mem
    obtain ⟨key, found⟩ := Automaton.mem_values_iff.mp mem
    rw [mode?_inlineLaws, Option.map_eq_some_iff] at found
    obtain ⟨original, found, rfl⟩ := found
    exact (h.keepsMode found).inlined (closed key)
  transitions := by
    intro t mem
    rw [transitions_inlineLaws] at mem
    obtain ⟨original, before, rfl⟩ := List.mem_map.mp mem
    obtain ⟨source, target, guard, resets⟩ :
        a.KeepsTransition (original.inlined s.sampled (laws.find? original.source)) :=
      (h.transitions original before).inlined (closed original.source)
    refine ⟨?_, ?_, guard, resets⟩
    · rw [keys_inlineLaws]
      exact source
    · rw [keys_inlineLaws]
      exact target

/-! ## The law of a window -/

section

variable {report : List (WindowRange α)}

theorem exists_of_find?_lawOfWindow {name : String} {law : Expr α}
    (h : (s.lawOfWindow report).find? name = some law) :
    ∃ r ∈ report, r.windowMode = name ∧ s.laws.find? r.mode = some law := by
  have mem := NameMap.mem_of_mem_ofList (NameMap.find?_eq_some_iff.mp h)
  obtain ⟨r, reported, found⟩ := List.mem_filterMap.mp mem
  obtain ⟨law', found, eq⟩ := Option.map_eq_some_iff.mp found
  cases eq
  exact ⟨r, reported, rfl, found⟩

/-- Where a window mode belongs to one mode only, its law is that of the mode. -/
theorem find?_lawOfWindow
    (single : ∀ r ∈ report, ∀ r' ∈ report, r.windowMode = r'.windowMode → r.mode = r'.mode)
    {r : WindowRange α} (mem : r ∈ report) :
    (s.lawOfWindow report).find? r.windowMode = s.laws.find? r.mode := by
  ext law
  constructor
  · intro found
    obtain ⟨r', mem', same, found⟩ := exists_of_find?_lawOfWindow found
    exact single r' mem' r mem same ▸ found
  · intro found
    have key : r.windowMode ∈ (s.lawOfWindow report).keys :=
      NameMap.mem_keys_ofList.mpr (List.mem_map.mpr ⟨(r.windowMode, law),
        List.mem_filterMap.mpr ⟨r, mem, by rw [found]; rfl⟩, rfl⟩)
    obtain ⟨law', stored⟩ := NameMap.mem_keys_iff.mp key
    obtain ⟨r', mem', same, found'⟩ := exists_of_find?_lawOfWindow stored
    rw [single r' mem' r mem same, found] at found'
    cases found'
    exact stored

end

end Sampling

end HybridAutomata
