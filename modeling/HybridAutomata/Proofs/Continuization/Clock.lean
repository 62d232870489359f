import HybridAutomata.Continuization.Clock
import HybridAutomata.Proofs.Names
import HybridAutomata.Proofs.Success

/-!
# The clock is in place

Putting the clock in place changes a model in at most one flow entry per mode and one conjunct per
initial region. Afterwards the clock has the rate one, exactly, in every mode in which time passes,
whether it was found or introduced.
-/

namespace HybridAutomata

open Success

variable {α : Type} [Scalar α]

/-- The number one: as it is written for an introduced clock, or equal to it in a clock that was
found. -/
def IsOne (value : α) : Prop := value = 1 ∨ (value == 1) = true

namespace Mode

/-- The mode with a clock in place. -/
def withClock (source : ClockSource) (m : Mode α) : Mode α :=
  match source with
  | .existing _ => m
  | .introduced name => if m.hasFlow then m.setFlow name (.exact (.num 1)) else m

@[simp] theorem withClock_name (source : ClockSource) (m : Mode α) :
    (m.withClock source).name = m.name := by
  unfold withClock
  split
  · rfl
  · split <;> rfl

@[simp] theorem withClock_urgent (source : ClockSource) (m : Mode α) :
    (m.withClock source).urgent = m.urgent := by
  unfold withClock
  split
  · rfl
  · split <;> rfl

@[simp] theorem withClock_invariant (source : ClockSource) (m : Mode α) :
    (m.withClock source).invariant = m.invariant := by
  unfold withClock
  split
  · rfl
  · split <;> rfl

@[simp] theorem withClock_hasFlow (source : ClockSource) (m : Mode α) :
    (m.withClock source).hasFlow = m.hasFlow := by
  unfold withClock
  split
  · rfl
  · split
    · next h => rw [h]; rfl
    · rfl

omit [Scalar α] in
theorem flowOf?_setFlow (m : Mode α) (name key : String) (rate : Perturbed α) :
    (m.setFlow name rate).flowOf? key = if key = name then some rate else m.flowOf? key := by
  obtain ⟨_, flow, _, _⟩ := m
  change (((flow.getD ∅).insert name rate).find? key) = if _ then _ else flow.bind (·.find? key)
  rw [NameMap.find?_insert]
  cases flow <;> rfl

/-- Only the entry of an introduced clock is new. -/
theorem flowOf?_withClock_of_ne {source : ClockSource} {m : Mode α} {name : String}
    (h : name ≠ source.name) : (m.withClock source).flowOf? name = m.flowOf? name := by
  cases source with
  | existing => rfl
  | introduced clock =>
      change (if m.hasFlow then m.setFlow clock (.exact (.num 1)) else m).flowOf? name = _
      split
      · rw [flowOf?_setFlow]
        exact if_neg h
      · rfl

/-- A rate is one of the mode, or that of an introduced clock. -/
theorem flowOf?_of_withClock {source : ClockSource} {m : Mode α} {name : String}
    {rate : Perturbed α} (h : (m.withClock source).flowOf? name = some rate) :
    m.flowOf? name = some rate ∨ rate = .exact (.num 1) := by
  cases source with
  | existing => exact .inl h
  | introduced clock =>
      rw [withClock] at h
      split at h
      · rw [flowOf?_setFlow] at h
        split at h
        · exact .inr (Option.some.inj h).symm
        · exact .inl h
      · exact .inl h

theorem isClock_iff {m : Mode α} {name : String} :
    m.isClock name = true ↔ ∃ rate, m.flowOf? name = some (.exact (.num rate)) ∧
      (rate == 1) = true := by
  rw [isClock]
  split
  · next rate h => simp [h, Perturbed.exact]
  · next h =>
      simp only [Bool.false_eq_true, false_iff]
      rintro ⟨rate, found, _⟩
      exact h rate found

end Mode

namespace Automaton

/-- The automaton with a clock in place. -/
def withClock (source : ClockSource) (a : Automaton α) : Automaton α :=
  match source with
  | .existing _ => a
  | .introduced name => (a.addVariable name).mapFlowing (·.setFlow name (.exact (.num 1)))

@[simp] theorem withClock_transitions (source : ClockSource) (a : Automaton α) :
    (a.withClock source).transitions = a.transitions := by
  cases source <;> rfl

theorem withClock_modes (source : ClockSource) (a : Automaton α) :
    (a.withClock source).modes = a.modes.map (·.withClock source) := by
  cases source with
  | existing name => simp [withClock, Mode.withClock, NameMap.map]
  | introduced name => rfl

theorem mode?_withClock (source : ClockSource) (a : Automaton α) (name : String) :
    (a.withClock source).mode? name = (a.mode? name).map (·.withClock source) := by
  rw [mode?, mode?, withClock_modes, NameMap.find?_map]

theorem keys_withClock (source : ClockSource) (a : Automaton α) :
    (a.withClock source).modes.keys = a.modes.keys := by
  rw [withClock_modes, NameMap.keys_map]

omit [Scalar α] in
theorem mem_values_of_mode? {a : Automaton α} {key : String} {m : Mode α}
    (h : a.mode? key = some m) : m ∈ a.modes.values :=
  List.mem_map.mpr ⟨_, NameMap.find?_eq_some_iff.mp h, rfl⟩

/-- A variable without a faulty mode measures time wherever it passes. -/
theorem isClock_of_clockFault? {a : Automaton α} {name : String} (h : a.clockFault? name = none)
    {m : Mode α} (mem : m ∈ a.modes.values) (flows : m.hasFlow = true) : m.isClock name = true := by
  have passed := List.find?_eq_none.mp h m mem
  simpa [flows] using passed

end Automaton

namespace Model

theorem automaton_withClock {m : Model α} {a : Automaton α} (h : m.automaton = .ok a)
    (source : ClockSource) : (m.withClock a source).automaton = .ok (a.withClock source) := by
  cases source with
  | existing => exact h
  | introduced => rfl

end Model

namespace Continuization

/-- A clock that is used as it is measures time in every mode. -/
theorem clockFault?_of_existing {c : Continuization α} {a : Automaton α} {pass name : String}
    (h : c.clockSource a pass = .ok (.existing name)) : a.clockFault? name = none := by
  rw [clockSource] at h
  split at h
  · split at h
    · cases h
    · split at h
      · split at h
        · cases h
        · next noFault => cases h; exact noFault
      · cases h
  · split at h
    · next found =>
        cases h
        have passed := List.find?_some found
        simp only [Bool.and_eq_true, Option.isNone_iff_eq_none] at passed
        exact passed.2
    · cases h

/-- A clock that is not asked for is a variable beside the sampled one, or a name that is free. -/
theorem clockSource_of_not_asked {c : Continuization α} {a : Automaton α} {pass : String}
    {source : ClockSource} (h : c.clockSource a pass = .ok source) (notAsked : c.clock = none) :
    (∃ name ∈ a.vars.toList, name ≠ c.sampled ∧ source = .existing name) ∨
      ∃ name, name ∉ a.declared ∧ source = .introduced name := by
  rw [clockSource, notAsked] at h
  simp only at h
  split at h
  · next name found =>
      cases h
      have beside := List.find?_some found
      simp only [Bool.and_eq_true, bne_iff_ne] at beside
      exact .inl ⟨name, List.mem_of_find?_eq_some found, beside.1, rfl⟩
  · cases h
    exact .inr ⟨_, firstFree_not_mem (numbered_injective "t"), rfl⟩

/-- An introduced clock is no variable before. -/
theorem not_mem_vars_of_introduced {c : Continuization α} {a : Automaton α} {pass name : String}
    (h : c.clockSource a pass = .ok (.introduced name)) : name ∉ a.vars.toList := by
  rw [clockSource] at h
  split at h
  · split at h
    · cases h
    · split at h
      · split at h <;> cases h
      · next undeclared =>
          cases h
          exact fun mem => undeclared (NameSet.contains_iff.mpr mem)
  · split at h
    · cases h
    · cases h
      exact fun mem => firstFree_not_mem (numbered_injective "t") (List.mem_append_left _ mem)

/-- So the variables keep their rates. -/
theorem flowOf?_withClock_of_mem_vars {c : Continuization α} {a : Automaton α} {pass : String}
    {source : ClockSource} (h : c.clockSource a pass = .ok source) (m : Mode α) {name : String}
    (mem : name ∈ a.vars.toList) : (m.withClock source).flowOf? name = m.flowOf? name := by
  cases source with
  | existing => rfl
  | introduced clock =>
      refine Mode.flowOf?_withClock_of_ne ?_
      rintro rfl
      exact not_mem_vars_of_introduced h mem

/-- With the clock in place, it has the rate one in every mode in which time passes. -/
theorem clock_rate {c : Continuization α} {a : Automaton α} {pass : String} {source : ClockSource}
    (h : c.clockSource a pass = .ok source) {key : String} {m : Mode α}
    (found : (a.withClock source).mode? key = some m) (flows : m.hasFlow = true) :
    ∃ one, m.flowOf? source.name = some (.exact (.num one)) ∧ IsOne one := by
  rw [Automaton.mode?_withClock, Option.map_eq_some_iff] at found
  obtain ⟨m, found, rfl⟩ := found
  rw [Mode.withClock_hasFlow] at flows
  cases source with
  | introduced name =>
      refine ⟨1, ?_, .inl rfl⟩
      simp [Mode.withClock, flows, ClockSource.name, Mode.flowOf?_setFlow]
  | existing name =>
      have measures := Automaton.isClock_of_clockFault? (clockFault?_of_existing h)
        (Automaton.mem_values_of_mode? found) flows
      obtain ⟨rate, hrate, one⟩ := Mode.isClock_iff.mp measures
      exact ⟨rate, hrate, .inr one⟩

end Continuization

end HybridAutomata
