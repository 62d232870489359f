import HybridAutomata.Automaton.Validity
import HybridAutomata.Proofs.Expr.Names
import HybridAutomata.Proofs.Names

/-!
# The rules of a flat automaton

A check lists violations, because it has to report the first one. Here the rules stand as what they
ask for: an automaton has no violation exactly if it keeps them. Only the last one, that no name is
both a variable and a constant, is about declarations alone; the others are what a transformation
has to preserve in modes and transitions.
-/

namespace HybridAutomata

variable {α : Type}

namespace Scope

theorem declares_iff {s : Scope α} {name : String} :
    s.declares name = true ↔ name ∈ s.declared := by
  rw [declares, Bool.or_eq_true, NameSet.contains_iff, NameMap.contains_iff, declared,
    List.mem_append]

/-- All names of a formula are declared. -/
def Closes (s : Scope α) (e : Expr α) : Prop := ∀ name ∈ e.names, name ∈ s.declared

theorem Closes.mono {s s' : Scope α} {e : Expr α} (h : s.Closes e)
    (more : s.declared ⊆ s'.declared) : s'.Closes e :=
  fun name mem => more (h name mem)

theorem undeclaredIn_eq_nil_iff {s : Scope α} {e : Expr α} :
    s.undeclaredIn e = [] ↔ s.Closes e := by
  simp [undeclaredIn, Closes, List.filter_eq_nil_iff, Expr.mem_vars, declares_iff]

/-- A flow or a reset entry is for a variable, and its value mentions declared names only. -/
structure Assigns (s : Scope α) (entry : String × Perturbed α) : Prop where
  target : entry.1 ∈ s.vars.toList
  value : s.Closes entry.2.expr

/-- What is asked of a mode. -/
structure KeepsMode (s : Scope α) (m : Mode α) : Prop where
  invariant : s.Closes m.invariant
  flows : ∀ entry ∈ m.flows, s.Assigns entry

end Scope

namespace Mode

theorem mem_flows_iff {m : Mode α} {entry : String × Perturbed α} :
    entry ∈ m.flows ↔ m.flowOf? entry.1 = some entry.2 := by
  obtain ⟨_, flow, _, _⟩ := m
  cases flow with
  | none => simp [flows, flowOf?]
  | some flow => exact NameMap.find?_eq_some_iff.symm

end Mode

namespace Scope

/-- A mode keeps its rules exactly if its invariant and the rates it gives do. -/
theorem keepsMode_iff {s : Scope α} {m : Mode α} : s.KeepsMode m ↔
    s.Closes m.invariant ∧
      ∀ name rate, m.flowOf? name = some rate → s.Assigns (name, rate) := by
  constructor
  · intro h
    exact ⟨h.invariant, fun name rate found => h.flows _ (Mode.mem_flows_iff.mpr found)⟩
  · rintro ⟨invariant, rates⟩
    exact ⟨invariant, fun entry mem => rates _ _ (Mode.mem_flows_iff.mp mem)⟩

end Scope

namespace Automaton

/-- What is asked of a transition. -/
structure KeepsTransition (a : Automaton α) (t : Transition α) : Prop where
  source : t.source ∈ a.modes.keys
  target : t.target ∈ a.modes.keys
  guard : a.Closes t.guard
  resets : ∀ entry ∈ t.reset.entries, a.Assigns entry

/-- The rules for modes and transitions. -/
structure WellFormed (a : Automaton α) : Prop where
  stored : ∀ entry ∈ a.modes.entries, entry.2.name = entry.1
  modes : ∀ m ∈ a.modes.values, a.KeepsMode m
  transitions : ∀ t ∈ a.transitions, a.KeepsTransition t

/-- All rules. -/
structure Sound (a : Automaton α) : Prop extends a.WellFormed where
  disjoint : ∀ name ∈ a.constants.keys, name ∉ a.vars.toList

theorem referenceViolations_eq_nil_iff {a : Automaton α} {subject : Subject} {e : Expr α} :
    a.referenceViolations subject e = [] ↔ a.Closes e := by
  rw [referenceViolations, List.map_eq_nil_iff, Scope.undeclaredIn_eq_nil_iff]

theorem assignmentViolations_eq_nil_iff {a : Automaton α} {subject : Subject}
    {undeclared : String → Problem α} {entry : String × Perturbed α} :
    a.assignmentViolations subject undeclared entry = [] ↔ a.Assigns entry := by
  have target : (if a.vars.contains entry.1 then [] else [⟨subject, undeclared entry.1⟩] :
      List (Violation α)) = [] ↔ entry.1 ∈ a.vars.toList := by
    rw [← NameSet.contains_iff]
    simp
  rw [assignmentViolations, List.append_eq_nil_iff, target, referenceViolations_eq_nil_iff]
  exact ⟨fun ⟨target, value⟩ => ⟨target, value⟩, fun h => ⟨h.target, h.value⟩⟩

theorem constantViolations_eq_nil_iff {a : Automaton α} {name : String} :
    a.constantViolations name = [] ↔ name ∉ a.vars.toList := by
  rw [constantViolations, ← NameSet.contains_iff]
  simp

theorem modeViolations_eq_nil_iff {a : Automaton α} {key : String} {m : Mode α} :
    a.modeViolations key m = [] ↔ m.name = key ∧ a.KeepsMode m := by
  have stored : (if key = m.name then [] else [⟨.mode key a.path, .storedElsewhere m.name⟩] :
      List (Violation α)) = [] ↔ m.name = key := by
    rw [eq_comm (a := m.name)]
    simp
  simp only [modeViolations, List.append_eq_nil_iff, List.flatMap_eq_nil_iff, stored,
    referenceViolations_eq_nil_iff, assignmentViolations_eq_nil_iff]
  constructor
  · rintro ⟨⟨stored, invariant⟩, flows⟩
    exact ⟨stored, invariant, flows⟩
  · rintro ⟨stored, invariant, flows⟩
    exact ⟨⟨stored, invariant⟩, flows⟩

theorem endpointViolations_eq_nil_iff {a : Automaton α} {subject : Subject} {mode : String} :
    a.endpointViolations subject mode = [] ↔ mode ∈ a.modes.keys := by
  rw [endpointViolations, ← NameMap.contains_iff]
  simp

theorem transitionViolations_eq_nil_iff {a : Automaton α} {t : Transition α} :
    a.transitionViolations t = [] ↔ a.KeepsTransition t := by
  simp only [transitionViolations, List.append_eq_nil_iff, List.flatMap_eq_nil_iff,
    endpointViolations_eq_nil_iff, referenceViolations_eq_nil_iff,
    assignmentViolations_eq_nil_iff]
  constructor
  · rintro ⟨⟨⟨source, target⟩, guard⟩, resets⟩
    exact ⟨source, target, guard, resets⟩
  · rintro ⟨source, target, guard, resets⟩
    exact ⟨⟨⟨source, target⟩, guard⟩, resets⟩

/-- An automaton has no violation exactly if it keeps the rules. -/
theorem violations_eq_nil_iff {a : Automaton α} : a.violations = [] ↔ a.Sound := by
  have values : (∀ m ∈ a.modes.values, a.KeepsMode m) ↔
      ∀ entry ∈ a.modes.entries, a.KeepsMode entry.2 := List.forall_mem_map
  simp only [violations, List.append_eq_nil_iff, List.flatMap_eq_nil_iff,
    constantViolations_eq_nil_iff, modeViolations_eq_nil_iff, transitionViolations_eq_nil_iff]
  constructor
  · rintro ⟨⟨disjoint, modes⟩, transitions⟩
    exact {
      stored := fun entry mem => (modes entry mem).1
      modes := values.mpr fun entry mem => (modes entry mem).2
      transitions
      disjoint }
  · intro h
    exact ⟨⟨h.disjoint, fun entry mem => ⟨h.stored entry mem, values.mp h.modes entry mem⟩⟩,
      h.transitions⟩

end Automaton

end HybridAutomata
