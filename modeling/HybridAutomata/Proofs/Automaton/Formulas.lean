import HybridAutomata.Proofs.Automaton.Rules

/-!
# The formulas of an automaton

What a rewriting of formulas has to respect is said for all formulas of an automaton at once:
invariants, rates, guards and new values.
-/

namespace HybridAutomata

variable {α : Type}

/-- The invariant and the rates. -/
def Mode.formulas (m : Mode α) : List (Expr α) := m.invariant :: m.flows.map (·.2.expr)

theorem Mode.flows_mapExprs (f : Expr α → Expr α) (m : Mode α) :
    (m.mapExprs f).flows = m.flows.map fun entry => (entry.1, entry.2.mapExpr f) := by
  obtain ⟨_, flow, _, _⟩ := m
  cases flow <;> rfl

theorem Mode.formulas_mapExprs (f : Expr α → Expr α) (m : Mode α) :
    (m.mapExprs f).formulas = m.formulas.map f := by
  rw [formulas, flows_mapExprs, formulas, List.map_cons, List.map_map, List.map_map]
  rfl

theorem Mode.flowOf?_mapFlow (f : String → Perturbed α → Perturbed α) (m : Mode α) (y : String) :
    (m.mapFlow f).flowOf? y = (m.flowOf? y).map (f y) := by
  obtain ⟨_, flow, _, _⟩ := m
  cases flow with
  | none => rfl
  | some flow => exact NameMap.find?_mapWithKey f flow y

/-- The guard and the new values. -/
def Transition.formulas (t : Transition α) : List (Expr α) :=
  t.guard :: t.reset.entries.map (·.2.expr)

theorem Transition.formulas_mapExprs (f : Expr α → Expr α) (t : Transition α) :
    (t.mapExprs f).formulas = t.formulas.map f := by
  simp only [formulas, mapExprs, NameMap.map, List.map_cons, List.map_map]
  rfl

namespace Automaton

def formulas (a : Automaton α) : List (Expr α) :=
  a.modes.values.flatMap Mode.formulas ++ a.transitions.flatMap Transition.formulas

theorem formulas_mapExprs (f : Expr α → Expr α) (a : Automaton α) :
    (a.mapExprs f).formulas = a.formulas.map f := by
  simp only [formulas, mapExprs, NameMap.values_map, List.flatMap_map, List.map_append,
    List.map_flatMap, Mode.formulas_mapExprs, Transition.formulas_mapExprs]

/-- Formulas mention declared names. -/
theorem WellFormed.closes {a : Automaton α} (h : a.WellFormed) {e : Expr α}
    (mem : e ∈ a.formulas) : a.Closes e := by
  obtain mem | mem := List.mem_append.mp mem
  · obtain ⟨m, stored, mem⟩ := List.mem_flatMap.mp mem
    have kept := h.modes m stored
    obtain rfl | mem := List.mem_cons.mp mem
    · exact kept.invariant
    · obtain ⟨entry, given, rfl⟩ := List.mem_map.mp mem
      exact (kept.flows entry given).value
  · obtain ⟨t, stored, mem⟩ := List.mem_flatMap.mp mem
    have kept := h.transitions t stored
    obtain rfl | mem := List.mem_cons.mp mem
    · exact kept.guard
    · obtain ⟨entry, given, rfl⟩ := List.mem_map.mp mem
      exact (kept.resets entry given).value

/-- Formulas may be replaced, and constants may change, as long as the new formulas mention names
that are declared then. -/
theorem WellFormed.mapExprs {a : Automaton α} (h : a.WellFormed) {f : Expr α → Expr α}
    {s : Scope α} (vars : s.vars = a.vars) (closes : ∀ e ∈ a.formulas, s.Closes (f e)) :
    ({ a.mapExprs f with toScope := s } : Automaton α).WellFormed where
  stored := List.forall_mem_map.mpr h.stored
  modes := by
    intro m' mem
    obtain ⟨_, mapped, rfl⟩ := List.mem_map.mp mem
    obtain ⟨⟨key, m⟩, stored, rfl⟩ := List.mem_map.mp mapped
    have given : m ∈ a.modes.values := List.mem_map_of_mem stored
    have closed {e : Expr α} (mem : e ∈ m.formulas) : s.Closes (f e) :=
      closes e (List.mem_append_left _ (List.mem_flatMap.mpr ⟨m, given, mem⟩))
    refine ⟨closed List.mem_cons_self, ?_⟩
    rw [Mode.flows_mapExprs]
    refine List.forall_mem_map.mpr fun entry rate => ⟨?_, ?_⟩
    · exact vars ▸ ((h.modes m given).flows entry rate).target
    · exact closed (List.mem_cons_of_mem _ (List.mem_map.mpr ⟨entry, rate, rfl⟩))
  transitions := by
    intro t' mem
    obtain ⟨t, given, rfl⟩ := List.mem_map.mp mem
    have closed {e : Expr α} (mem : e ∈ t.formulas) : s.Closes (f e) :=
      closes e (List.mem_append_right _ (List.mem_flatMap.mpr ⟨t, given, mem⟩))
    have keys : (a.mapExprs f).modes.keys = a.modes.keys := NameMap.keys_map _ _
    have kept := h.transitions t given
    refine ⟨keys ▸ kept.source, keys ▸ kept.target, closed List.mem_cons_self, ?_⟩
    refine List.forall_mem_map.mpr fun entry value => ⟨?_, ?_⟩
    · exact vars ▸ (kept.resets entry value).target
    · exact closed (List.mem_cons_of_mem _ (List.mem_map.mpr ⟨entry, value, rfl⟩))

end Automaton

end HybridAutomata
