import HybridAutomata.Proofs.Automaton.Formulas
import HybridAutomata.Proofs.Dynamics.Rates
import HybridAutomata.Proofs.Exact.Fields
import HybridAutomata.Proofs.Model.Rules

/-!
# Evaluation in valid models

The check of a model walks over its formulas in one way, evaluation walks over them in three others.
They agree: no formula of a valid model ever fails for lack of a name, wherever the declared names
have values, and neither does anything that is computed from the rates of a mode at a state.
-/

namespace HybridAutomata

variable {α : Type} [Scalar α]

/-- A formula finds its names wherever the declared ones have values, or intervals. -/
structure Scope.Suffices (s : Scope α) (e : Expr α) : Prop where
  eval : ∀ env, (∀ name ∈ s.declared, env name ≠ none) → Resolves (e.eval env)
  holds : ∀ env, (∀ name ∈ s.declared, env name ≠ none) → Resolves (e.holds env)
  range : ∀ box, (∀ name ∈ s.declared, box name ≠ none) → RangeResolves (e.range box)

theorem Scope.Closes.suffices {s : Scope α} {e : Expr α} (h : s.Closes e) : s.Suffices e where
  eval _ known := Expr.resolves_eval fun name mem => known name (h name mem)
  holds _ known := Expr.resolves_holds fun name mem => known name (h name mem)
  range _ known := Expr.resolves_range fun name mem => known name (h name mem)

/-- A field finds the names of its rates, at every state and over every box with a coordinate for
each variable. -/
structure VectorField.FindsNames (f : VectorField α) : Prop where
  rate : ∀ name e, f.rate? name = some e →
    ∀ state, state.length = f.dimension → Resolves (f.eval e state)
  rateRange : ∀ name e, f.rate? name = some e →
    ∀ box, box.length = f.dimension → RangeResolves (f.range e box)
  derivative : ∀ state, state.length = f.dimension → Resolves (f.derivative state)
  derivativeRange : ∀ box, box.length = f.dimension → RangeResolves (f.derivativeRange box)
  advance : ∀ state step, state.length = f.dimension → Resolves (f.advance state step)

theorem VectorField.WellFormed.findsNames {f : VectorField α} (h : f.WellFormed) :
    f.FindsNames where
  rate _ _ rate _ length := resolves_eval (h.assigns rate).2 length
  rateRange _ _ rate _ length := resolves_range (h.assigns rate).2 length
  derivative _ length := h.resolves_derivative length
  derivativeRange _ length := h.resolves_derivativeRange length
  advance _ step length := h.resolves_advance length step

namespace Model

/-- Whatever is evaluated in a flat model finds its names. -/
structure FindsNames (m : Model α) (a : Automaton α) : Prop where
  fields : ∀ name mode flow, a.mode? name = some mode → mode.flow = some flow →
    VectorField.ofMode a name = .ok ⟨a.toScope, flow⟩ ∧
      (⟨a.toScope, flow⟩ : VectorField α).FindsNames
  invariants : ∀ mode ∈ a.modes.values, a.Suffices mode.invariant
  guards : ∀ t ∈ a.transitions, a.Suffices t.guard
  resets : ∀ t ∈ a.transitions, ∀ entry ∈ t.reset.entries, a.Suffices entry.2.expr
  init : ∀ entry ∈ m.init.entries, a.Suffices entry.2
  forbidden : ∀ entry ∈ m.forbidden.entries, a.Suffices entry.2

/-- Evaluation in a valid model never meets a name that has no value. -/
theorem findsNames_of_valid {m : Model α} {a : Automaton α} (valid : m.Valid)
    (flat : m.automaton = .ok a) : m.FindsNames a := by
  have sound := valid_iff.mp valid
  have rules : a.WellFormed := (sound.automaton flat).toWellFormed
  obtain ⟨_, init, forbidden, _, _⟩ := sound
  rw [automaton_eq_ok_iff.mp flat] at init forbidden
  exact {
    fields := by
      intro name mode flow found flows
      have field := VectorField.ofMode_eq_ok_iff.mpr ⟨mode, flow, found, flows, rfl⟩
      exact ⟨field, (VectorField.wellFormed_ofMode rules field).findsNames⟩
    invariants := fun mode mem => (rules.modes mode mem).invariant.suffices
    guards := fun t mem => (rules.transitions t mem).guard.suffices
    resets := fun t mem entry given =>
      ((rules.transitions t mem).resets entry given).value.suffices
    init := fun entry mem =>
      (Component.keepsRegion_flat_iff.mp (init entry mem)).2.suffices
    forbidden := fun entry mem =>
      (Component.keepsRegion_flat_iff.mp (forbidden entry mem)).2.suffices }

end Model

/-! ## A thermostat -/

/-- The heater is on below 19 degrees and off above 21. It cools at the rate `k`, which is known up
to an interval. -/
def thermostatAutomaton : Automaton (Extended ℚ) where
  vars := .ofList ["x", "since"]
  constants := .ofList [("k", ⟨0.1, 0.2⟩)]
  modes := .ofList [
    ("on", {
      name := "on"
      flow := some (.ofList [
        ("x", ⟨.sub (.num 5) (.mul (.var "k") (.var "x")), some ⟨-1, 1⟩⟩),
        ("since", .exact (.num 1))])
      invariant := .le (.var "x") (.num 21) }),
    ("off", {
      name := "off"
      flow := some (.ofList [("x", .exact (.neg (.mul (.var "k") (.var "x"))))])
      invariant := .ge (.var "x") (.num 19) })]
  transitions := [
    { source := "on", target := "off", guard := .ge (.var "x") (.num 21)
      reset := .ofList [("since", .exact (.mul (.num 0) (.var "k")))] },
    { source := "off", target := "on", guard := .le (.var "x") (.num 19) }]

def thermostat : Model (Extended ℚ) where
  root := .flat thermostatAutomaton
  init := .ofList [("on", .eq (.var "x") (.num 20))]
  forbidden := .ofList [("off", .lt (.var "x") (.sub (.num 19) (.var "k")))]
  settings := .initial

theorem thermostat_findsNames : thermostat.Valid ∧ thermostat.FindsNames thermostatAutomaton := by
  have valid : thermostat.Valid := by
    rw [Model.Valid]
    decide +kernel
  exact ⟨valid, Model.findsNames_of_valid valid rfl⟩

end HybridAutomata
