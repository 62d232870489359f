import HybridAutomata.Continuization.Estimate
import HybridAutomata.Proofs.Dynamics.Extension
import HybridAutomata.Proofs.Estimation.Simulation
import HybridAutomata.Proofs.Model.Rules

/-!
# Values of variables

Estimators look at rates. The value of a variable is the rate of its observer, and the observer is a
variable more: it is declared last, under a fresh name, and nothing depends on it. So what is
estimated as its rate is the coordinate of the variable along the trajectory that the model has
without the observer.
-/

namespace HybridAutomata

open Success

variable {α : Type} [Scalar α]

/-! ## Fields with an observer -/

namespace VectorField

variable {f : VectorField α} {observer sampled : String}

/-- Adds an observer of a variable. -/
def withObserver (f : VectorField α) (observer sampled : String) : VectorField α where
  scope := { f.scope with vars := f.scope.vars.insert observer }
  flow := f.flow.insert observer (.exact (.var sampled))

omit [Scalar α] in
theorem rate?_withObserver (name : String) : (f.withObserver observer sampled).rate? name =
    if name = observer then some (.var sampled) else f.rate? name := by
  rw [rate?, withObserver, NameMap.find?_insert]
  split <;> rfl

omit [Scalar α] in
theorem extends_withObserver (sampled : String) (fresh : observer ∉ f.scope.declared) :
    (f.withObserver observer sampled).Extends f observer where
  vars := NameSet.toList_insert_of_not_mem fun declared =>
    fresh (List.mem_append_left _ declared)
  constants := rfl
  fresh := fresh
  rates name mem := by
    rw [rate?_withObserver, if_neg]
    rintro rfl
    exact fresh (List.mem_append_left _ mem)

/-- The values of a coordinate at the samples of a window. -/
def coordinatesIn (i : Nat) (samples : List (Sample α)) (w : Interval α) : Set α :=
  {x | ∃ s ∈ samples, w.contains s.time = true ∧ s.state[i]? = some x}

/-- What an observer grows at is the coordinate of its variable, which is still there after the
coordinate of the observer is taken away. -/
theorem Extends.valuesIn_var {f' : VectorField α} {last : String} (h : f'.Extends f last) {i : Nat}
    (position : f.vars[i]? = some sampled) (noConstant : sampled ∉ f.scope.constants.keys)
    (samples : List (Sample α)) (w : Interval α) :
    f'.valuesIn (.var sampled) samples w =
      coordinatesIn i (samples.map f.projected) w := by
  have listed : i < f.vars.length := (List.getElem?_eq_some_iff.mp position).1
  have inside : i < f.dimension := listed
  have position' : f'.scope.vars.toList[i]? = some sampled := by
    have vars : f'.scope.vars.toList = f.vars ++ [last] := h.vars
    rw [vars, List.getElem?_append_left listed, position]
  have noConstant' : sampled ∉ f'.scope.constants.keys := by rwa [h.constants]
  have value (s : Sample α) (x : α) : f'.eval (.var sampled) s.state = .ok x ↔
      (f.projected s).state[i]? = some x := by
    rw [projected, List.getElem?_take_of_lt inside, eval, Expr.eval,
      Scope.valuation_eq_getElem? position' noConstant']
    cases s.state[i]? <;> simp
  simp only [valuesIn, coordinatesIn, List.mem_map, exists_exists_and_eq_and, value]
  rfl

end VectorField

/-! ## Models with an observer -/

namespace Model

variable {m : Model α} {a : Automaton α} {f : VectorField α} {mode sampled : String}

omit [Scalar α] in
theorem observerName_not_mem (a : Automaton α) (sampled : String) :
    observerName a sampled ∉ a.declared :=
  firstFree_not_mem (numbered_injective _)

omit [Scalar α] in
/-- The field of a mode of the model with the observer. -/
theorem ofMode_withObserver (m : Model α) (sampled : String)
    (field : VectorField.ofMode a mode = .ok f) :
    ∃ a', (m.withObserver a sampled).automaton = .ok a' ∧
      VectorField.ofMode a' mode = .ok (f.withObserver (observerName a sampled) sampled) := by
  obtain ⟨body, flow, found, flows, rfl⟩ := VectorField.ofMode_eq_ok_iff.mp field
  refine ⟨_, automaton_eq_ok_iff.mpr rfl, VectorField.ofMode_eq_ok_iff.mpr
    ⟨body.setFlow (observerName a sampled) (.exact (.var sampled)), _, ?_, rfl, ?_⟩⟩
  · have flowing : body.hasFlow = true := by rw [Mode.hasFlow, flows]; rfl
    rw [Automaton.mode?] at found ⊢
    rw [Automaton.mapFlowing, Automaton.mapModes, NameMap.find?_map]
    change Option.map _ (a.modes.find? mode) = _
    rw [found, Option.map_some, if_pos flowing]
  · rw [flows]
    rfl

end Model

namespace Estimator

variable {m : Model α} {a : Automaton α} {f : VectorField α} {mode sampled : String} {i : Nat}
  {step : α} {point : List α} {windows ranges : List (Interval α)}

omit [Scalar α] in
/-- For the observer, a simulation follows the field with the observer and looks at the variable. -/
theorem setting_withObserver (m : Model α) (sampled : String) (point : List α)
    (field : VectorField.ofMode a mode = .ok f) :
    setting (m.withObserver a sampled) (Model.observerName a sampled) ⟨mode, point⟩ =
      .ok (f.withObserver (Model.observerName a sampled) sampled, .var sampled) := by
  obtain ⟨a', observed, field'⟩ := Model.ofMode_withObserver m sampled field
  refine setting_eq_ok_iff.mpr ⟨a', observed, field', ?_⟩
  rw [VectorField.rate?_withObserver, if_pos rfl]

/-- Without windows, the grid is the start. -/
theorem exists_trajectory_nil (f : VectorField α) (start : List α) (positive : 0 < step) :
    ∃ grid samples, windowGrid [] step = .ok grid ∧ f.IsTrajectory start grid samples := by
  have noStops : TimeGrid.ordered ([] : List α) = [] := TimeGrid.ordered_of_pairwise .nil
  refine ⟨[0], [⟨0, start⟩], timeGrid_eq_ok_iff.mpr ⟨positive, ?_⟩, ⟨rfl, rfl, .singleton _⟩⟩
  rw [List.flatMap_nil, noStops, TimeGrid.after]

variable [LawfulComparisons α]

/-- What a simulation answers for the observer of a variable are the least and the greatest
coordinate of the variable in each window, along the trajectory of the model without the
observer. -/
theorem simulation_withObserver (valid : m.Valid) (flat : m.automaton = .ok a)
    (position : a.vars.toList[i]? = some sampled) (field : VectorField.ofMode a mode = .ok f)
    (positive : 0 < step)
    (answer : (simulation step).estimate (m.withObserver a sampled) (Model.observerName a sampled)
      ⟨mode, point ++ [0]⟩ windows = .ok ranges) :
    ∃ grid samples, windowGrid windows step = .ok grid ∧ f.IsTrajectory point grid samples ∧
      (windows ≠ [] → ∀ s ∈ samples, s.state.length = f.dimension) ∧
      List.Forall₂ (fun w range =>
        Interval.Encloses (VectorField.coordinatesIn i samples w) range) windows ranges := by
  have set := setting_withObserver m sampled (point ++ [0]) field
  by_cases nonempty : windows = []
  · subst nonempty
    obtain ⟨grid, samples, made, trajectory⟩ := exists_trajectory_nil f point positive
    obtain rfl : [] = ranges := Except.ok.inj ((simulation_nil set).symm.trans answer)
    exact ⟨grid, samples, made, trajectory, fun windows => absurd rfl windows, .nil⟩
  obtain ⟨_, _, _, grid, samples, observed, set', made, whole, observes, answers⟩ :=
    (simulation_eq_ok_iff nonempty).mp answer
  obtain ⟨rfl, rfl⟩ := Prod.mk.inj (Except.ok.inj (set.symm.trans set'))
  have rules := (Model.valid_iff.mp valid).automaton flat
  have wellFormed := VectorField.wellFormed_ofMode rules.toWellFormed field
  have noConstant : sampled ∉ a.constants.keys := fun constant =>
    rules.disjoint sampled constant (List.mem_of_getElem? position)
  obtain ⟨_, flow, _, _, rfl⟩ := VectorField.ofMode_eq_ok_iff.mp field
  have larger := VectorField.extends_withObserver (f := ⟨a.toScope, flow⟩) sampled
    (Model.observerName_not_mem a sampled)
  obtain ⟨dimension, trajectory, _⟩ :=
    (VectorField.trajectory_eq_iff (windowGrid_ne_nil made)).mp
      (larger.trajectory_eq wellFormed (windowGrid_ne_nil made) whole)
  refine ⟨grid, _, made, trajectory, fun _ => trajectory.length_state dimension,
    (mapM_eq_ok_iff.mp answers).imp fun w range answer => ?_⟩
  rw [← larger.valuesIn_var position noConstant]
  exact encloses_of_observedRange observes answer

end Estimator

/-! ## Heights of a falling body -/

/-- The field of the fall with an observer of the height. -/
def observedFall : VectorField (Extended ℚ) :=
  fallingField.withObserver (Model.observerName fallingAutomaton "x") "x"

theorem observedFall_trajectory : ∃ samples,
    observedFall.trajectory (dropped.point ++ [0]) fallingGrid = ⟨samples, none⟩ ∧
      ((samples.mapM (Estimator.observe observedFall (.var "x")
        (Model.observerName fallingAutomaton "x"))).toOption.any fun observed =>
          (fallingWindows.mapM (Estimator.observedRange observed)).toOption.any
            fun ranges => ranges == [⟨20, 20⟩, ⟨15, 18.75⟩, ⟨0, 20⟩]) = true := by
  refine ⟨(observedFall.trajectory (dropped.point ++ [0]) fallingGrid).samples, ?_, ?_⟩
  · have unbroken : (observedFall.trajectory (dropped.point ++ [0])
        fallingGrid).failure.isNone = true := by decide +kernel
    exact Trajectory.eq_of_failure (Option.isNone_iff_eq_none.mp unbroken)
  · decide +kernel

/-- The heights of a body that falls for two units of time. -/
theorem fallingBody_heights : fallingBody.Valid ∧ ∃ ranges,
    (Estimator.simulation 0.5).estimate (fallingBody.withObserver fallingAutomaton "x")
        (Model.observerName fallingAutomaton "x") ⟨"fall", dropped.point ++ [0]⟩ fallingWindows =
      .ok ranges ∧
    (ranges == [⟨20, 20⟩, ⟨15, 18.75⟩, ⟨0, 20⟩]) = true ∧
    ∃ grid samples, Estimator.windowGrid fallingWindows 0.5 = .ok grid ∧
      fallingField.IsTrajectory dropped.point grid samples ∧
      (fallingWindows ≠ [] → ∀ s ∈ samples, s.state.length = fallingField.dimension) ∧
      List.Forall₂ (fun w range =>
        Interval.Encloses (VectorField.coordinatesIn 0 samples w) range) fallingWindows ranges := by
  have valid : fallingBody.Valid := by
    rw [Model.Valid]
    decide +kernel
  have flat : fallingBody.automaton = .ok fallingAutomaton := rfl
  have position : fallingAutomaton.vars.toList[0]? = some "x" := rfl
  have field : VectorField.ofMode fallingAutomaton "fall" = .ok fallingField := rfl
  have positive : (0 : Extended ℚ) < 0.5 := by decide +kernel
  obtain ⟨samples, whole, checked⟩ := observedFall_trajectory
  obtain ⟨observed, observes, checked⟩ := exists_ok_of_any checked
  obtain ⟨ranges, answers, heights⟩ := exists_ok_of_any checked
  have answer := (Estimator.simulation_eq_ok_iff (List.cons_ne_nil _ _)).mpr
    ⟨fallingWindows_accepted, observedFall, .var "x", fallingGrid, samples, observed,
      Estimator.setting_withObserver fallingBody "x" _ field, fallingBody_grid, whole, observes,
      answers⟩
  exact ⟨valid, ranges, answer, heights,
    Estimator.simulation_withObserver valid flat position field positive answer⟩

end HybridAutomata
