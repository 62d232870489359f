import HybridAutomata.Proofs.Dynamics.Grid
import HybridAutomata.Proofs.Dynamics.Trajectories
import HybridAutomata.Proofs.Exact.Fields

/-!
# What a simulation answers

A simulation follows one trajectory along a grid that meets the windows, looks at the value of a
formula at every sample, and answers with the least and the greatest value for each window. Nothing
here depends on how sums and products are rounded: the trajectory is the one that the rounded steps
give, and only comparisons have to obey laws.
-/

namespace HybridAutomata

open Success

variable {α : Type} [Scalar α]

/-- The values of a formula at the samples of a window. -/
def VectorField.valuesIn (f : VectorField α) (e : Expr α) (samples : List (Sample α))
    (w : Interval α) : Set α :=
  {x | ∃ s ∈ samples, w.contains s.time = true ∧ f.eval e s.state = .ok x}

namespace Estimator

variable {m : Model α} {f : VectorField α} {rate : Expr α} {name : String} {start : StartState α}
  {windows ranges : List (Interval α)} {step : α} {grid : List α} {samples : List (Sample α)}
  {observed : List (α × α)} {w range : Interval α}

/-! ## The steps of a simulation -/

omit [Scalar α] in
theorem setting_eq_ok_iff : setting m name start = .ok (f, rate) ↔
    ∃ a, m.automaton = .ok a ∧ VectorField.ofMode a start.mode = .ok f ∧
      f.rate? name = some rate := by
  simp only [setting, bind_eq_ok_iff]
  constructor
  · rintro ⟨a, flat, f', field, made⟩
    split at made
    · next rate' rated =>
        cases made
        exact ⟨a, flat, field, rated⟩
    · cases made
  · rintro ⟨a, flat, field, rated⟩
    exact ⟨a, flat, f, field, by rw [rated]; rfl⟩

theorem observe_eq_ok_iff {s : Sample α} {o : α × α} : observe f rate name s = .ok o ↔
    s.time = o.1 ∧ f.eval rate s.state = .ok o.2 ∧ Scalar.isFinite o.2 = true := by
  obtain ⟨time, value⟩ := o
  simp only [observe, bind_eq_ok_iff, liftEval_eq_ok_iff]
  constructor
  · rintro ⟨value', evaluated, made⟩
    split at made
    · next finite =>
        cases made
        exact ⟨rfl, evaluated, finite⟩
    · cases made
  · rintro ⟨rfl, evaluated, finite⟩
    exact ⟨value, evaluated, if_pos finite⟩

/-- The values observed in a window are those of the formula at the samples in it. -/
theorem observed_eq_valuesIn (h : samples.mapM (observe f rate name) = .ok observed) :
    {x | x ∈ (observed.filter fun o => w.contains o.1).map Prod.snd} =
      f.valuesIn rate samples w := by
  ext x
  simp only [List.mem_map, List.mem_filter, VectorField.valuesIn, Set.mem_ofPred_eq]
  constructor
  · rintro ⟨o, ⟨mem, inside⟩, rfl⟩
    obtain ⟨s, sampled, made⟩ := (mem_of_mapM h).mp mem
    obtain ⟨time, evaluated, _⟩ := observe_eq_ok_iff.mp made
    exact ⟨s, sampled, time ▸ inside, evaluated⟩
  · rintro ⟨s, sampled, inside, evaluated⟩
    obtain ⟨o, mem, made⟩ := exists_of_mapM h sampled
    obtain ⟨time, evaluated', _⟩ := observe_eq_ok_iff.mp made
    exact ⟨o, ⟨mem, time ▸ inside⟩, Except.ok.inj (evaluated'.symm.trans evaluated)⟩

theorem observedRange_eq_ok_iff : observedRange observed w = .ok range ↔
    Interval.enclosing ((observed.filter fun o => w.contains o.1).map Prod.snd) =
      .ok (some range) := by
  simp only [observedRange, bind_eq_ok_iff, liftFault_eq_ok_iff]
  constructor
  · rintro ⟨found, enclosed, made⟩
    split at made
    · cases made
      exact enclosed
    · cases made
  · intro enclosed
    exact ⟨_, enclosed, rfl⟩

omit [Scalar α] in
theorem reportFailure_eq_ok_iff {failure : Option (Failure α)} {u : Unit} :
    reportFailure failure = .ok u ↔ failure = none := by
  cases failure <;> simp [reportFailure]

omit [Scalar α] in
theorem reportFailure_eq_error_iff {failure : Option (Failure α)} {e : Failure α} :
    reportFailure failure = .error e ↔ failure = some e := by
  cases failure <;> simp [reportFailure]

/-- Without windows there is nothing to follow. -/
theorem simulation_nil (set : setting m name start = .ok (f, rate)) :
    (simulation step).estimate m name start [] = .ok [] := by
  simp only [simulation, bind_eq_ok_iff]
  exact ⟨(), rfl, (f, rate), set, rfl⟩

/-- A simulation that answers went through its steps, and nothing broke off. -/
theorem simulation_eq_ok_iff (nonempty : windows ≠ []) :
    (simulation step).estimate m name start windows = .ok ranges ↔
      checkWindows windows = .ok () ∧ ∃ f rate grid samples observed,
        setting m name start = .ok (f, rate) ∧ windowGrid windows step = .ok grid ∧
        f.trajectory start.point grid = ⟨samples, none⟩ ∧
        samples.mapM (observe f rate name) = .ok observed ∧
        windows.mapM (observedRange observed) = .ok ranges := by
  have notEmpty : ¬windows.isEmpty = true := by simpa using nonempty
  simp only [simulation, bind_eq_ok_iff, if_neg notEmpty, liftFault_eq_ok_iff,
    reportFailure_eq_ok_iff]
  constructor
  · rintro ⟨_, accepted, ⟨f, rate⟩, set, grid, made, observed, observes, _, unbroken, answers⟩
    exact ⟨accepted, f, rate, grid, _, observed, set, made, Trajectory.eq_of_failure unbroken,
      observes, answers⟩
  · rintro ⟨accepted, f, rate, grid, samples, observed, set, made, trajectory, observes, answers⟩
    refine ⟨_, accepted, (f, rate), set, grid, made, observed, ?_, (), ?_, answers⟩
    · rw [trajectory]
      exact observes
    · rw [trajectory]

/-! ## Extremes -/

section

variable [LawfulComparisons α]

/-- Observed values are finite, so the smallest interval around them goes from the least to the
greatest. -/
theorem exists_enclosing_observed (h : samples.mapM (observe f rate name) = .ok observed)
    (nonempty : (observed.filter fun o => w.contains o.1).map Prod.snd ≠ []) :
    ∃ range, Interval.enclosing ((observed.filter fun o => w.contains o.1).map Prod.snd) =
      .ok (some range) ∧ Interval.Encloses (f.valuesIn rate samples w) range := by
  rw [← observed_eq_valuesIn h]
  refine Interval.exists_enclosing nonempty fun x mem => ?_
  obtain ⟨o, kept, rfl⟩ := List.mem_map.mp mem
  obtain ⟨s, _, made⟩ := (mem_of_mapM h).mp (List.mem_of_mem_filter kept)
  exact Scalar.defined_of_isFinite (observe_eq_ok_iff.mp made).2.2

/-- An answer goes from the least to the greatest value in the window. -/
theorem encloses_of_observedRange (h : samples.mapM (observe f rate name) = .ok observed)
    (answer : observedRange observed w = .ok range) :
    Interval.Encloses (f.valuesIn rate samples w) range := by
  have enclosing := observedRange_eq_ok_iff.mp answer
  have nonempty : (observed.filter fun o => w.contains o.1).map Prod.snd ≠ [] := by
    intro empty
    rw [empty] at enclosing
    cases enclosing
  obtain ⟨range', enclosing', encloses⟩ := exists_enclosing_observed h nonempty
  obtain rfl : range = range' := by simpa using enclosing.symm.trans enclosing'
  exact encloses

/-- A window with a sample has an answer. -/
theorem exists_observedRange (h : samples.mapM (observe f rate name) = .ok observed)
    (sampled : ∃ s ∈ samples, w.contains s.time = true) :
    ∃ range, observedRange observed w = .ok range := by
  obtain ⟨s, mem, inside⟩ := sampled
  obtain ⟨o, observes, made⟩ := exists_of_mapM h mem
  obtain ⟨time, _, _⟩ := observe_eq_ok_iff.mp made
  have kept : o ∈ observed.filter fun o => w.contains o.1 :=
    List.mem_filter.mpr ⟨observes, time ▸ inside⟩
  obtain ⟨range, enclosing, _⟩ :=
    exists_enclosing_observed h (List.ne_nil_of_mem (List.mem_map_of_mem kept))
  exact ⟨range, observedRange_eq_ok_iff.mpr enclosing⟩

/-! ## Every window has samples -/

omit [LawfulComparisons α] in
theorem exists_sample (trajectory : f.IsTrajectory start.point grid samples)
    (met : ∃ t ∈ grid, w.contains t = true) : ∃ s ∈ samples, w.contains s.time = true := by
  obtain ⟨t, mem, inside⟩ := met
  rw [← trajectory.times] at mem
  obtain ⟨s, sampled, rfl⟩ := List.mem_map.mp mem
  exact ⟨s, sampled, inside⟩

omit [LawfulComparisons α] in
theorem observe_ne_noSamples {s : Sample α} :
    observe f rate name s ≠ .error (.backend (.noSamples w)) := by
  intro failed
  simp only [observe, bind_eq_error_iff, liftEval_eq_error_iff] at failed
  obtain ⟨_, _, ⟨⟩⟩ | ⟨value, _, failed⟩ := failed
  split at failed <;> cases failed

/-- Neither the grid nor a step of the trajectory loses a window. -/
theorem simulation_ne_noSamples (set : setting m name start = .ok (f, rate))
    (accepted : checkWindows windows = .ok ()) (ordered : ∀ w ∈ windows, w.Ordered)
    (made : windowGrid windows step = .ok grid) (w : Interval α) :
    (simulation step).estimate m name start windows ≠ .error (.backend (.noSamples w)) := by
  intro failed
  simp only [simulation, bind_eq_error_iff] at failed
  obtain failed | ⟨_, _, failed | ⟨⟨f', rate'⟩, set', failed⟩⟩ := failed
  · cases accepted.symm.trans failed
  · cases set.symm.trans failed
  obtain ⟨rfl, rfl⟩ := Prod.mk.inj (Except.ok.inj (set.symm.trans set'))
  split at failed
  · cases failed
  simp only [bind_eq_error_iff, liftFault_eq_ok_iff, reportFailure_eq_ok_iff] at failed
  obtain failed | ⟨grid', made', failed | ⟨observed, observes, failed | ⟨_, unbroken, failed⟩⟩⟩ :=
    failed
  · obtain ⟨_, _, ⟨⟩⟩ := liftFault_eq_error_iff.mp failed
  · obtain ⟨s, _, failed⟩ := exists_of_mapM_eq_error failed
    exact observe_ne_noSamples failed
  · have broken := VectorField.failure_of_trajectory (reportFailure_eq_error_iff.mp failed)
    simp at broken
  · obtain ⟨w', mem, failed⟩ := exists_of_mapM_eq_error failed
    obtain rfl : grid = grid' := Except.ok.inj (made.symm.trans made')
    obtain ⟨_, trajectory, _⟩ := (VectorField.trajectory_eq_iff (windowGrid_ne_nil made)).mp
      (Trajectory.eq_of_failure unbroken)
    obtain ⟨range, answer⟩ := exists_observedRange observes
      (exists_sample trajectory (exists_mem_windowGrid accepted made mem (ordered w' mem)))
    cases answer.symm.trans failed

/-- Where everything stays finite, a simulation answers with the least and the greatest value of the
rate at the samples of each window, in the order of the windows. That a window has no samples is
never the answer. -/
theorem simulation_encloses {a : Automaton α} (flat : m.automaton = .ok a)
    (field : VectorField.ofMode a start.mode = .ok f) (rated : f.rate? name = some rate)
    (dimension : start.point.length = f.dimension) (positive : 0 < step)
    (accepted : checkWindows windows = .ok ()) (ordered : ∀ w ∈ windows, w.Ordered) :
    ∃ grid, windowGrid windows step = .ok grid ∧
      (∀ w ∈ windows, ∃ t ∈ grid, w.contains t = true) ∧
      (∀ w, (simulation step).estimate m name start windows ≠
        .error (.backend (.noSamples w))) ∧
      ∀ samples, f.IsTrajectory start.point grid samples → (∀ s ∈ samples, s.Finite) →
        (∀ s ∈ samples, ∃ x, f.eval rate s.state = .ok x ∧ Scalar.isFinite x = true) →
          ∃ ranges, (simulation step).estimate m name start windows = .ok ranges ∧
            List.Forall₂ (fun w range => Interval.Encloses (f.valuesIn rate samples w) range)
              windows ranges := by
  have set := setting_eq_ok_iff.mpr ⟨a, flat, field, rated⟩
  obtain ⟨grid, made⟩ : ∃ grid, windowGrid windows step = .ok grid :=
    ⟨_, timeGrid_eq_ok_iff.mpr ⟨positive, rfl⟩⟩
  have met := fun w mem => exists_mem_windowGrid accepted made mem (ordered w mem)
  refine ⟨grid, made, met, simulation_ne_noSamples set accepted ordered made, ?_⟩
  intro samples trajectory finite values
  have whole := (VectorField.trajectory_eq_iff (windowGrid_ne_nil made)).mpr
    ⟨dimension, trajectory, fun s mem => finite s (List.mem_of_mem_tail mem)⟩
  obtain ⟨observed, observes⟩ : ∃ observed, samples.mapM (observe f rate name) = .ok observed := by
    refine exists_ok_of_mapM fun s mem => ?_
    obtain ⟨x, evaluated, finite⟩ := values s mem
    exact ⟨(s.time, x), observe_eq_ok_iff.mpr ⟨rfl, evaluated, finite⟩⟩
  obtain ⟨ranges, answers⟩ : ∃ ranges, windows.mapM (observedRange observed) = .ok ranges :=
    exists_ok_of_mapM fun w mem =>
      exists_observedRange observes (exists_sample trajectory (met w mem))
  refine ⟨ranges, ?_, ?_⟩
  · by_cases nonempty : windows = []
    · subst nonempty
      cases mapM_eq_ok_iff.mp answers
      exact simulation_nil set
    · exact (simulation_eq_ok_iff nonempty).mpr
        ⟨accepted, f, rate, grid, samples, observed, set, made, whole, observes, answers⟩
  · exact (mapM_eq_ok_iff.mp answers).imp fun w range answer =>
      encloses_of_observedRange observes answer

end

end Estimator

/-! ## A falling body -/

def fallingAutomaton : Automaton (Extended ℚ) where
  vars := .ofList ["x", "v"]
  modes := .ofList [("fall", {
    name := "fall"
    flow := some (.ofList [("x", .exact (.var "v")), ("v", .exact (.num (-10)))]) })]

def fallingBody : Model (Extended ℚ) where
  root := .flat fallingAutomaton
  settings := .initial

def fallingField : VectorField (Extended ℚ) where
  scope := fallingAutomaton.toScope
  flow := .ofList [("x", .exact (.var "v")), ("v", .exact (.num (-10)))]

/-- The body is dropped from a height of twenty. -/
def dropped : StartState (Extended ℚ) := ⟨"fall", [20, 0]⟩

/-- The moment of the drop, a window behind it, and a window around that one. -/
def fallingWindows : List (Interval (Extended ℚ)) := [⟨0, 0⟩, ⟨0.5, 1⟩, ⟨0, 2⟩]

/-- The positive ends of the windows, which are in order. -/
def fallingStops : List (Extended ℚ) :=
  (fallingWindows.flatMap fun w => [w.min, w.max]).filter fun t => decide (0 < t)

/-- The grid with a step of a half. -/
def fallingGrid : List (Extended ℚ) := 0 :: TimeGrid.after 0 0.5 fallingStops.eraseReps

theorem fallingBody_grid : Estimator.windowGrid fallingWindows 0.5 = .ok fallingGrid := by
  have positive : (0 : Extended ℚ) < 0.5 := by decide +kernel
  have inOrder : fallingStops.Pairwise fun a b => decide (a ≤ b) = true := by decide +kernel
  exact timeGrid_eq_ok_iff.mpr
    ⟨positive, congrArg (0 :: TimeGrid.after 0 0.5 ·) (TimeGrid.ordered_of_pairwise inOrder)⟩

theorem fallingWindows_accepted : Estimator.checkWindows fallingWindows = .ok () := by
  rw [Estimator.checkWindows_eq_ok_iff]
  decide +kernel

/-- The samples of the fall. -/
def fallingSamples : List (Sample (Extended ℚ)) :=
  (fallingField.trajectory dropped.point fallingGrid).samples

theorem fallingBody_trajectory :
    fallingField.trajectory dropped.point fallingGrid = ⟨fallingSamples, none⟩ := by
  have unbroken : (fallingField.trajectory dropped.point fallingGrid).failure.isNone = true := by
    decide +kernel
  exact Trajectory.eq_of_failure (Option.isNone_iff_eq_none.mp unbroken)

/-- The speeds of a body that falls for two units of time. -/
theorem fallingBody_encloses : ∃ grid ranges,
    Estimator.windowGrid fallingWindows 0.5 = .ok grid ∧
      fallingField.IsTrajectory dropped.point grid fallingSamples ∧
      (Estimator.simulation 0.5).estimate fallingBody "x" dropped fallingWindows = .ok ranges ∧
      List.Forall₂ (fun w range => Interval.Encloses
        (fallingField.valuesIn (.var "v") fallingSamples w) range) fallingWindows ranges := by
  have positive : (0 : Extended ℚ) < 0.5 := by decide +kernel
  have ordered : ∀ w ∈ fallingWindows, w.Ordered := by
    simp only [Interval.Ordered]
    decide +kernel
  have flat : fallingBody.automaton = .ok fallingAutomaton := rfl
  have field : VectorField.ofMode fallingAutomaton dropped.mode = .ok fallingField := rfl
  have rated : fallingField.rate? "x" = some (.var "v") := rfl
  have dimension : dropped.point.length = fallingField.dimension := rfl
  obtain ⟨grid, made, _, _, answers⟩ :=
    Estimator.simulation_encloses flat field rated dimension positive fallingWindows_accepted
      ordered
  obtain rfl : fallingGrid = grid := Except.ok.inj (fallingBody_grid.symm.trans made)
  have trajectory := ((VectorField.trajectory_eq_iff (List.cons_ne_nil _ _)).mp
    fallingBody_trajectory).2.1
  have finite : ∀ s ∈ fallingSamples, s.Finite := by
    simp only [Sample.Finite]
    decide +kernel
  have values : ∀ s ∈ fallingSamples,
      (fallingField.eval (.var "v") s.state).toOption.any Scalar.isFinite = true := by
    decide +kernel
  obtain ⟨ranges, estimated, encloses⟩ := answers fallingSamples trajectory finite
    fun s mem => exists_ok_of_any (values s mem)
  exact ⟨fallingGrid, ranges, made, trajectory, estimated, encloses⟩

end HybridAutomata
