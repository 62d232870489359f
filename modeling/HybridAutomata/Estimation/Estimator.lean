import HybridAutomata.Dynamics.TimeGrid
import HybridAutomata.Dynamics.Tube
import HybridAutomata.Model.Basic

/-!
# Range estimates

While a trajectory evolves in a mode, which values does the rate of a variable take during a window
of time? An estimator answers with one interval per window. The answers are estimates and not formal
bounds: the transformations that use them add modes that detect when an estimate was too narrow.
-/

namespace HybridAutomata

/-- A mode, and a state with one coordinate per variable. -/
structure StartState (α : Type) where
  mode : String
  point : List α

/-- A way of estimating ranges of rates. -/
structure Estimator (α : Type) where
  name : String
  /-- The ranges of a variable's rate during windows of time, for a start at time zero. -/
  estimate : Model α → String → StartState α → List (Interval α) →
    Except (Failure α) (List (Interval α))

namespace Estimator

variable {α : Type} [Scalar α]

/-- Windows lie in the future and end. -/
def checkWindows (windows : List (Interval α)) : Except (Failure α) Unit :=
  match windows.find? fun w => decide (w.min < 0) || !w.isBounded with
  | some w => .error (.backend (.invalidWindow w))
  | none => .ok ()

/-- The vector field of the start mode and the formula for the rate of a variable in it. -/
def setting (m : Model α) (name : String) (start : StartState α) :
    Except (Failure α) (VectorField α × Expr α) := do
  let f ← VectorField.ofMode (← m.automaton) start.mode
  match f.rate? name with
  | some rate => return (f, rate)
  | none => throw (.unsupported (.variable name) .notInStartFlow)

/-- The grid on which windows are looked at: it meets their ends. -/
def windowGrid (windows : List (Interval α)) (step : α) : Except (Fault α) (List α) :=
  timeGrid (windows.flatMap fun w => [w.min, w.max]) step

/-- Fails if there is a failure. -/
def reportFailure : Option (Failure α) → Except (Failure α) Unit
  | some failure => .error failure
  | none => .ok ()

/-! ## Simulation -/

/-- The time of a sample and the finite value of a formula in its state. -/
def observe (f : VectorField α) (rate : Expr α) (name : String) (s : Sample α) :
    Except (Failure α) (α × α) := do
  let value ← f.eval rate s.state
  if Scalar.isFinite value then return (s.time, value)
  else throw (.backend (.notFinite name s.time))

/-- The smallest interval that contains the values observed during a window. -/
def observedRange (observed : List (α × α)) (window : Interval α) :
    Except (Failure α) (Interval α) := do
  match ← Interval.enclosing ((observed.filter fun o => window.contains o.1).map Prod.snd) with
  | some range => return range
  | none => throw (.backend (.noSamples window))

/-- Estimates from the values along one trajectory. -/
def simulation (step : α) : Estimator α where
  name := "simulation"
  estimate m name start windows := do
    checkWindows windows
    let (f, rate) ← setting m name start
    if windows.isEmpty then return []
    let trajectory := f.trajectory start.point (← windowGrid windows step)
    let observed ← trajectory.samples.mapM (observe f rate name)
    reportFailure trajectory.failure
    windows.mapM (observedRange observed)

/-! ## Interval propagation -/

/-- The range of a formula over a segment, with the span of the segment. -/
def rangeOver (f : VectorField α) (rate : Expr α) (s : Segment α) :
    Except (RangeError α) (Interval α × Interval α) := do
  return (s.span, ← f.range rate s.box)

/-- The smallest interval that contains the ranges over the spans that meet a window. -/
def metRange (ranges : List (Interval α × Interval α)) (window : Interval α) :
    Except (Failure α) (Interval α) :=
  match Interval.hullAll ((ranges.filter fun r => r.1.meets window).map Prod.snd) with
  | some range => .ok range
  | none => .error (.backend (.noSamples window))

/-- Estimates from the ranges along a tube of boxes. They are wider than those of a simulation and
cover all times between the samples. -/
def intervalPropagation (step : α) : Estimator α where
  name := "interval"
  estimate m name start windows := do
    checkWindows windows
    let (f, rate) ← setting m name start
    f.checkStart start.point
    if windows.isEmpty then return []
    let grid ← windowGrid windows step
    let tube ← f.tube start.mode start.point grid
    let ranges ← (tube.segments.mapM (rangeOver f rate) :
      Except (RangeError α) (List (Interval α × Interval α)))
    reportFailure tube.failure
    windows.mapM (metRange ranges)

/-! ## Other estimators -/

/-- The largest integration step, unless another one is asked for. -/
def defaultStep : α := 0.001

/-- An estimator that is switched off. -/
def unavailable (reason : String) : Estimator α where
  name := "unavailable"
  estimate _ name start _ := .error (.backend (.unavailable name start.mode reason))

/-- An estimator that answers without looking at the model, from the number of windows alone. -/
def scripted (name : String) (answer : Nat → List (Interval α)) : Estimator α where
  name
  estimate _ _ _ windows := .ok (answer windows.length)

end Estimator

end HybridAutomata
