import HybridAutomata.Continuization.EventTriggered
import HybridAutomata.Continuization.SamplingLoop

/-!
# Time-triggered continuization

A model that samples a law on a clock loses the sampling: the loops and the clock go, and the
sampled variable is given the rate at which its law changes along the flow, so that it follows the
law. The result is continuized over equal windows up to the time horizon, with the value of the
sampled variable as what is estimated. At last the law takes the place of the variable in the window
modes and the transitions that leave them.
-/

namespace HybridAutomata

open Scalar

/-- The parameters of the time-triggered variant. -/
structure MacroSteps (α : Type) where
  /-- Whether estimates also start at the star points of the start box. -/
  blowup : Bool := false
  /-- The length of a window, a multiple of the sampling period. -/
  step : α
  /-- The bloat amount of every window. -/
  bloat : α

namespace MacroSteps

variable {α : Type} [Scalar α]

/-- The largest number of windows. -/
def maxWindows : Nat := 10000

/-- The number of windows that cover a horizon, as a number. A horizon that is a hair longer than
some windows gets no window for the hair. -/
def windowCount (s : MacroSteps α) (horizon : α) : α :=
  greater (ceil (horizon / s.step - 1e-9)) 1

/-- Checks the parameters against the horizon and gives the number of windows. -/
def check (s : MacroSteps α) (horizon : α) (pass : String) : Except (Failure α) Nat := do
  if !isPositive s.step then throw (.parameters pass (.stepNotPositive s.step))
  if !isNonNegative s.bloat then
    throw (.parameters pass (.stepBloatNegative s.bloat))
  if !isPositive horizon then
    throw (.unsupported .settings (.horizonNotFinite horizon))
  let count := s.windowCount horizon
  if ofInt maxWindows < count then
    throw (.parameters pass (.tooManyWindows s.step horizon count maxWindows))
  return (wholePart 0 maxWindows count).toNat

/-- The length of a window is a whole multiple of the period, up to rounding. -/
def checkMultiple (s : MacroSteps α) (period : α) : Except (ParameterError α) Unit :=
  let ratio := s.step / period
  if round ratio < 1 ∨ (1e-6 : α) < abs (ratio - round ratio) then
    .error (.stepNotMultiple s.step period)
  else .ok ()

/-- The windows, as parameters of a continuization. -/
def toContinuization (s : MacroSteps α) (sampling : Sampling α) (count : Nat) :
    Continuization α where
  sampled := sampling.sampled
  period := sampling.period
  blowup := s.blowup
  breakpoints := (List.range count).map fun (k : Nat) => ofInt (k + 1 : Nat) * s.step
  bloats := List.replicate count s.bloat
  target := .value

end MacroSteps

namespace Mode

variable {α : Type} [Scalar α]

/-- Gives the sampled variable the rate at which its law changes. -/
def followLaw (m : Mode α) (sampled : String) (law : Expr α) : Except (EvalError α) (Mode α) := do
  let rate ← law.lieDerivative (m.flows.map fun (name, rate) => (name, rate.expr))
  return m.setFlow sampled (.exact rate)

/-- Removes a variable from the invariant and the flow. -/
def withoutClock (m : Mode α) (clock : String) : Mode α :=
  { m with
    invariant := m.invariant.withoutConjunctsMentioning clock
    flow := m.flow.map (·.erase clock) }

/-- Puts the law in place of the sampled variable, except in the rate of that variable. -/
def inlineLaw (m : Mode α) (sampled : String) (law : Expr α) : Mode α :=
  { m.mapFlow fun name rate =>
      if name = sampled then rate else rate.mapExpr (·.substitute sampled law) with
    invariant := m.invariant.substitute sampled law }

end Mode

namespace Transition

variable {α : Type}

/-- Removes a variable from the guard and the new values. -/
def withoutClock (t : Transition α) (clock : String) : Transition α :=
  { t with
    guard := t.guard.withoutConjunctsMentioning clock
    reset := t.reset.erase clock }

end Transition

namespace Sampling

variable {α : Type} [Scalar α]

/-- Lets the sampled variable follow its laws. -/
def followLaws (s : Sampling α) (a : Automaton α) : Except (EvalError α) (Automaton α) :=
  s.laws.entries.foldlM
    (fun a (name, law) =>
      match a.mode? name with
      | some mode => do
          let mode ← mode.followLaw s.sampled law
          return a.modifyMode name fun _ => mode
      | none => return a)
    a

/-- Removes the loops, lets the sampled variable follow its laws, and removes the clock; it stays
declared if something else than the sampling needs it. -/
def removeLoops (s : Sampling α) (a : Automaton α) : Except (EvalError α) (Automaton α) := do
  let unlooped := { a with transitions := a.transitions.filter (!SamplingLoop.isCandidate ·) }
  let following ← s.followLaws unlooped
  let stripped : Automaton α :=
    { following with
      modes := following.modes.map fun mode => mode.withoutClock s.clock
      transitions := following.transitions.map fun t => t.withoutClock s.clock }
  return stripped.dropUnused s.clock

/-- The law that holds in each of the reported window modes. -/
def lawOfWindow (s : Sampling α) (report : List (WindowRange α)) : NameMap (Expr α) :=
  .ofList (report.filterMap fun r => (s.laws.find? r.mode).map fun law => (r.windowMode, law))

/-- Puts the laws in place of the sampled variable. -/
def inlineLaws (s : Sampling α) (laws : NameMap (Expr α)) (a : Automaton α) : Automaton α :=
  { a with
    modes := a.modes.mapWithKey fun name m =>
      match laws.find? name with
      | some law => m.inlineLaw s.sampled law
      | none => m
    transitions := a.transitions.map fun t =>
      match laws.find? t.source with
      | some law => t.mapExprs (·.substitute s.sampled law)
      | none => t }

end Sampling

namespace Model

variable {α : Type} [Scalar α]

/-- Continuizes a model that samples on a clock. Parameters are reported as those of `pass`. -/
def continuizeTimeTriggered (m : Model α) (s : MacroSteps α) (ctx : Context α) (pass : String) :
    Except (Failure α) (Model α × List (WindowRange α)) := do
  let count ← s.check m.settings.horizon pass
  let a ← m.automaton
  let sampling ← Sampling.read a ctx.tolerance
  Failure.ofPass pass (s.checkMultiple sampling.period)
  let unlooped ← sampling.removeLoops a
  let plain := (m.withAutomaton unlooped).mapRegions
    (·.withoutConjunctsMentioning sampling.clock)
  let (windowed, report) ←
    plain.continuize (s.toContinuization sampling count) ctx pass
  let inlined := sampling.inlineLaws (sampling.lawOfWindow report) (← windowed.automaton)
  return (windowed.withAutomaton inlined, report)

end Model

end HybridAutomata
