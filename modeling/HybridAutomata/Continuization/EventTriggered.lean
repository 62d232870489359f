import HybridAutomata.Continuization.Clock
import HybridAutomata.Continuization.Estimate
import HybridAutomata.Continuization.Windows

/-!
# Event-triggered continuization

The windows are given by breakpoints. The parameters are checked, the clock is put in place, the
estimator is asked, and the window modes are made; a failure at any point leaves no trace.
-/

namespace HybridAutomata

namespace Model

variable {α : Type} [Scalar α]

/-- Continuizes a model. Parameters are reported as those of `pass`. -/
def continuize (m : Model α) (c : Continuization α) (ctx : Context α) (pass : String) :
    Except (Failure α) (Model α × List (WindowRange α)) := do
  Failure.ofPass pass c.check
  let a ← m.automaton
  let modes ← a.continuizedModes c pass
  let source ← c.clockSource a pass
  let clocked := m.withClock a source
  let a ← clocked.automaton
  let ranges ← c.modeRanges ctx clocked a modes
  c.synthesize clocked a source.name ranges

end Model

end HybridAutomata
