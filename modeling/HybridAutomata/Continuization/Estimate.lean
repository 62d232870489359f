import HybridAutomata.Continuization.Basic
import HybridAutomata.Continuization.Start
import HybridAutomata.Context

/-!
# Estimates for a continuization

The estimator is asked once per mode and start point, and the answers for a mode are joined. As
estimators look at rates, the value of the sampled variable is estimated as the rate of an observer:
a fresh variable that grows at that value.
-/

namespace HybridAutomata

variable {α : Type} [Scalar α]

namespace Model

/-- The name of the observer of a variable. -/
def observerName (a : Automaton α) (sampled : String) : String :=
  firstFree (numbered (sampled ++ "_value")) a.declared

/-- Adds an observer of a variable. -/
def withObserver (m : Model α) (a : Automaton α) (sampled : String) : Model α :=
  let observer := observerName a sampled
  m.withAutomaton
    ((a.addVariable observer).mapFlowing (·.setFlow observer (.exact (.var sampled))))

end Model

namespace Continuization

/-- The start states of all modes. -/
def starts (c : Continuization α) (m : Model α) (a : Automaton α) (modes : List String) :
    Except (Failure α) (List (StartState α)) := do
  return (← modes.mapM fun mode => do
    return (← m.startPoints a mode c.blowup).map (StartState.mk mode)).flatten

/-- The estimates from all start states. -/
def estimateAll (c : Continuization α) (ctx : Context α) (m : Model α) (a : Automaton α)
    (starts : List (StartState α)) : Except (Failure α) (List (List (Interval α))) :=
  match c.target with
  | .derivative =>
      starts.mapM fun start => ctx.estimator.estimate m c.sampled start c.windows
  | .value =>
      starts.mapM fun start =>
        ctx.estimator.estimate (m.withObserver a c.sampled) (Model.observerName a c.sampled)
          { start with point := start.point ++ [0] } c.windows

/-- Adds the ranges found from a start state to those of its mode. -/
def joinRanges (found : NameMap (List (Interval α))) (mode : String) (ranges : List (Interval α)) :
    NameMap (List (Interval α)) :=
  match found.find? mode with
  | some known => found.insert mode (List.zipWith Interval.hull known ranges)
  | none => found.insert mode ranges

/-- Checks that an answer has a range per window. -/
def checkCount (ctx : Context α) (windows : Nat) (ranges : List (Interval α)) :
    Except (Failure α) Unit :=
  if ranges.length = windows then .ok ()
  else .error (.backend (.rangeCount ctx.estimator.name ranges.length windows))

/-- For every mode, the range per window over all its start points. -/
def modeRanges (c : Continuization α) (ctx : Context α) (m : Model α) (a : Automaton α)
    (modes : List String) : Except (Failure α) (NameMap (List (Interval α))) := do
  let starts ← c.starts m a modes
  let answers ← c.estimateAll ctx m a starts
  answers.forM (checkCount ctx c.windows.length)
  return (starts.zip answers).foldl
    (fun found (start, ranges) => joinRanges found start.mode ranges) ∅

end Continuization

end HybridAutomata
