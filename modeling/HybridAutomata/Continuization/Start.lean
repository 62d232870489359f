import HybridAutomata.Estimation.Estimator
import HybridAutomata.Estimation.RegionBox

/-!
# Start points

Estimates start at the center of the start box of a mode and, if asked for, at its star points. An
initial mode has the box of its region. Another mode is entered from an initial one, and its start
points are those of that mode behind the resets of the transition.
-/

namespace HybridAutomata

variable {α : Type} [Scalar α]

/-- The state behind a transition. A new value that is known up to an interval is taken at its
middle. -/
def Transition.resetPoint (t : Transition α) (s : Scope α) (point : List α) :
    Except (EvalError α) (List α) :=
  (s.vars.toList.zip point).mapM fun (name, coordinate) =>
    match t.reset.find? name with
    | some value => do
        return (← value.expr.eval (s.valuation point)) +
          ((value.noise.map Interval.middle).getD 0)
    | none => .ok coordinate

namespace Model

/-- The points at which estimates for a region start. -/
def regionPoints (s : Scope α) (blowup : Bool) (region : Expr α) :
    Except (Failure α) (List (List α)) := do
  let box ← s.regionBox region
  return Box.center box :: if blowup then Box.star box else []

/-- The first transition that enters a mode from another one that is initial, with the region of
that mode. -/
def entry? (m : Model α) (a : Automaton α) (mode : String) : Option (Transition α × Expr α) :=
  a.transitions.findSome? fun t =>
    if t.target = mode ∧ t.source ≠ mode then
      (m.init.find? t.source).map fun region => (t, region)
    else none

/-- The points at which estimates for a mode start. -/
def startPoints (m : Model α) (a : Automaton α) (mode : String) (blowup : Bool) :
    Except (Failure α) (List (List α)) :=
  match m.init.find? mode with
  | some region => regionPoints a.toScope blowup region
  | none =>
      match m.entry? a mode with
      | some (t, region) => do
          let points ← regionPoints a.toScope blowup region
          (points.mapM (t.resetPoint a.toScope) : Except (EvalError α) (List (List α)))
      | none => .error (.unsupported (.mode mode .root) .noStartState)

end Model

end HybridAutomata
