import HybridAutomata.Dynamics.Trajectory

/-!
# Tubes

Boxes that enclose the trajectories from a start, span by span of a grid. Over a span of length `h`
that starts in the box `X`, a rough box around `X + [0, h] * F(X)`, slightly widened, is taken to
hold the states of the span; its rates `F` then give the box `X + [0, h] * F` of the span and the
box `X + h * F` at its end.
-/

namespace HybridAutomata

/-- A box that encloses the states during a span of time. -/
structure Segment (α : Type) where
  span : Interval α
  box : List (Interval α)

/-- Segments in the order of time, and why there are no further ones, if that has a reason. -/
structure Tube (α : Type) where
  segments : List (Segment α)
  failure : Option (Failure α) := none

namespace VectorField

variable {α : Type} [Scalar α]

/-- A box carried on by rates for a time that is known up to an interval. -/
def carried (elapsed : Interval α) (box rates : List (Interval α)) :
    Except (Fault α) (List (Interval α)) :=
  (box.zip rates).mapM fun (x, rate) => do x.add (← elapsed.mul rate)

/-- A coordinate that is left to move at a rate, with room to spare for the rate to change. -/
def roughly (elapsed x rate : Interval α) : Except (Fault α) (Interval α) := do
  let drift ← elapsed.mul rate
  let reached ← x.add drift
  (x.hull reached).bloat (1e-9 + 0.1 * drift.width)

/-- Ranges of the rates during a span that starts in a box. -/
def ratesDuring (f : VectorField α) (elapsed : Interval α) (box : List (Interval α)) :
    Except (Failure α) (List (Interval α)) := do
  let rates ← f.derivativeRange box
  let rough ← ((box.zip rates).mapM fun (x, rate) => roughly elapsed x rate :
    Except (Fault α) (List (Interval α)))
  f.derivativeRange rough

/-- The segment between two times and the ranges of the rates during it. -/
def segment (f : VectorField α) (mode : String) (box : List (Interval α)) (start stop : α) :
    Except (Failure α) (Segment α × List (Interval α)) := do
  let elapsed ← Interval.make 0 (stop - start)
  let rates ← f.ratesDuring elapsed box
  let enclosure ← carried elapsed box rates
  if enclosure.all Interval.isBounded then
    return (⟨← Interval.make start stop, enclosure⟩, rates)
  else throw (.backend (.enclosureLost mode stop))

/-- The box at the end of a span. -/
def boxAfter (box rates : List (Interval α)) (elapsed : α) :
    Except (Fault α) (List (Interval α)) := do
  carried (← Interval.point elapsed) box rates

/-- Follows the field from a box at a time along later times. The segments so far are `reached`, the
latest first. -/
def followBox (f : VectorField α) (mode : String) (reached : List (Segment α))
    (box : List (Interval α)) (time : α) : List α → Tube α
  | [] => ⟨reached.reverse, none⟩
  | stop :: stops =>
      match f.segment mode box time stop with
      | .error failure => ⟨reached.reverse, some failure⟩
      | .ok (segment, rates) =>
          match boxAfter box rates (stop - time) with
          | .error fault => ⟨(segment :: reached).reverse, some (.fault fault)⟩
          | .ok box' => followBox f mode (segment :: reached) box' stop stops

/-- The tube around the trajectory from a start along a grid. Its first segment is the start. -/
def tube (f : VectorField α) (mode : String) (start : List α) (grid : List α) :
    Except (Fault α) (Tube α) := do
  let box ← start.mapM Interval.point
  return f.followBox mode [⟨← Interval.point 0, box⟩] box (grid.headD 0) grid.tail

end VectorField

end HybridAutomata
