import HybridAutomata.Continuization.Basic
import HybridAutomata.Expr.Derivative
import HybridAutomata.Model.Basic

/-!
# Window modes

A continuized mode gives way to one copy per window. The rates in a copy allow for the sampling
error, its invariant keeps time inside the window and one period longer, and two urgent modes beside
it are entered when the estimated quantity leaves its range. A jump leads to the next window when
the window is over. A transition of the model is copied for every window; one that enters a
continuized mode from outside enters the window to which the time belongs.
-/

namespace HybridAutomata

variable {α : Type} [Scalar α]

/-- What is known of the mode for one window. -/
structure WindowPlan (α : Type) where
  index : Nat
  range : WindowRange α
  /-- How far the sampled variable can be from its law. -/
  deviation : Interval α
  /-- The next window of the mode. -/
  nextMode : Option String

namespace Continuization

/-! ## Ranges -/

/-- The numbers in `[-P, 0] * K`. -/
def deviation (c : Continuization α) (bloated : Interval α) :
    Except (Fault α) (Interval α) := do
  (← Interval.make (-c.period) 0).mul bloated

/-- The names made for a window are new, except that the first window keeps the name of its mode. -/
def checkNames (a : Automaton α) (mode windowMode : String) : Except (Failure α) Unit :=
  match
    [windowMode, lowerErrorName windowMode, upperErrorName windowMode].find? fun name =>
      name != mode && a.modes.contains name
  with
  | some name => .error (.unsupported (.mode name .root) .nameTaken)
  | none => .ok ()

/-! ## Modes -/

/-- A rate that allows for the deviation of the sampled variable. The rate has to be affine in that
variable; a rate that does not mention it stays. -/
def widenRate (c : Continuization α) (mode : String) (deviation : Interval α)
    (entry : String × Perturbed α) : Except (Failure α) (String × Perturbed α) :=
  if entry.2.expr.mentions c.sampled then
    match entry.2.expr.linearCoefficient? c.sampled with
    | some coefficient => do
        return (entry.1, ← entry.2.widen (← deviation.scale coefficient))
    | none => .error (.unsupported (.mode mode .root) (.notAffine entry.1 c.sampled))
  else .ok entry

/-- The flow of a window mode. -/
def widenFlow (c : Continuization α) (mode : String) (deviation : Interval α)
    (flow : NameMap (Perturbed α)) : Except (Failure α) (NameMap (Perturbed α)) := do
  return .ofList (← flow.entries.mapM (c.widenRate mode deviation))

/-- The invariant of a window mode. -/
def windowInvariant (c : Continuization α) (clock : String) (index : Nat) (window : Interval α)
    (invariant : Expr α) : Expr α :=
  let begun := if index = 0 then invariant else invariant.and (.ge (.var clock) (.num window.min))
  begun.and (.le (.var clock) (.num (window.max + c.period)))

/-- The mode for a window. -/
def windowMode (c : Continuization α) (clock name : String) (m : Mode α) (plan : WindowPlan α) :
    Except (Failure α) (Mode α) := do
  let flow ← match m.flow with
    | some flow => some <$> c.widenFlow name plan.deviation flow
    | none => pure none
  return { m with
    name := plan.range.windowMode
    flow
    invariant := c.windowInvariant clock plan.index plan.range.window m.invariant }

/-- The modes that stand for a window: the window mode, and the modes for a range that is left. -/
def modesOf (mode : Mode α) : List (String × Mode α) :=
  (mode.name, mode) ::
    [lowerErrorName mode.name, upperErrorName mode.name].map fun name => (name, Mode.instant name)

/-! ## Jumps -/

/-- The quantity whose estimate is watched. -/
def watched (c : Continuization α) (rate : Expr α) : Expr α :=
  match c.target with
  | .derivative => rate
  | .value => .var c.sampled

/-- The jumps that begin in a window mode because of its window. -/
def windowJumps (clock : String) (watched : Expr α) (plan : WindowPlan α) : List (Transition α) :=
  let name := plan.range.windowMode
  [{ source := name, target := lowerErrorName name
     guard := .lt watched (.num plan.range.bloated.min) },
    { source := name, target := upperErrorName name
      guard := .gt watched (.num plan.range.bloated.max) }] ++
    match plan.nextMode with
    | some next =>
        [{ source := name, target := next
           guard := .ge (.var clock) (.num plan.range.window.max) }]
    | none => []

/-- Time is inside a window. -/
def insideWindow (clock : String) (index : Nat) (window : Interval α) : Expr α :=
  let notOver := .le (.var clock) (.num window.max)
  if index = 0 then notOver else (Expr.ge (.var clock) (.num window.min)).and notOver

/-- A transition of the model, for every window. -/
def windowTransitions (clock : String) (windows : List (Interval α)) (continuized : String → Bool)
    (t : Transition α) : List (Transition α) :=
  match continuized t.source, continuized t.target with
  | true, true =>
      windows.mapIdx fun i _ =>
        { t with source := windowName t.source i, target := windowName t.target i }
  | true, false => windows.mapIdx fun i _ => { t with source := windowName t.source i }
  | false, true =>
      windows.mapIdx fun i window =>
        { t with
          target := windowName t.target i
          guard := t.guard.and (insideWindow clock i window) }
  | false, false => [t]

/-! ## Synthesis -/

/-- What takes the place of one mode: modes, jumps, and the ranges to report. -/
structure ModeWindows (α : Type) where
  modes : List (String × Mode α)
  jumps : List (Transition α) := []
  report : List (WindowRange α) := []

/-- The plan for a window of a mode. -/
def planWindow (c : Continuization α) (a : Automaton α) (mode : String) (index : Nat)
    (window range : Interval α) (bloat : α) : Except (Failure α) (WindowPlan α) := do
  let windowMode := windowName mode index
  checkNames a mode windowMode
  let bloated ← range.bloat bloat
  return {
    index
    range := { mode, windowMode, window, raw := range, bloated }
    deviation := ← c.deviation bloated
    nextMode :=
      if index + 1 < c.windows.length then some (windowName mode (index + 1)) else none }

/-- The modes and jumps for one window of a mode. -/
def expandWindow (c : Continuization α) (a : Automaton α) (clock name : String) (m : Mode α)
    (rate : Expr α) (index : Nat) (window range : Interval α) (bloat : α) :
    Except (Failure α) (ModeWindows α) := do
  let plan ← c.planWindow a name index window range bloat
  let mode ← c.windowMode clock name m plan
  return {
    modes := modesOf mode
    jumps := windowJumps clock (c.watched rate) plan
    report := [plan.range] }

/-- What takes the place of a mode with estimated ranges; a mode without any stays. -/
def expandMode (c : Continuization α) (a : Automaton α) (clock : String)
    (ranges : NameMap (List (Interval α))) (entry : String × Mode α) :
    Except (Failure α) (List (ModeWindows α)) :=
  match ranges.find? entry.1 with
  | none => .ok [{ modes := [entry] }]
  | some found =>
      match entry.2.flowOf? c.sampled with
      | none => .error (.unsupported (.mode entry.1 .root) (.noFlowFor c.sampled))
      | some rate =>
          ((c.windows.zip (found.zip c.bloats)).zipIdx).mapM
            fun ((window, range, bloat), index) =>
              c.expandWindow a clock entry.1 entry.2 rate.expr index window range bloat

/-- The forbidden regions of the window modes. -/
def forbiddenRegions (c : Continuization α) (continuized : String → Bool)
    (regions : NameMap (Expr α)) : NameMap (Expr α) :=
  .ofList <| regions.entries.flatMap fun (mode, region) =>
    (mode, region) ::
      if continuized mode then
        c.windows.tail.mapIdx fun i _ => (windowName mode (i + 1), region)
      else []

/-- Replaces every continuized mode, given the ranges of its windows. -/
def synthesize (c : Continuization α) (m : Model α) (a : Automaton α) (clock : String)
    (ranges : NameMap (List (Interval α))) :
    Except (Failure α) (Model α × List (WindowRange α)) := do
  let parts := (← a.modes.entries.mapM (c.expandMode a clock ranges)).flatten
  let transitions :=
    a.transitions.flatMap (windowTransitions clock c.windows ranges.contains) ++
      parts.flatMap ModeWindows.jumps
  let a' := { a with modes := .ofList (parts.flatMap ModeWindows.modes), transitions }
  let m' := { m.withAutomaton a' with forbidden := c.forbiddenRegions ranges.contains m.forbidden }
  return (m', parts.flatMap ModeWindows.report)

end Continuization

end HybridAutomata
