import HybridAutomata.Continuization.Basic
import HybridAutomata.Automaton.Basic

/-!
# Sampling loops

A periodic controller shows in a model as a transition from a mode to itself: when a clock has
reached the period, it is set back to zero and the sampled variable is set to the value of its law,
which it then holds until the next time.
-/

namespace HybridAutomata

open Scalar

/-- A periodic sampling of a law. -/
structure SamplingLoop (α : Type) where
  mode : String
  clock : String
  period : α
  sampled : String
  law : Expr α

namespace Perturbed

variable {α : Type} [Scalar α]

/-- The number zero, exactly. -/
def isExactZero : Perturbed α → Bool
  | ⟨.num value, none⟩ => value == 0
  | _ => false

end Perturbed

namespace SamplingLoop

variable {α : Type} [Scalar α]

/-- Whether a transition has the shape of a loop that sets something. -/
def isCandidate (t : Transition α) : Bool := t.isSelfLoop && !t.reset.entries.isEmpty

/-- The clocks that a transition sets to zero. -/
def clocks (mode : Mode α) (t : Transition α) : List String :=
  (t.reset.filter fun name value => value.isExactZero && mode.isClock name).keys

/-- The right-hand side of a comparison of the clock with a period, if the conjunct is one. -/
def comparedWith? (clock : String) : Expr α → Option (Expr α)
  | .binary (.compare .ge) (.var name) rhs => if name = clock then some rhs else none
  | _ => none

/-- Reads the period off the conjuncts of a guard, continuing from what was read before. The last
comparison counts, and nothing else than `true` may stand beside it. -/
def readPeriod (clock : String) (period : Option α) :
    List (Expr α) → Except (Obstacle α) (Option α)
  | [] => .ok period
  | e :: es =>
      match comparedWith? clock e with
      | some rhs => readPeriod clock rhs.num? es
      | none =>
          if e.isTrue then readPeriod clock period es else .error (.notSamplingCondition e)

/-- The period of a guard. -/
def periodOf (clock : String) (guard : Expr α) : Except (Obstacle α) α := do
  match (← readPeriod clock none guard.conjuncts).filter isPositive with
  | some period => return period
  | none => throw (.periodMissing clock)

/-- The sampled variable and its law, among the values set beside the clock. -/
def sampledLaw (mode : Mode α) (clock : String) (t : Transition α) :
    Except (Obstacle α) (String × Expr α) :=
  match t.reset.entries.filter (·.1 != clock) with
  | [(name, law)] =>
      if ((mode.flowOf? name).any Perturbed.isExactZero) && law.isExact then .ok (name, law.expr)
      else .error (.sampledNotHeld name)
  | _ => .error .oneSampledExpected

/-- Reads a sampling loop off a transition. -/
def read (a : Automaton α) (t : Transition α) : Except (Obstacle α) (SamplingLoop α) :=
  match a.mode? t.source with
  | none => .error (.modeMissing t.source)
  | some mode =>
      match clocks mode t with
      | [clock] => do
          let period ← periodOf clock t.guard
          let (sampled, law) ← sampledLaw mode clock t
          return { mode := mode.name, clock, period, sampled, law }
      | _ => .error .oneClockExpected

/-- Two loops sample one variable on one clock with one period, up to a tolerance. -/
def agrees (tolerance : α) (first other : SamplingLoop α) : Bool :=
  other.clock == first.clock && other.sampled == first.sampled &&
    !decide (tolerance < abs (other.period - first.period))

end SamplingLoop

/-- The sampling of a model: one variable, clock and period, and a law per mode. -/
structure Sampling (α : Type) where
  clock : String
  sampled : String
  period : α
  laws : NameMap (Expr α)

namespace Sampling

variable {α : Type} [Scalar α]

/-- Collects the laws of loops, at most one per mode. -/
def collectLaws (laws : NameMap (Expr α)) :
    List (SamplingLoop α) → Except (Failure α) (NameMap (Expr α))
  | [] => .ok laws
  | l :: ls =>
      if laws.contains l.mode then .error (.unsupported (.mode l.mode .root) .severalLoops)
      else collectLaws (laws.insert l.mode l.law) ls

/-- Reads the sampling loops of an automaton, which have to agree with each other. -/
def read (a : Automaton α) (tolerance : α) : Except (Failure α) (Sampling α) := do
  let loops ← (a.transitions.filter SamplingLoop.isCandidate).mapM fun t =>
    (SamplingLoop.read a t).mapError (.unsupported (.transition t.source t.target .root))
  match loops with
  | [] => throw (.unsupported .configuration .noSamplingLoop)
  | first :: _ =>
      match loops.find? (!first.agrees tolerance ·) with
      | some other => throw (.unsupported (.mode other.mode .root) (.loopDiffers first.mode))
      | none =>
          return {
            clock := first.clock
            sampled := first.sampled
            period := first.period
            laws := ← collectLaws ∅ loops }

end Sampling

end HybridAutomata
