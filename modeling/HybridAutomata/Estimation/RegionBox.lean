import HybridAutomata.Automaton.Basic
import HybridAutomata.Failure

/-!
# Boxes of regions

The box of a region is read off those top-level conjuncts that compare a variable with a term
without variables; other conjuncts are left aside. A variable without bounds is taken to be zero. A
variable with a bound on one side only, or with bounds that exclude each other, has no range.

From the box come the points at which estimates start: its center, and the points that move one
coordinate of the center to either face.
-/

namespace HybridAutomata

open Scalar

/-- Bounds on a variable, as far as they are known. Unlike an interval they may exclude each
other. -/
structure Limits (α : Type) where
  lower : α
  upper : α

/-- A comparison of a variable with a number. -/
structure SimpleBound (α : Type) where
  name : String
  op : Comparison
  value : α

variable {α : Type} [Scalar α]

namespace Limits

def unlimited : Limits α := ⟨-infinity, infinity⟩

/-- Takes a comparison into account. -/
def tighten (limits : Limits α) (op : Comparison) (value : α) : Limits α :=
  match op with
  | .eq => ⟨greater limits.lower value, lesser limits.upper value⟩
  | .le | .lt => { limits with upper := lesser limits.upper value }
  | .ge | .gt => { limits with lower := greater limits.lower value }
  | .ne => limits

/-- The range of a variable of a region with these limits. -/
def range (limits : Limits α) (region : Expr α) (name : String) :
    Except (Failure α) (Interval α) :=
  match isFinite limits.lower, isFinite limits.upper with
  | true, true =>
      match Interval.make? limits.lower limits.upper with
      | some i => .ok i
      | none => .error (.unsupported (.variable name) .contradictoryBounds)
  | false, false => .ok .zero
  | _, _ => .error (.unsupported (.variable name) (.boundedOnOneSide region))

end Limits

namespace Scope

/-- The value of a term without variables. -/
def constantValue? (s : Scope α) (e : Expr α) : Option α :=
  (e.eval fun name => (s.constants.find? name).map Interval.middle).toOption

/-- The bound that a conjunct puts on a variable. A variable on the left is looked at first. -/
def simpleBound? (s : Scope α) : Expr α → Option (SimpleBound α)
  | .binary (.compare op) l r => do
      if op = .ne then none
      else
        match l.var?.filter s.vars.contains, r.var?.filter s.vars.contains with
        | some name, _ => return ⟨name, op, ← s.constantValue? r⟩
        | none, some name => return ⟨name, op.converse, ← s.constantValue? l⟩
        | none, none => none
  | _ => none

/-- The limits that a list of bounds puts on a variable. -/
def limitsOf (name : String) (bounds : List (SimpleBound α)) : Limits α :=
  (bounds.filter (·.name == name)).foldl (fun limits b => limits.tighten b.op b.value) .unlimited

/-- The box of a region, with one interval per variable. -/
def regionBox (s : Scope α) (region : Expr α) : Except (Failure α) (List (Interval α)) :=
  let bounds := region.conjuncts.filterMap s.simpleBound?
  s.vars.toList.mapM fun name => (limitsOf name bounds).range region name

end Scope

namespace Box

/-- The middle of every interval. -/
def center (box : List (Interval α)) : List α := box.map Interval.middle

/-- The points that move one coordinate of the center to the lower and to the upper face. -/
def star (box : List (Interval α)) : List (List α) :=
  let middle := center box
  (box.mapIdx fun i x => [middle.set i x.min, middle.set i x.max]).flatten

end Box

end HybridAutomata
