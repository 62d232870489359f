import HybridAutomata.Automaton.Basic
import HybridAutomata.Failure

/-!
# Vector fields

The rates of a mode, as a function of the state. States list one value per variable of the
automaton, in the order of declaration. Uncertainty in a rate is left out, a variable without a rate
stands still, and a constant is taken at the middle of its interval; over boxes instead of states,
constants range over their intervals.
-/

namespace HybridAutomata

/-- The rates of one mode. -/
structure VectorField (α : Type) where
  scope : Scope α
  flow : NameMap (Perturbed α)

namespace VectorField

variable {α : Type}

/-- The vector field of a mode in which time passes. -/
def ofMode (a : Automaton α) (name : String) : Except (Failure α) (VectorField α) :=
  match a.mode? name with
  | none => .error (.unsupported (.mode name .root) .noSuchMode)
  | some mode =>
      match mode.flow with
      | none => .error (.unsupported (.mode name .root) .noFlow)
      | some flow => .ok ⟨a.toScope, flow⟩

def vars (f : VectorField α) : List String := f.scope.vars.toList

def dimension (f : VectorField α) : Nat := f.scope.vars.size

/-- The formula for the rate of a variable. -/
def rate? (f : VectorField α) (name : String) : Option (Expr α) :=
  (f.flow.find? name).map Perturbed.expr

variable [Scalar α]

/-- The value of a formula in a state. -/
@[specialize] def eval (f : VectorField α) (e : Expr α) (state : List α) :
    Except (EvalError α) α :=
  e.eval (f.scope.valuation state)

/-- The range of a formula over a box. -/
@[specialize] def range (f : VectorField α) (e : Expr α) (box : List (Interval α)) :
    Except (RangeError α) (Interval α) :=
  e.range (f.scope.ranging box)

/-- The rate of every variable in a state. -/
@[specialize] def derivative (f : VectorField α) (state : List α) : Except (EvalError α) (List α) :=
  f.vars.mapM fun name =>
    match f.rate? name with
    | some e => f.eval e state
    | none => .ok 0

/-- The range of every variable's rate over a box. -/
def derivativeRange (f : VectorField α) (box : List (Interval α)) :
    Except (RangeError α) (List (Interval α)) :=
  f.vars.mapM fun name =>
    match f.rate? name with
    | some e => f.range e box
    | none => .ok .zero

end VectorField

end HybridAutomata
