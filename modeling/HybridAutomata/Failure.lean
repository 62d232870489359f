import HybridAutomata.Component.Path
import HybridAutomata.Expr.Parser
import HybridAutomata.Expr.Range
import HybridAutomata.Option.Reader

/-!
# Failures

Everything that can go wrong with a model or a parameter, as causes. A failure says what it is
about (`Subject`) and what is wrong with it; the wording is given once, by the `message` functions.
The kind of a failure tells bad parameters from a broken model, a numeric backend that cannot
answer, a model that an operation does not support, and a formula that cannot be read or evaluated.
-/

namespace HybridAutomata

inductive RegionKind where
  | initial
  | forbidden
deriving DecidableEq, Repr

def RegionKind.adjective : RegionKind → String
  | initial => "initial"
  | forbidden => "forbidden"

/-- What a failure is about. Parts of a component are named with the place of the component, unless
that is the root. -/
inductive Subject where
  | configurationRoot
  | configuration
  | settings
  | variable (name : String)
  | constant (name : String) (owner : Path)
  | mode (name : String) (owner : Path)
  | transition (source target : String) (owner : Path)
  | child (path : Path)
  | region (kind : RegionKind) (mode : String)
deriving DecidableEq, Repr

namespace Subject

def ofComponent (owner : Path) (text : String) : String :=
  if owner.isRoot then text else text ++ " of component '" ++ owner.text ++ "'"

def text : Subject → String
  | configurationRoot => "configuration root"
  | configuration => "configuration"
  | settings => "settings"
  | .variable name => "variable '" ++ name ++ "'"
  | constant name owner => ofComponent owner ("constant '" ++ name ++ "'")
  | mode name owner => ofComponent owner ("mode '" ++ name ++ "'")
  | transition source target owner =>
      ofComponent owner ("transition '" ++ source ++ "' -> '" ++ target ++ "'")
  | child path => "instance '" ++ path.text ++ "'"
  | region kind name => kind.adjective ++ " region of mode '" ++ name ++ "'"

end Subject

/-- How a model breaks an integrity rule. -/
inductive Problem (α : Type) where
  | declaredTwice
  | storedElsewhere (name : String)
  | undeclaredReference (e : Expr α) (name : String)
  | undeclaredFlow (name : String)
  | undeclaredReset (name : String)
  | foreignMode (name : String)
  | missingTarget (name : String)
  | undeclaredParent (name : String)
  | undeclaredChild (name : String)
  | misplacedChild
  | noSuchMode
  | undeclaredPlot (name : String)
  | horizonNotPositive (horizon : α)

/-- A broken integrity rule. -/
structure Violation (α : Type) where
  subject : Subject
  problem : Problem α

/-- Why an operation does not apply to a model. -/
inductive Obstacle (α : Type) where
  | notFlat
  | noSuchMode
  | noFlow
  | notInStartFlow
  | contradictoryBounds
  | boundedOnOneSide (region : Expr α)
  | notInAnyFlow
  | noStartState
  | nameTaken
  | noFlowFor (name : String)
  | notAffine (target name : String)
  | horizonNotFinite (horizon : α)
  | noSamplingLoop
  | loopDiffers (mode : String)
  | severalLoops
  | modeMissing (name : String)
  | oneClockExpected
  | notSamplingCondition (e : Expr α)
  | periodMissing (clock : String)
  | oneSampledExpected
  | sampledNotHeld (name : String)
  | flowConflict (name : String)

/-- Why a numeric backend has no answer. -/
inductive BackendError (α : Type) where
  | unavailable (name mode reason : String)
  | invalidWindow (window : Interval α)
  | noSamples (window : Interval α)
  | notFinite (name : String) (time : α)
  | diverged (time : α)
  | startDimension (given expected : Nat)
  | enclosureLost (mode : String) (time : α)
  | rangeCount (estimator : String) (given expected : Nat)

/-- What is wrong with a parameter. -/
inductive ParameterError (α : Type) where
  | options (cause : OptionError)
  | noVariable
  | periodNotPositive (period : α)
  | noBreakpoints
  | breakpointsNotIncreasing (breakpoint : α)
  | bloatCount (bloats windows : Nat)
  | bloatNegative (bloat : α)
  | undeclaredVariable (name : String)
  | clockIsVariable (name : String)
  | notAClock (name mode : String)
  | stepNotPositive (step : α)
  | stepBloatNegative (bloat : α)
  | tooManyWindows (step horizon count : α) (limit : Nat)
  | stepNotMultiple (step period : α)
  | multiplierNotPositive (multiplier : α)
  | nameLimitTooSmall (limit : Nat)
  | flagTaken (title : String)
  | unknownGenerator (kind : String)
  | generatorExpected
  | malformedRow (row : String)
  | orderZero

/-- Everything that an operation on models can answer instead of a result. -/
inductive Failure (α : Type) where
  | parameters (pass : String) (cause : ParameterError α)
  | unknownPass (flag : String)
  | invalid (violation : Violation α)
  | backend (cause : BackendError α)
  | unsupported (subject : Subject) (obstacle : Obstacle α)
  | parse (cause : ParseError α)
  | eval (cause : EvalError α)
  | fault (cause : Fault α)

/-- The coarse classes of failures. -/
inductive FailureKind where
  | parameters
  | invalid
  | backend
  | unsupported
  | parse
  | eval
  | fault
deriving DecidableEq, Repr

namespace Failure

def kind {α : Type} : Failure α → FailureKind
  | parameters _ _ => .parameters
  | unknownPass _ => .parameters
  | invalid _ => .invalid
  | backend _ => .backend
  | unsupported _ _ => .unsupported
  | parse _ => .parse
  | eval _ => .eval
  | fault _ => .fault

def ofRangeError {α : Type} : RangeError α → Failure α
  | .undefined cause => .eval cause
  | .fault cause => .fault cause

end Failure

variable {α : Type}

instance : MonadLift (Except (Fault α)) (Except (Failure α)) := ⟨fun x => x.mapError .fault⟩
instance : MonadLift (Except (EvalError α)) (Except (Failure α)) := ⟨fun x => x.mapError .eval⟩
instance : MonadLift (Except (ParseError α)) (Except (Failure α)) := ⟨fun x => x.mapError .parse⟩
instance : MonadLift (Except (RangeError α)) (Except (Failure α)) :=
  ⟨fun x => x.mapError .ofRangeError⟩

/-- Fails on behalf of a pass. -/
def Failure.ofPass {β : Type} (pass : String) (x : Except (ParameterError α) β) :
    Except (Failure α) β := x.mapError (.parameters pass)

/-! ## Wording -/

variable [Scalar α] [DecimalText α]

def Problem.message : Problem α → String
  | declaredTwice => "declared both as variable and as constant"
  | storedElsewhere name => "stored under a different name than '" ++ name ++ "'"
  | undeclaredReference e name =>
      "'" ++ e.text ++ "' references undeclared variable '" ++ name ++ "'"
  | undeclaredFlow name => "flow defined for undeclared variable '" ++ name ++ "'"
  | undeclaredReset name => "reset assigns undeclared variable '" ++ name ++ "'"
  | foreignMode name => "mode '" ++ name ++ "' is not owned by this component"
  | missingTarget name => "target mode '" ++ name ++ "' does not exist"
  | undeclaredParent name => "maps to undeclared parent variable '" ++ name ++ "'"
  | undeclaredChild name => "maps undeclared child variable '" ++ name ++ "'"
  | misplacedChild => "child path does not match its instantiation"
  | noSuchMode => "no such mode"
  | undeclaredPlot name => "plot variable '" ++ name ++ "' is not declared"
  | horizonNotPositive horizon => "time horizon must be positive, got " ++ decimal horizon

def Violation.message (v : Violation α) : String :=
  "validation failed for " ++ v.subject.text ++ ": " ++ v.problem.message

def Obstacle.message : Obstacle α → String
  | notFlat => "expected a flat automaton, run the 'flatten' pass first"
  | noSuchMode => "no such mode"
  | noFlow => "mode has no flow dynamics"
  | notInStartFlow => "not present in the flow of the start mode"
  | contradictoryBounds => "region bounds are contradictory"
  | boundedOnOneSide region => "region '" ++ region.text ++ "' bounds it on one side only"
  | notInAnyFlow => "not present in any mode's flow"
  | noStartState =>
      "cannot derive a start state: not initial and not entered from an initial mode"
  | nameTaken => "name is already taken, cannot synthesize a window mode"
  | noFlowFor name => "no flow for '" ++ name ++ "'"
  | notAffine target name => "flow of '" ++ target ++ "' is not affine in '" ++ name ++ "'"
  | horizonNotFinite horizon =>
      "time horizon must be finite and positive, got " ++ decimal horizon
  | noSamplingLoop => "no periodic sampling self-loop found"
  | loopDiffers mode => "sampling loop differs from the one in mode '" ++ mode ++ "'"
  | severalLoops => "more than one sampling loop"
  | modeMissing name => "mode '" ++ name ++ "' does not exist"
  | oneClockExpected => "expected exactly one clock reset to 0"
  | notSamplingCondition e =>
      "guard conjunct '" ++ e.text ++ "' is not a sampling condition"
  | periodMissing clock => "guard must be '" ++ clock ++ " >= <period>'"
  | oneSampledExpected => "expected exactly one sampled variable"
  | sampledNotHeld name =>
      "sampled variable '" ++ name ++ "' must have flow 0 and an exact reset"
  | flowConflict name => "flow of '" ++ name ++ "' is defined by more than one component"

def BackendError.message : BackendError α → String
  | unavailable name mode reason =>
      "numeric backend unavailable: cannot estimate " ++ name ++ "' in mode '" ++ mode ++ "': " ++
        reason
  | invalidWindow window => "numeric backend failed: invalid time window " ++ window.text
  | noSamples window => "numeric backend failed: no samples inside window " ++ window.text
  | notFinite name time =>
      "numeric backend failed: derivative of '" ++ name ++ "' is not finite at t = " ++
        decimal time
  | diverged time => "numeric backend failed: simulation diverged at t = " ++ decimal time
  | startDimension given expected =>
      "numeric backend failed: start point has " ++ toString given ++
        " coordinates, the automaton has " ++ toString expected ++ " variables"
  | enclosureLost mode time =>
      "numeric backend failed: interval enclosure of mode '" ++ mode ++ "' blew up at t = " ++
        decimal time
  | rangeCount estimator given expected =>
      "numeric backend failed: '" ++ estimator ++ "' returned " ++ toString given ++
        " range(s) for " ++ toString expected ++ " window(s)"

def ParameterError.message : ParameterError α → String
  | options cause => cause.message
  | noVariable => "no variable to continuize"
  | periodNotPositive period => "period must be positive, got '" ++ decimal period ++ "'"
  | noBreakpoints => "at least one time breakpoint is required"
  | breakpointsNotIncreasing breakpoint =>
      "time breakpoints must be positive and strictly increasing, got '" ++ decimal breakpoint ++
        "'"
  | bloatCount bloats windows =>
      toString bloats ++ " bloat amount(s) given for " ++ toString windows ++ " time window(s)"
  | bloatNegative bloat => "bloat amounts must be non-negative, got '" ++ decimal bloat ++ "'"
  | undeclaredVariable name => "variable '" ++ name ++ "' is not declared"
  | clockIsVariable name =>
      "'" ++ name ++ "' cannot be both the continuized and the time variable"
  | notAClock name mode =>
      "time variable '" ++ name ++ "' does not have flow 1 in mode '" ++ mode ++ "'"
  | stepNotPositive step => "macro step must be positive, got '" ++ decimal step ++ "'"
  | stepBloatNegative bloat => "bloat amount must be non-negative, got '" ++ decimal bloat ++ "'"
  | tooManyWindows step horizon count limit =>
      "macro step " ++ decimal step ++ " splits the horizon " ++ decimal horizon ++ " into " ++
        decimal count ++ " windows, at most " ++ toString limit ++ " are supported"
  | stepNotMultiple step period =>
      "macro step " ++ decimal step ++ " is not a multiple of the sampling period " ++
        decimal period
  | multiplierNotPositive multiplier =>
      "multiplier must be positive, got '" ++ decimal multiplier ++ "'"
  | nameLimitTooSmall limit => "max length must be at least 4, got " ++ toString limit
  | flagTaken title => "flag is already registered by '" ++ title ++ "'"
  | unknownGenerator kind =>
      "unknown model generator '" ++ kind ++ "', expected one of [\"debug\", \"chain\"]"
  | generatorExpected => "expected a generator name and its parameters"
  | malformedRow row => "row '" ++ row ++ "' is not 'var = flow [: init]'"
  | orderZero => "order must be at least 1"

def Failure.message : Failure α → String
  | parameters pass cause => "invalid parameters for pass '" ++ pass ++ "': " ++ cause.message
  | unknownPass flag => "unknown pass '" ++ flag ++ "'"
  | invalid violation => violation.message
  | backend cause => cause.message
  | unsupported subject obstacle =>
      "unsupported model structure in " ++ subject.text ++ ": " ++ obstacle.message
  | parse cause => cause.message
  | eval cause => cause.message
  | fault cause => cause.message

end HybridAutomata
