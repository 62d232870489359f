import HybridAutomata.Continuization.TimeTriggered
import HybridAutomata.Pass.Basic
import HybridAutomata.Transform.Cone
import HybridAutomata.Transform.Constants
import HybridAutomata.Transform.Flatten
import HybridAutomata.Transform.Jumps
import HybridAutomata.Transform.ModeNames
import HybridAutomata.Transform.Simplified
import HybridAutomata.Transform.TimeScale
import HybridAutomata.Transform.Unsatisfiable

/-!
# The passes

The transformations of this library with their flags and parameters.
-/

namespace HybridAutomata

namespace Pass

variable {α : Type} [Scalar α]

/-- An option with one number that has to be given. -/
def numberOption (name summary : String) : OptionSpec :=
  { name, kind := .number, placeholders := ["FLOAT"], need := .always, summary }

/-- An option with one or more values that has to be given and may be repeated. -/
def listOption (name placeholder : String) (kind : ValueKind) (summary : String) : OptionSpec :=
  { name, arity := .oneOrMore, kind, placeholders := [placeholder], action := .append
    need := .always, summary }

/-- Whether estimates start at more than one point. -/
def blowupOption : OptionSpec :=
  OptionSpec.switch "blowup" "Also simulate from the corners of the initial box"

/-- A pass without parameters. -/
def plain (flag title : String) (transformation : Model α → Except (Failure α) (Model α)) :
    Pass α :=
  ofOptions flag title { options := [OptionSpec.help] } fun _ => some fun _ m => transformation m

def subConstants : Pass α :=
  plain "sub_constants" "Substitute Constants" fun m => .ok m.substituteConstants

def simplify : Pass α := plain "simplify" "Simplify Expressions" fun m => .ok m.simplify

def flatten : Pass α := plain "flatten" "Flatten Automaton" Model.flatten

def orderReduction : Pass α :=
  ofOptions "order_reduction" "Order Reduction"
    { options := [listOption "keep" "VAR" .text "Variables to keep", OptionSpec.help] }
    fun options => some fun _ m => m.reduceTo (options.values "keep") "order_reduction"

def identityResets : Pass α :=
  plain "identity_resets" "Add Identity Resets" Model.withIdentityResets

def splitDisjunctions : Pass α :=
  plain "split_disjunctions" "Split Disjunction Guards" Model.splitDisjunctions

def continuize : Pass α :=
  ofOptions "continuize" "Continuization"
    { options :=
        [{ name := "var", placeholders := ["VAR"], need := .always
           summary := "Variable to continuize" },
          { name := "timevar", placeholders := ["VAR"]
            summary := "Clock tracking global time (found or introduced if omitted)" },
          numberOption "period" "Sampling period of the controller",
          blowupOption,
          listOption "times" "FLOAT" .number
            "Upper bounds of the time windows, strictly increasing",
          listOption "bloats" "FLOAT" .number "Bloat amount for each time window",
          OptionSpec.help]
      negativeNumbers := true }
    fun options => do
      let c : Continuization α :=
        { sampled := ← options.text? "var"
          clock := options.text? "timevar"
          period := ← options.number? "period"
          blowup := options.given "blowup"
          breakpoints := ← options.numbers? "times"
          bloats := ← options.numbers? "bloats" }
      return fun ctx m => do return (← m.continuize c ctx "continuize").1

def continuizeTimeTriggered : Pass α :=
  ofOptions "continuize_tt" "Time-Triggered Continuization"
    { options :=
        [blowupOption,
          numberOption "step" "Macro time step, a multiple of the sampling period",
          numberOption "bloat" "Bloat amount for every macro window",
          OptionSpec.help]
      negativeNumbers := true }
    fun options => do
      let s : MacroSteps α :=
        { blowup := options.given "blowup"
          step := ← options.number? "step"
          bloat := ← options.number? "bloat" }
      return fun ctx m => do return (← m.continuizeTimeTriggered s ctx "continuize_tt").1

def timeScale : Pass α :=
  ofOptions "time_scale" "Scale Time"
    { options :=
        [numberOption "multiplier" "Factor every flow is multiplied by", OptionSpec.help]
      negativeNumbers := true }
    fun options => do
      let factor ← options.number? "multiplier"
      return fun _ m => m.scaleTime factor "time_scale"

/-- The limit on mode names unless another one is given. -/
def defaultNameLimit : Nat := 16

def shortenModeNames : Pass α :=
  ofOptions "shorten_mode_names" "Shorten Mode Names"
    { options :=
        [{ name := "max-len", kind := .count, placeholders := ["INT"]
           summary := "Longest mode name kept as is"
           default := some (toString defaultNameLimit) },
          OptionSpec.help] }
    fun options => some fun _ m =>
      m.shortenModeNames ((options.count? "max-len").getD defaultNameLimit) "shorten_mode_names"

def removeUnsatInvariants : Pass α :=
  plain "remove_unsat_invariants" "Remove Simple Unsat Invariants" fun m =>
    .ok m.withoutImpossibleModes

/-- All passes, in the order in which they are listed. -/
def builtin : List (Pass α) :=
  [subConstants, simplify, flatten, orderReduction, identityResets, splitDisjunctions, continuize,
    continuizeTimeTriggered, timeScale, shortenModeNames, removeUnsatInvariants]

end Pass

end HybridAutomata
