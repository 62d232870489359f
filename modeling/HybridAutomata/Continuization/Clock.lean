import HybridAutomata.Continuization.Basic
import HybridAutomata.Model.Basic

/-!
# The clock of a continuization

Windows are told apart by a variable that measures time. One that already does so in every mode is
used; otherwise one is introduced, with rate one and starting at zero.
-/

namespace HybridAutomata

variable {α : Type} [Scalar α]

namespace Automaton

/-- The modes in which the sampled variable is replaced: those that are not urgent and give it a
rate. -/
def continuizedModes (a : Automaton α) (c : Continuization α) (pass : String) :
    Except (Failure α) (List String) :=
  if !a.vars.contains c.sampled then
    .error (.parameters pass (.undeclaredVariable c.sampled))
  else
    match a.modes.values.filter fun m => !m.urgent && (m.flowOf? c.sampled).isSome with
    | [] => .error (.unsupported (.variable c.sampled) .notInAnyFlow)
    | modes => .ok (modes.map Mode.name)

/-- The first mode in which time passes without the variable measuring it. -/
def clockFault? (a : Automaton α) (name : String) : Option (Mode α) :=
  a.modes.values.find? fun m => m.hasFlow && !m.isClock name

/-- The first variable, apart from one, that measures time in every mode. -/
def clockBeside? (a : Automaton α) (sampled : String) : Option String :=
  a.vars.toList.find? fun name => name != sampled && (a.clockFault? name).isNone

end Automaton

/-- Where the clock comes from. -/
inductive ClockSource where
  | existing (name : String)
  | introduced (name : String)
deriving DecidableEq, Repr

namespace ClockSource

def name : ClockSource → String
  | existing name => name
  | introduced name => name

end ClockSource

namespace Continuization

/-- Decides which variable measures time. -/
def clockSource (c : Continuization α) (a : Automaton α) (pass : String) :
    Except (Failure α) ClockSource :=
  match c.clock with
  | some name =>
      if name = c.sampled then .error (.parameters pass (.clockIsVariable name))
      else if a.vars.contains name then
        match a.clockFault? name with
        | some mode => .error (.parameters pass (.notAClock name mode.name))
        | none => .ok (.existing name)
      else .ok (.introduced name)
  | none =>
      match a.clockBeside? c.sampled with
      | some name => .ok (.existing name)
      | none => .ok (.introduced (firstFree (numbered "t") a.declared))

end Continuization

namespace Model

/-- Adds a variable that measures time: its rate is one wherever time passes, and it is zero at the
start. -/
def introduceClock (m : Model α) (a : Automaton α) (name : String) : Model α :=
  let a := (a.addVariable name).mapFlowing (·.setFlow name (.exact (.num 1)))
  { m.withAutomaton a with init := m.init.map (·.and (.eq (.var name) (.num 0))) }

/-- The model with its clock in place. -/
def withClock (m : Model α) (a : Automaton α) : ClockSource → Model α
  | .existing _ => m
  | .introduced name => m.introduceClock a name

end Model

end HybridAutomata
