import HybridAutomata.Pass.Builtin

/-!
# Registries and pipelines

A registry holds passes by their flags. A pipeline is a list of passes with their parameters, taken
from a registry before anything runs. It stops at the first failure; what was done until then stays.
-/

namespace HybridAutomata

/-- Passes by their flags. -/
structure Registry (α : Type) where
  passes : NameMap (Pass α) := ∅

namespace Registry

variable {α : Type}

/-- Adds a pass, unless its flag is taken. -/
def register (r : Registry α) (p : Pass α) : Except (Failure α) (Registry α) :=
  match r.passes.find? p.flag with
  | some other => .error (.parameters p.flag (.flagTaken other.title))
  | none => .ok ⟨r.passes.insert p.flag p⟩

/-- The pass with a flag. -/
def get (r : Registry α) (flag : String) : Except (Failure α) (Pass α) :=
  match r.passes.find? flag with
  | some p => .ok p
  | none => .error (.unknownPass flag)

/-- The registry of all passes of this library. -/
def builtin [Scalar α] : Registry α := ⟨.ofList (Pass.builtin.map fun p => (p.flag, p))⟩

def flags (r : Registry α) : List String := r.passes.keys

def titles (r : Registry α) : List String := r.passes.values.map Pass.title

/-- The flags, in a report. -/
def report (r : Registry α) : String := Text.bracketed (r.flags.map Text.quoted)

end Registry

/-- Passes with their parameters, in the order in which they run. -/
structure Pipeline (α : Type) where
  steps : List (Pass α × String) := []

namespace Pipeline

variable {α : Type}

/-- Appends the pass with a flag. -/
def push (p : Pipeline α) (r : Registry α) (flag parameters : String) :
    Except (Failure α) (Pipeline α) := do
  return ⟨p.steps ++ [(← r.get flag, parameters)]⟩

/-- Appends passes one after the other. -/
def pushAll (p : Pipeline α) (r : Registry α) (steps : List (String × String)) :
    Except (Failure α) (Pipeline α) :=
  steps.foldlM (fun p (flag, parameters) => p.push r flag parameters) p

def size (p : Pipeline α) : Nat := p.steps.length

def isEmpty (p : Pipeline α) : Bool := p.steps.isEmpty

/-- The passes and parameters, in a report. -/
def report (p : Pipeline α) : String :=
  Text.bracketed <| p.steps.map fun (pass, parameters) =>
    "(" ++ Text.quoted pass.flag ++ ", " ++ Text.quoted parameters ++ ")"

/-- Runs steps on a model. The model is the one reached, also if a step fails. -/
def runSteps [Scalar α] (ctx : Context α) (m : Model α) :
    List (Pass α × String) → Model α × Except (Failure α) Unit
  | [] => (m, .ok ())
  | (pass, parameters) :: steps =>
      match pass.run parameters ctx m with
      | .ok m' => runSteps ctx m' steps
      | .error failure => (m, .error failure)

/-- Runs all steps on a model. -/
def run [Scalar α] (p : Pipeline α) (ctx : Context α) (m : Model α) :
    Model α × Except (Failure α) Unit :=
  runSteps ctx m p.steps

end Pipeline

end HybridAutomata
