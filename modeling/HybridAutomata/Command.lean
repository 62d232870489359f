import HybridAutomata.Model.Generate
import HybridAutomata.Model.Graph
import HybridAutomata.Pass.Registry

/-!
# The command

What the command does with its arguments, as far as it can be said without doing it: the files to
write, the text to print, and the exit code. A model is generated, checked, sent through a pipeline
of passes, and written out.
-/

namespace HybridAutomata

namespace Command

/-- The options of the command. -/
def grammar : OptionGrammar where
  options :=
    [{ name := "generate", arity := .exactly 2, placeholders := ["KIND", "PARAMS"]
       action := .append, need := .unless "list-passes"
       summary := "Model generator and its parameters" },
      { name := "pass", arity := .exactly 2, placeholders := ["FLAG", "PARAMS"]
        action := .append, dashedValues := true
        summary := "Pass to run, with its parameters (repeatable, runs in order)" },
      { name := "estimator", kind := .choice ["sim", "interval", "none"]
        placeholders := ["ESTIMATOR"], default := some "sim"
        summary := "Numeric backend for range estimation" },
      { name := "time-horizon", kind := .number, placeholders := ["FLOAT"]
        summary := "Override the time horizon of the generated model" },
      .switch "no-validate" "Skip the validation gate between passes",
      { name := "printer", kind := .choice ["default", "spaceex"], placeholders := ["PRINTER"]
        default := some "default", summary := "Operator spellings of the printed model" },
      { name := "dot", kind := .path, placeholders := ["FILE"]
        summary := "Write the final automaton as Graphviz to this file" },
      { name := "output", short := some 'o', kind := .path, placeholders := ["FILE"]
        summary := "Write the final model to this file instead of stdout" },
      .switch "list-passes" "List the available passes and exit",
      .switch "verbose" "Verbose output (info)" (some 'v'),
      .switch "debug" "Debug output" (some 'd'),
      OptionSpec.help,
      { name := "version", short := some 'V', arity := .none, action := .version
        summary := "Print version" }]

def name : String := "hybrid"

def versionLine : String := "hybrid-rs 0.1.0\n"

/-- What is to be done: files to write, in order, then a text to print, then an exit. -/
structure Response where
  code : UInt32 := 0
  files : List (String × String) := []
  output : String := ""
  /-- What is said about a failure. -/
  complaint : String := ""

/-- The exit code of a wrong command line. -/
def usageCode : UInt32 := 2

/-- The exit code when a file cannot be written. -/
def writeCode : UInt32 := 1

/-- The exit code of a failure. -/
def failureCode : FailureKind → UInt32
  | .parameters => 2
  | .invalid => 3
  | .backend => 4
  | .unsupported => 5
  | .parse => 6
  | .eval => 7
  | .fault => 101

/-- Lines as a text. -/
def unlines (lines : List String) : String := String.join (lines.map (· ++ "\n"))

/-- The values of an option that takes two, pair by pair. -/
def pairs : List String → List (String × String)
  | first :: second :: rest => (first, second) :: pairs rest
  | _ => []

variable {α : Type} [Scalar α]

/-- The list of passes with their parameters, and of generators. -/
def listing (r : Registry α) : String :=
  unlines <|
    (r.passes.values.flatMap fun p => (p.flag ++ " - " ++ p.title) :: p.help ++ [""]) ++
      ["generators: " ++ ", ".intercalate Model.generators]

/-- The estimator of a name. -/
def estimator (name : String) : Estimator α :=
  match name with
  | "interval" => .intervalPropagation Estimator.defaultStep
  | "none" => .unavailable "disabled on the command line"
  | _ => .simulation Estimator.defaultStep

/-- The context that the options ask for. -/
def context (options : Matches) : Context α :=
  { (Context.standard : Context α) with
    validation := !options.given "no-validate"
    printer := if options.text? "printer" = some "spaceex" then some .spaceEx else none
    estimator := estimator ((options.text? "estimator").getD "sim") }

/-- The model that the options ask for. -/
def generate (options : Matches) : Except (Failure α) (Model α) := do
  match pairs (options.values "generate") with
  | [(kind, parameters)] =>
      let m ← Model.generate kind parameters
      match (options.number? "time-horizon" : Option α) with
      | some horizon => return { m with settings := { m.settings with horizon } }
      | none => return m
  | _ => throw (.parameters "generate" .generatorExpected)

/-- Passes are looked up before a model is generated, and the model is checked before they run. -/
def transform (options : Matches) : Except (Failure α) (Model α) := do
  let pipeline ← ({} : Pipeline α).pushAll .builtin (pairs (options.values "pass"))
  let m ← generate options
  let ctx := context options
  ctx.validate m
  match pipeline.run ctx m with
  | (m, .ok ()) => return m
  | (_, .error failure) => throw failure

variable [DecimalText α]

/-- What to do with a model. -/
def deliver (options : Matches) (m : Model α) : Except (Failure α) Response := do
  let graph ← match options.text? "dot" with
    | some path => do pure [(path, ← m.graph {})]
    | none => pure []
  let text := (context options).renderModel m
  match options.text? "output" with
  | some path => return { files := graph ++ [(path, text)] }
  | none => return { files := graph, output := text }

variable (α) in
/-- The response to a command line that fits the grammar. -/
def respond (options : Matches) : Response :=
  if options.given "list-passes" then { output := listing (.builtin : Registry α) }
  else
    match (do deliver options (← transform options) : Except (Failure α) Response) with
    | .ok response => response
    | .error failure => { code := failureCode failure.kind, complaint := failure.message }

variable (α) in
/-- The response to the arguments, with numbers of type `α`. -/
def run (arguments : List String) : Response :=
  match grammar.readAll arguments with
  | .ok options => respond α options
  | .error .help => { output := unlines (grammar.helpLines name) }
  | .error .version => { output := versionLine }
  | .error e => { code := usageCode, complaint := "error: " ++ e.message }

end Command

end HybridAutomata
