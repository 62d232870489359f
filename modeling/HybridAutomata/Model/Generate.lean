import HybridAutomata.Model.Basic

/-!
# Generated models

Two ways to make a model without reading one from elsewhere. A table of rows, each with a variable,
its rate and its start, gives an automaton with a single mode. A chain of integrators is such a
table for a given number of variables.
-/

namespace HybridAutomata

/-- A variable with its rate and its start, as texts. -/
structure ModelRow where
  name : String
  flow : String
  start : String

namespace Model

variable {α : Type} [Scalar α]

/-- What is known of a row once its texts are read. -/
structure ReadRow (α : Type) where
  name : String
  flow : Expr α
  start : Expr α

/-- Reads a row. A start that is a number is the value of the variable; a condition stands for
itself. -/
def readRow (row : ModelRow) : Except (ParseError α) (ReadRow α) := do
  let name := Text.trim row.name
  let flow ← Expr.parse row.flow
  let start ← Expr.parse row.start
  return ⟨name, flow, if start.isCondition then start else .eq (.var name) start⟩

/-- The name of the only mode of a model made from rows. -/
def soleMode : String := "on"

/-- A model with one mode in which every row's variable has the row's rate, starting where all rows
say. -/
def ofRows (rows : List ModelRow) : Except (ParseError α) (Model α) := do
  let rows ← rows.mapM readRow
  let flow := NameMap.ofList (rows.map fun row => (row.name, Perturbed.exact row.flow))
  let automaton : Automaton α :=
    { vars := .ofList (rows.map (·.name))
      modes := .ofList [(soleMode, { name := soleMode, flow := some flow })] }
  return { ofComponent (.flat automaton) with
    init := .ofList [(soleMode, Expr.andAll (rows.map (·.start)))] }

/-- Reads a row `variable = flow : start`; the start may be left out and is then zero. -/
def rowOf (text : String) : Except (ParameterError α) ModelRow :=
  match Text.splitOnce? '=' text with
  | none => .error (.malformedRow text)
  | some (name, rest) =>
      let (flow, start) := (Text.splitOnce? ':' rest).getD (rest, "0")
      .ok ⟨Text.trim name, Text.trim flow, Text.trim start⟩

/-- Reads rows that are separated by semicolons; blank rows are skipped. -/
def rowsOf (text : String) : Except (ParameterError α) (List ModelRow) :=
  (((Text.split ';' text).map Text.trim).filter (!·.isEmpty)).mapM rowOf

/-- The variable at a position of an integrator chain. -/
def chainVariable (index : Nat) : String := "x" ++ toString (index + 1)

/-- The rate of the variable at a position: the next variable, and for the last one the opposite of
the sum of all. -/
def chainFlow (order index : Nat) : String :=
  if index + 1 < order then chainVariable (index + 1)
  else "-(" ++ " + ".intercalate ((List.range order).map chainVariable) ++ ")"

/-- The rows of a chain of integrators with feedback from all of them to the last, and a clock. -/
def chainRows (order : Nat) : List ModelRow :=
  (List.range order).map (fun index =>
    ⟨chainVariable index, chainFlow order index, if index = 0 then "1" else "0"⟩) ++
    [⟨"t", "1", "0"⟩]

/-- A chain of integrators. -/
def integratorChain (order : Nat) : Except (Failure α) (Model α) := do
  if order = 0 then throw (.parameters "chain" .orderZero)
  let m ← (ofRows (chainRows order) : Except (ParseError α) (Model α))
  return { m with settings := { m.settings with plot := ("t", chainVariable 0) } }

/-- The options of the chain generator. -/
def chainGrammar : OptionGrammar where
  options :=
    [{ name := "order", kind := .count, placeholders := ["INT"], need := .always },
      { name := "horizon", kind := .number, placeholders := ["FLOAT"] },
      OptionSpec.help]

/-- The names of the generators. -/
def generators : List String := ["debug", "chain"]

/-- The model that a generator makes from its parameters. -/
def generate (kind parameters : String) : Except (Failure α) (Model α) :=
  match kind with
  | "debug" => do
      let rows ← Failure.ofPass kind (rowsOf parameters)
      (ofRows rows : Except (ParseError α) (Model α))
  | "chain" => do
      let (order, horizon?) ← Failure.ofPass kind
        ((chainGrammar.decode
          (fun m => do return (← m.count? "order", (m.number? "horizon" : Option α)))
          (Text.words parameters)).mapError .options)
      let m ← integratorChain order
      match horizon? with
      | some horizon => return { m with settings := { m.settings with horizon } }
      | none => return m
  | _ => .error (.parameters "generate" (.unknownGenerator kind))

end Model

end HybridAutomata
