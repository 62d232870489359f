import HybridAutomata.Decimal.Numeral

/-!
# Option grammars

The parameters of a pass, like those of the command itself, are options with values. A grammar
lists the options that are understood; everything shown about them, and everything that is accepted,
is read off that list.
-/

namespace HybridAutomata

/-- How many values follow an option. -/
inductive Arity where
  | none
  | exactly (n : Nat)
  | oneOrMore
deriving DecidableEq, Repr

/-- What a value may be. -/
inductive ValueKind where
  | text
  /-- A text that is not empty. -/
  | path
  | number
  /-- A natural number below `2 ^ 64`. -/
  | count
  | choice (allowed : List String)
deriving DecidableEq, Repr

/-- What an option does when it is met. -/
inductive OptionAction where
  /-- Sets its values; it may be given once. -/
  | set
  /-- Adds its values to those given before. -/
  | append
  | help
  | version
deriving DecidableEq, Repr

/-- When an option has to be given. -/
inductive Need where
  | optional
  | always
  /-- Always, except when another option is given. -/
  | unless (option : String)
deriving DecidableEq, Repr

/-- One option. -/
structure OptionSpec where
  /-- The long name, without the dashes. -/
  name : String
  short : Option Char := none
  arity : Arity := .exactly 1
  kind : ValueKind := .text
  /-- The names of the values in messages. -/
  placeholders : List String := []
  action : OptionAction := .set
  need : Need := .optional
  /-- Whether a value may begin with a dash. -/
  dashedValues : Bool := false
  summary : String := ""
  default : Option String := none
deriving Repr

/-- The options of one command. -/
structure OptionGrammar where
  options : List OptionSpec
  /-- Whether a negative number is taken as a value although it begins with a dash. -/
  negativeNumbers : Bool := false
deriving Repr

/-- Why a value is refused. -/
inductive ValueError where
  | emptyNumber
  | notANumber
  | emptyCount
  | notADigit
  | countTooLarge
  | notAChoice
  | emptyPath
deriving DecidableEq, Repr

def ValueError.message : ValueError → String
  | emptyNumber => "cannot parse float from empty string"
  | notANumber => "invalid float literal"
  | emptyCount => "cannot parse integer from empty string"
  | notADigit => "invalid digit found in string"
  | countTooLarge => "number too large to fit in target type"
  | notAChoice => "not one of the possible values"
  | emptyPath => "a value is required"

/-- The largest count, `2 ^ 64 - 1`. -/
def maxCount : Nat := 0xFFFFFFFFFFFFFFFF

/-- Reads digits on from `acc`; the first character that is no digit, or that makes the number too
large, decides. -/
def readDigits (acc : Nat) : List Char → Except ValueError Nat
  | [] => .ok acc
  | c :: cs =>
      if !c.isDigit then .error .notADigit
      else
        let n := 10 * acc + Numeral.digitValue c
        if maxCount < n then .error .countTooLarge else readDigits n cs

/-- A natural number below `2 ^ 64`, with or without a plus sign. -/
def readCount (text : String) : Except ValueError Nat :=
  match text.toList with
  | [] => .error .emptyCount
  | ['+'] => .error .notADigit
  | '+' :: digits => readDigits 0 digits
  | digits => readDigits 0 digits

/-- Whether a text is a value of some kind. -/
def ValueKind.check (kind : ValueKind) (value : String) : Except ValueError Unit :=
  match kind with
  | .text => .ok ()
  | .path => if value.isEmpty then .error .emptyPath else .ok ()
  | .number =>
      if value.isEmpty then .error .emptyNumber
      else if (Numeral.ofString? value).isSome then .ok ()
      else .error .notANumber
  | .count => (readCount value).map fun _ => ()
  | .choice allowed => if allowed.contains value then .ok () else .error .notAChoice

namespace OptionSpec

def takesValue (o : OptionSpec) : Bool := o.arity ≠ .none

/-- The option with its values, as messages and usage lines show it. -/
def display (o : OptionSpec) : String :=
  "--" ++ o.name ++ String.join (o.placeholders.map fun p => " <" ++ p ++ ">") ++
    (if o.arity = .oneOrMore then "..." else "")

/-- The left column of the help text. -/
def label (o : OptionSpec) : String :=
  match o.short with
  | some c => "  -" ++ c.toString ++ ", " ++ o.display
  | none => "      " ++ o.display

/-- The right column of the help text. -/
def description (o : OptionSpec) : String :=
  o.summary ++ (match o.default with
    | some value => " [default: " ++ value ++ "]"
    | none => "")

/-- The option that asks for the help text. -/
def help : OptionSpec :=
  { name := "help", short := some 'h', arity := .none, action := .help, summary := "Print help" }

/-- A switch. -/
def switch (name : String) (summary : String) (short : Option Char := none) : OptionSpec :=
  { name, short, arity := .none, summary }

end OptionSpec

namespace OptionGrammar

/-- The first line of the help text. -/
def usage (g : OptionGrammar) (command : String) : String :=
  let required := g.options.filter fun o => o.need = .always
  let rest := g.options.filter fun o => o.need ≠ .always && o.action ≠ .help
  "Usage: " ++ command ++ (if rest.isEmpty then "" else " [OPTIONS]") ++
    String.join (required.map fun o => " " ++ o.display)

/-- The lines of the help text: the usage, and one line per option with its description in a common
column. -/
def helpLines (g : OptionGrammar) (command : String) : List String :=
  let width := (g.options.map fun o => o.label.length).foldl max 0
  g.usage command :: "" :: "Options:" ::
    g.options.map fun o => o.label.pushn ' ' (width - o.label.length + 2) ++ o.description

end OptionGrammar

end HybridAutomata
