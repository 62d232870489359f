import HybridAutomata.Option.Grammar
import HybridAutomata.Text.Blank
import HybridAutomata.Text.ControlSequence

/-!
# Reading options

Tokens are read from left to right. An option waits for its values; these are checked when the next
known option is met or when the tokens end, so that an unknown token is reported before a bad value
to its left. A token that begins with a dash is never a value, except a negative number where the
grammar allows it and anything behind an option that takes dashed values. Behind a lone `--` no
token is an option any more. Messages quote tokens without what a terminal would not show.
-/

namespace HybridAutomata

/-- Why a list of tokens does not fit a grammar. -/
inductive OptionError where
  | unexpected (token : String)
  | valueMissing (option : OptionSpec)
  | wrongCount (option : OptionSpec) (expected given : Nat)
  | invalidValue (option : OptionSpec) (value : String) (cause : ValueError)
  | repeated (option : OptionSpec)
  | unneededValue (option : OptionSpec) (value : String)
  | missing (options : List OptionSpec)
  /-- The help text was asked for. -/
  | help
  /-- The version was asked for. -/
  | version

def OptionError.message : OptionError → String
  | unexpected token => "unexpected argument '" ++ Text.withoutControls token ++ "' found"
  | valueMissing option =>
      "a value is required for '" ++ option.display ++ "' but none was supplied"
  | wrongCount option expected given =>
      toString expected ++ " values required for '" ++ option.display ++ "' but " ++
        toString given ++ (if given = 1 then " was provided" else " were provided")
  | invalidValue option value cause =>
      "invalid value '" ++ Text.withoutControls value ++ "' for '" ++ option.display ++ "': " ++
        cause.message
  | repeated option => "the argument '" ++ option.display ++ "' cannot be used multiple times"
  | unneededValue option value =>
      "unexpected value '" ++ Text.withoutControls value ++ "' for '" ++ option.display ++
        "' found; no more were expected"
  | missing options =>
      "the following required arguments were not provided: " ++
        " ".intercalate (options.map OptionSpec.display)
  | help => ""
  | version => ""

/-- The options that were given, with their values, in order. -/
structure Matches where
  found : List (String × List String) := []

namespace Matches

def given (m : Matches) (name : String) : Bool := m.found.any (·.1 == name)

/-- All values of an option, over its occurrences. -/
def values (m : Matches) (name : String) : List String :=
  (m.found.filter (·.1 == name)).flatMap Prod.snd

def text? (m : Matches) (name : String) : Option String := (m.values name).head?

def count? (m : Matches) (name : String) : Option Nat :=
  (m.text? name).bind fun value => (readCount value).toOption

def number? {α : Type} [Scalar α] (m : Matches) (name : String) : Option α :=
  (m.text? name).bind Scalar.ofString?

def numbers? {α : Type} [Scalar α] (m : Matches) (name : String) : Option (List α) :=
  (m.values name).mapM Scalar.ofString?

end Matches

/-- Whether the characters behind a minus sign make a negative number: digits, with at most one
point that is not first, and at most one `e` or `E` that is neither first nor last, behind the
point. -/
def looksNumeric (cs : List Char) : Bool :=
  let behindWhole := cs.dropWhile Char.isDigit
  let hasWhole := cs.head?.any Char.isDigit
  let behindFraction := match behindWhole with
    | '.' :: rest => rest.dropWhile Char.isDigit
    | rest => rest
  hasWhole &&
    match behindFraction with
    | [] => true
    | 'e' :: rest | 'E' :: rest => !rest.isEmpty && rest.all Char.isDigit
    | _ => false

namespace OptionGrammar

/-- The state of reading. -/
structure Progress where
  matched : Matches := {}
  /-- The option met last, with the values that followed it so far. -/
  pending : Option (OptionSpec × List String) := none
  /-- Whether the pending option takes further values. -/
  isOpen : Bool := false
  /-- Whether a lone `--` was met. -/
  trailing : Bool := false

namespace Progress

/-- The number of values fits the option. -/
def checkCount (option : OptionSpec) (values : List String) : Except OptionError Unit :=
  match option.arity with
  | .none => .ok ()
  | .exactly n =>
      if values.isEmpty then .error (.valueMissing option)
      else if values.length ≠ n then .error (.wrongCount option n values.length)
      else .ok ()
  | .oneOrMore => if values.isEmpty then .error (.valueMissing option) else .ok ()

/-- The first value that the option refuses. -/
def checkValues (option : OptionSpec) : List String → Except OptionError Unit
  | [] => .ok ()
  | value :: values =>
      match option.kind.check value with
      | .ok () => checkValues option values
      | .error cause => .error (.invalidValue option value cause)

/-- Takes an option with its values: their number is checked first, then repetition, then each
value. -/
def take (p : Progress) (option : OptionSpec) (values : List String) :
    Except OptionError Progress := do
  checkCount option values
  match option.action with
  | .help => throw .help
  | .version => throw .version
  | .set => if p.matched.given option.name then throw (.repeated option)
  | .append => pure ()
  checkValues option values
  return { p with matched := ⟨p.matched.found ++ [(option.name, values)]⟩ }

/-- Takes the pending option, if there is one. -/
def settle (p : Progress) : Except OptionError Progress :=
  match p.pending with
  | none => .ok p
  | some (option, values) => { p with pending := none, isOpen := false }.take option values

/-- Starts an option that waits for values. -/
def await (p : Progress) (option : OptionSpec) : Except OptionError Progress := do
  return { ← p.settle with pending := some (option, []), isOpen := true }

/-- Takes an option that has all its values. -/
def complete (p : Progress) (option : OptionSpec) (values : List String) :
    Except OptionError Progress := do
  (← p.settle).take option values

/-- Adds a value to the pending option, or refuses the token. -/
def value (p : Progress) (token : String) : Except OptionError Progress :=
  match p.pending, p.isOpen with
  | some (option, values), true =>
      let values := values ++ [token]
      let more := match option.arity with
        | .oneOrMore => true
        | .exactly n => decide (values.length < n)
        | .none => false
      .ok { p with pending := some (option, values), isOpen := more }
  | _, _ => .error (.unexpected token)

/-- The option that waits for a value now. -/
def waiting? (p : Progress) : Option OptionSpec :=
  if p.isOpen then p.pending.map Prod.fst else none

end Progress

def findLong? (g : OptionGrammar) (name : String) : Option OptionSpec :=
  g.options.find? (·.name == name)

def findShort? (g : OptionGrammar) (c : Char) : Option OptionSpec :=
  g.options.find? (·.short == some c)

/-- A token `--name` or `--name=value`. -/
def readLong (g : OptionGrammar) (p : Progress) (body : List Char) : Except OptionError Progress :=
  let name := String.ofList (body.takeWhile (· ≠ '='))
  let attached := match body.dropWhile (· ≠ '=') with
    | [] => none
    | _ :: value => some (String.ofList value)
  match g.findLong? name with
  | none => .error (.unexpected ("--" ++ name))
  | some option =>
      match option.takesValue, attached with
      | true, some value => p.complete option [value]
      | true, none => p.await option
      | false, some value => .error (.unneededValue option value)
      | false, none => p.complete option []

/-- A token of short options, `-abc`: each letter is an option, and what follows one that takes a
value is that value. -/
def readShort (g : OptionGrammar) (p : Progress) : List Char → Except OptionError Progress
  | [] => .ok p
  | c :: rest =>
      match g.findShort? c with
      | none => .error (.unexpected ("-" ++ c.toString))
      | some option =>
          if option.takesValue then
            match rest with
            | [] => p.await option
            | '=' :: value => p.complete option [String.ofList value]
            | value => p.complete option [String.ofList value]
          else do readShort g (← p.complete option []) rest

/-- Reads one token. -/
def read (g : OptionGrammar) (p : Progress) (token : String) : Except OptionError Progress :=
  let dashed := (p.waiting?.map (·.dashedValues)).getD false
  if p.trailing then .error (.unexpected token)
  else if dashed then p.value token
  else
    match token.toList with
    | ['-', '-'] => .ok { p with trailing := true }
    | '-' :: '-' :: body => g.readLong p body
    | ['-'] => p.value token
    | '-' :: body =>
        if g.negativeNumbers && p.waiting?.isSome && looksNumeric body then p.value token
        else g.readShort p body
    | _ => p.value token

/-- The options that are needed and were not given. -/
def lacking (g : OptionGrammar) (m : Matches) : List OptionSpec :=
  g.options.filter fun o =>
    !m.given o.name &&
      match o.need with
      | .optional => false
      | .always => true
      | .unless other => !m.given other

/-- Reads a list of tokens. -/
def readAll (g : OptionGrammar) (tokens : List String) : Except OptionError Matches := do
  let p ← (← tokens.foldlM (read g) {}).settle
  match g.lacking p.matched with
  | [] => return p.matched
  | options => throw (.missing options)

/-- Reads a list of tokens and decodes the options. The decoder can rely on every needed option
being present with values of its kind. -/
def decode {β : Type} (g : OptionGrammar) (decoder : Matches → Option β) (tokens : List String) :
    Except OptionError β := do
  match decoder (← g.readAll tokens) with
  | some value => return value
  | none => throw (.missing [])

end OptionGrammar

end HybridAutomata
