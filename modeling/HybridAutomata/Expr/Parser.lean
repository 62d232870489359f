import HybridAutomata.Expr.Token
import HybridAutomata.Expr.Printer

/-!
# Reading formulas

The grammar, from the loosest binding to the tightest:

```text
or      := and (('||' | '|') and)*
and     := not (('&&' | '&') not)*
not     := '!' not | cmp
cmp     := sum (cmpop sum)*            a <= x <= b  means  a <= x && x <= b
sum     := product (('+' | '-') product)*
product := unary (('*' | '/') unary)*
unary   := ('-' | '+') unary | power
power   := atom ('^' unary)?
atom    := number | 'true' | 'false' | ident | ident '(' args ')' | '(' or ')'
```

The parser works on tokens without positions. Every step answers with the tokens that are left and
the fact that they are fewer, which is what makes the recursion end. A refusal keeps the tokens from
the offending one on; the position is recovered from their number.
-/

namespace HybridAutomata

/-- What the parser wanted in place of a token. -/
inductive Expectation where
  | atom
  | rparen
  | singleMinus
  | endOfInput
deriving DecidableEq, Repr

def Expectation.message : Expectation → String
  | atom => "expected a number, a name or '('"
  | rparen => "expected ')'"
  | singleMinus => "ambiguous double negation, use parentheses"
  | endOfInput => "unexpected trailing input"

namespace Parser

variable {α : Type} [Scalar α]

/-- A refusal: the tokens that begin with the offending one, and what was wanted there. -/
structure Refusal (α : Type) where
  rest : List (Token α)
  wanted : Expectation

/-- A formula read from the front of `ts`, and the tokens behind it. -/
structure Parsed (ts : List (Token α)) where
  expr : Expr α
  rest : List (Token α)
  shorter : rest.length < ts.length

/-- Arguments read from the front of `ts`; the closing parenthesis is still to come. -/
structure Arguments (ts : List (Token α)) where
  args : List (Expr α)
  rest : List (Token α)
  shorter : rest.length < ts.length

/-- A continuation of a chain, which may be empty. -/
structure Extended (ts : List (Token α)) where
  expr : Expr α
  rest : List (Token α)
  noLonger : rest.length ≤ ts.length

/-- Formulas that continue a list, of which there may be none. -/
structure Continued (ts : List (Token α)) where
  exprs : List (Expr α)
  rest : List (Token α)
  noLonger : rest.length ≤ ts.length

abbrev Result (α : Type) := Except (Refusal α)

/-- The levels of the grammar that are chains of one group of binary operators. -/
inductive Level where
  | or
  | and
  | sum
  | product
deriving DecidableEq, Repr

/-- The operator that a sign stands for on a level. -/
def Level.operator? : Level → Symbol → Option BinaryOp
  | or, .orOr => some (.logic .or)
  | or, .or => some (.logic .or)
  | and, .andAnd => some (.logic .and)
  | and, .and => some (.logic .and)
  | sum, .plus => some (.arith .add)
  | sum, .minus => some (.arith .sub)
  | product, .times => some (.arith .mul)
  | product, .slash => some (.arith .div)
  | _, _ => none

/-- The comparison that a sign stands for. -/
def comparison? : Symbol → Option Comparison
  | .eqEq => some .eq
  | .eq => some .eq
  | .notEq => some .ne
  | .lessEq => some .le
  | .greaterEq => some .ge
  | .less => some .lt
  | .greater => some .gt
  | _ => none

/-- A minus sign in front of a literal becomes part of it. -/
def negated : Expr α → Expr α
  | .num value => .num (-value)
  | e => .neg e

/-- The tokens behind a closing parenthesis. -/
def closing (ts : List (Token α)) : Result α { rest : List (Token α) // rest.length < ts.length } :=
  match ts with
  | .rparen :: rest => .ok ⟨rest, by simp⟩
  | ts => .error ⟨ts, .rparen⟩

/-- The nesting of the levels: before it consumes a token, a level asks only lower ones. -/
def Level.rank : Level → Nat
  | product => 3
  | sum => 5
  | and => 9
  | or => 11

mutual

/-- A chain of one level. -/
def chain (level : Level) (ts : List (Token α)) : Result α (Parsed ts) := do
  let ⟨lhs, rest, _⟩ ← operand level ts
  let ⟨e, rest', _⟩ ← chainTail level lhs rest
  return ⟨e, rest', by omega⟩
termination_by (ts.length, level.rank + 1)

/-- What follows the first operand of a chain. -/
def chainTail (level : Level) (lhs : Expr α) (ts : List (Token α)) :
    Result α (Extended ts) :=
  match ts with
  | .symbol s :: more =>
      match level.operator? s with
      | some op => do
          let ⟨rhs, rest, _⟩ ← operand level more
          let ⟨e, rest', _⟩ ← chainTail level (.binary op lhs rhs) rest
          return ⟨e, rest', by simp only [List.length_cons]; omega⟩
      | none => .ok ⟨lhs, .symbol s :: more, Nat.le_refl _⟩
  | ts => .ok ⟨lhs, ts, Nat.le_refl _⟩
termination_by (ts.length, 0)

/-- An operand of a chain. -/
def operand (level : Level) (ts : List (Token α)) : Result α (Parsed ts) :=
  match level with
  | .or => chain .and ts
  | .and => negation ts
  | .sum => chain .product ts
  | .product => signed ts
termination_by (ts.length, level.rank)
decreasing_by all_goals decreasing_with decide

def negation (ts : List (Token α)) : Result α (Parsed ts) :=
  match ts with
  | .symbol .not :: more => do
      let ⟨e, rest, _⟩ ← negation more
      return ⟨.not e, rest, by simp only [List.length_cons]; omega⟩
  | ts => comparison ts
termination_by (ts.length, 8)

/-- A sum, or a chain of comparisons of sums, which stands for the conjunction of its links. -/
def comparison (ts : List (Token α)) : Result α (Parsed ts) := do
  let ⟨first, rest, _⟩ ← chain .sum ts
  let ⟨links, rest', _⟩ ← comparisonTail first rest
  return ⟨if links.isEmpty then first else Expr.andAll links, rest', by omega⟩
termination_by (ts.length, 7)
decreasing_by all_goals decreasing_with first | decide | omega

/-- The links of a chain of comparisons behind its first term. -/
def comparisonTail (lhs : Expr α) (ts : List (Token α)) : Result α (Continued ts) :=
  match ts with
  | .symbol s :: more =>
      match comparison? s with
      | some op => do
          let ⟨rhs, rest, _⟩ ← chain .sum more
          let ⟨links, rest', _⟩ ← comparisonTail rhs rest
          return ⟨.binary (.compare op) lhs rhs :: links, rest', by
            simp only [List.length_cons]; omega⟩
      | none => .ok ⟨[], .symbol s :: more, Nat.le_refl _⟩
  | ts => .ok ⟨[], ts, Nat.le_refl _⟩
termination_by (ts.length, 0)

/-- A term with signs in front. A minus sign directly behind a minus sign is refused. -/
def signed (ts : List (Token α)) : Result α (Parsed ts) :=
  match ts with
  | .symbol .minus :: .symbol .minus :: more =>
      .error ⟨.symbol .minus :: more, .singleMinus⟩
  | .symbol .minus :: more => do
      let ⟨e, rest, _⟩ ← signed more
      return ⟨negated e, rest, by simp only [List.length_cons]; omega⟩
  | .symbol .plus :: more => do
      let ⟨e, rest, _⟩ ← signed more
      return ⟨e, rest, by simp only [List.length_cons]; omega⟩
  | ts => power ts
termination_by (ts.length, 2)

def power (ts : List (Token α)) : Result α (Parsed ts) := do
  let ⟨base, rest, _⟩ ← atom ts
  let ⟨e, rest', _⟩ ← powerTail base rest
  return ⟨e, rest', by omega⟩
termination_by (ts.length, 1)

/-- The exponent behind a base, if there is one. -/
def powerTail (base : Expr α) (ts : List (Token α)) : Result α (Extended ts) :=
  match ts with
  | .symbol .caret :: more => do
      let ⟨exponent, rest, _⟩ ← signed more
      return ⟨.pow base exponent, rest, by simp only [List.length_cons]; omega⟩
  | ts => .ok ⟨base, ts, Nat.le_refl _⟩
termination_by (ts.length, 0)

def atom (ts : List (Token α)) : Result α (Parsed ts) :=
  match ts with
  | .number value :: rest => .ok ⟨.num value, rest, by simp⟩
  | .ident "true" :: rest => .ok ⟨.bool true, rest, by simp⟩
  | .ident "false" :: rest => .ok ⟨.bool false, rest, by simp⟩
  | .ident name :: .lparen :: .rparen :: rest =>
      .ok ⟨.call name [], rest, by simp only [List.length_cons]; omega⟩
  | .ident name :: .lparen :: more => do
      let ⟨args, rest, _⟩ ← arguments more
      let ⟨rest', _⟩ ← closing rest
      return ⟨.call name args, rest', by simp only [List.length_cons]; omega⟩
  | .ident name :: rest => .ok ⟨.var name, rest, by simp⟩
  | .lparen :: more => do
      let ⟨e, rest, _⟩ ← chain .or more
      let ⟨rest', _⟩ ← closing rest
      return ⟨e, rest', by simp only [List.length_cons]; omega⟩
  | ts => .error ⟨ts, .atom⟩
termination_by (ts.length, 0)

/-- One argument or more, with commas between. -/
def arguments (ts : List (Token α)) : Result α (Arguments ts) := do
  let ⟨e, rest, _⟩ ← chain .or ts
  let ⟨es, rest', _⟩ ← argumentsTail rest
  return ⟨e :: es, rest', by omega⟩
termination_by (ts.length, 13)
decreasing_by all_goals decreasing_with first | decide | omega

/-- The arguments behind the first, each after a comma. -/
def argumentsTail (ts : List (Token α)) : Result α (Continued ts) :=
  match ts with
  | .comma :: more => do
      let ⟨es, rest, _⟩ ← arguments more
      return ⟨es, rest, by simp only [List.length_cons]; omega⟩
  | ts => .ok ⟨[], ts, Nat.le_refl _⟩
termination_by (ts.length, 0)

end

/-- A formula that takes up all tokens. -/
def formula (ts : List (Token α)) : Result α (Expr α) := do
  let ⟨e, rest, _⟩ ← chain .or ts
  if rest.isEmpty then return e else throw ⟨rest, .endOfInput⟩

end Parser

/-- What kind of condition a text was to be. -/
inductive ConditionRole where
  | guard
  | invariant
  | region
deriving DecidableEq, Repr

def ConditionRole.noun : ConditionRole → String
  | guard => "guard"
  | invariant => "invariant"
  | region => "region"

/-- Why a text is refused. -/
inductive ParseError (α : Type) where
  /-- A character that begins no token. -/
  | unexpectedCharacter (offset : Nat) (text : String)
  /-- Digits and points that are no number. -/
  | invalidNumber (offset : Nat) (text : String)
  /-- A token, or the end of the text, where the grammar wants something else. -/
  | unexpected (offset : Nat) (found : Option (Token α)) (wanted : Expectation)
  /-- A formula that is a number where a condition is wanted. -/
  | numericTerm (text : String) (role : ConditionRole)

namespace ParseError

variable {α : Type} [DecimalText α]

def offset : ParseError α → Nat
  | unexpectedCharacter offset _ => offset
  | invalidNumber offset _ => offset
  | unexpected offset _ _ => offset
  | numericTerm _ _ => 0

/-- The text that the message points at. -/
def found : ParseError α → String
  | unexpectedCharacter _ text => text
  | invalidNumber _ text => text
  | unexpected _ token _ => (token.map Token.text).getD "<end>"
  | numericTerm text _ => text

def reason : ParseError α → String
  | unexpectedCharacter _ _ => "unexpected character"
  | invalidNumber _ _ => "invalid number"
  | unexpected _ _ wanted => wanted.message
  | numericTerm _ role => "expected a " ++ role.noun ++ ", found a numeric term"

def message (e : ParseError α) : String :=
  "parse error at offset " ++ toString e.offset ++ " near '" ++ e.found ++ "': " ++ e.reason

end ParseError

namespace Expr

variable {α : Type} [Scalar α]

/-- The position of a refusal: that of the first token it keeps, or the end of the text. -/
def refusalError (lexemes : List (Lexeme α)) (length : Nat) (refusal : Parser.Refusal α) :
    ParseError α :=
  match lexemes.drop (lexemes.length - refusal.rest.length) with
  | lexeme :: _ => .unexpected lexeme.offset (some lexeme.token) refusal.wanted
  | [] => .unexpected length none refusal.wanted

/-- The formula that a text stands for. -/
def parse (text : String) : Except (ParseError α) (Expr α) :=
  match Token.scan 0 text.toList with
  | .error e =>
      .error (if e.isNumber then .invalidNumber e.offset e.text
        else .unexpectedCharacter e.offset e.text)
  | .ok lexemes =>
      (Parser.formula (lexemes.map Lexeme.token)).mapError
        (refusalError lexemes text.utf8ByteSize)

/-- The condition that a text stands for. A guard or an invariant may be left empty and is then
always true. -/
def parseCondition (role : ConditionRole) (text : String) : Except (ParseError α) (Expr α) := do
  if role ≠ .region ∧ text.toList.all Text.isBlank then return .bool true
  let e ← parse text
  if e.isCondition then return e else throw (.numericTerm (Text.trim text) role)

end Expr

end HybridAutomata
