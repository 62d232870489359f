import HybridAutomata.Expr.Basic
import HybridAutomata.Decimal.Numeral
import HybridAutomata.Text.Blank

/-!
# Tokens

A text is cut into tokens before it is parsed. Numbers run over digits and points and may carry an
exponent; names may contain points, so that a name qualified by the instance it belongs to is one
token. Positions count bytes of the UTF-8 encoding.
-/

namespace HybridAutomata

/-- The operator signs. -/
inductive Symbol where
  | andAnd
  | orOr
  | eqEq
  | notEq
  | lessEq
  | greaterEq
  | and
  | or
  | eq
  | less
  | greater
  | not
  | plus
  | minus
  | times
  | slash
  | caret
deriving DecidableEq, Repr

namespace Symbol

def text : Symbol → String
  | andAnd => "&&"
  | orOr => "||"
  | eqEq => "=="
  | notEq => "!="
  | lessEq => "<="
  | greaterEq => ">="
  | and => "&"
  | or => "|"
  | eq => "="
  | less => "<"
  | greater => ">"
  | not => "!"
  | plus => "+"
  | minus => "-"
  | times => "*"
  | slash => "/"
  | caret => "^"

/-- The sign at the front of a text, and what follows it; a longer sign is preferred. -/
def scan? : List Char → Option (Symbol × List Char)
  | '&' :: '&' :: rest => some (andAnd, rest)
  | '|' :: '|' :: rest => some (orOr, rest)
  | '=' :: '=' :: rest => some (eqEq, rest)
  | '!' :: '=' :: rest => some (notEq, rest)
  | '<' :: '=' :: rest => some (lessEq, rest)
  | '>' :: '=' :: rest => some (greaterEq, rest)
  | '&' :: rest => some (and, rest)
  | '|' :: rest => some (or, rest)
  | '=' :: rest => some (eq, rest)
  | '<' :: rest => some (less, rest)
  | '>' :: rest => some (greater, rest)
  | '!' :: rest => some (not, rest)
  | '+' :: rest => some (plus, rest)
  | '-' :: rest => some (minus, rest)
  | '*' :: rest => some (times, rest)
  | '/' :: rest => some (slash, rest)
  | '^' :: rest => some (caret, rest)
  | _ => none

theorem length_of_scan? {cs rest : List Char} {s : Symbol} (h : scan? cs = some (s, rest)) :
    rest.length < cs.length := by
  unfold scan? at h
  split at h <;> cases h <;> simp only [List.length_cons] <;> omega

end Symbol

inductive Token (α : Type) where
  | number (value : α)
  | ident (name : String)
  | symbol (s : Symbol)
  | lparen
  | rparen
  | comma

/-- A token and the byte at which it starts. -/
structure Lexeme (α : Type) where
  token : Token α
  offset : Nat

/-- Why a text is not a sequence of tokens: the position, the text there, and whether it began like
a number. -/
structure ScanError where
  offset : Nat
  text : String
  isNumber : Bool

/-- The written form of a token in messages. -/
def Token.text {α : Type} [DecimalText α] : Token α → String
  | .number value => decimal value
  | .ident name => name
  | .symbol s => s.text
  | .lparen => "("
  | .rparen => ")"
  | .comma => ","

namespace Token

/-- Characters between tokens. -/
def isGap (c : Char) : Bool :=
  c == ' ' || c == '\t' || c == '\n' || c == '\x0c' || c == '\r'

def isNameStart (c : Char) : Bool := c.isAlpha || c == '_'

def isNameChar (c : Char) : Bool := c.isAlphanum || c == '_' || c == '.'

def isNumberChar (c : Char) : Bool := c.isDigit || c == '.'

/-- Whether a number starts here: at a digit, or at a point before a digit. -/
def startsNumber : List Char → Bool
  | '.' :: c :: _ => c.isDigit
  | c :: _ => c.isDigit
  | [] => false

/-- The length of the exponent at the front of a text, zero if there is none. -/
def exponentLength : List Char → Nat
  | e :: rest =>
      if e == 'e' || e == 'E' then
        let signed := match rest with
          | s :: _ => s == '+' || s == '-'
          | [] => false
        let digits := ((if signed then rest.drop 1 else rest).takeWhile Char.isDigit).length
        if digits = 0 then 0 else digits + (if signed then 2 else 1)
      else 0
  | [] => 0

/-- The number of characters of the number at the front of a text. -/
def numberLength (cs : List Char) : Nat :=
  (cs.takeWhile isNumberChar).length + exponentLength (cs.dropWhile isNumberChar)

/-- The number of bytes in the encoding of some characters. -/
def byteLength (cs : List Char) : Nat := cs.foldl (fun n c => n + c.utf8Size) 0

theorem length_takeWhile_pos {p : Char → Bool} {c : Char} {cs : List Char} (h : p c = true) :
    0 < ((c :: cs).takeWhile p).length := by simp [h]

theorem numberLength_pos {c : Char} {cs : List Char} (h : startsNumber (c :: cs) = true) :
    0 < numberLength (c :: cs) := by
  have hc : isNumberChar c = true := by
    unfold startsNumber at h
    split at h
    · rename_i heq
      cases heq
      rfl
    · rename_i heq
      cases heq
      simp [isNumberChar, h]
    · simp at h
  have : 0 < ((c :: cs).takeWhile isNumberChar).length := length_takeWhile_pos hc
  simp only [numberLength]
  omega

/-- The tokens of a text that starts at a byte position. -/
def scan {α : Type} [Scalar α] (offset : Nat) (cs : List Char) :
    Except ScanError (List (Lexeme α)) :=
  match cs with
  | [] => .ok []
  | c :: rest =>
      if isGap c then scan (offset + c.utf8Size) rest
      else if _hn : startsNumber (c :: rest) = true then
        let n := numberLength (c :: rest)
        let word := (c :: rest).take n
        match Numeral.ofList? word with
        | some numeral => do
            return ⟨.number numeral.toScalar, offset⟩ ::
              (← scan (offset + byteLength word) ((c :: rest).drop n))
        | none => .error ⟨offset, String.ofList word, true⟩
      else if isNameStart c then do
        let tail := rest.takeWhile isNameChar
        return ⟨.ident (String.ofList (c :: tail)), offset⟩ ::
          (← scan (offset + byteLength (c :: tail)) (rest.dropWhile isNameChar))
      else if c = '(' then do
        return ⟨.lparen, offset⟩ :: (← scan (offset + 1) rest)
      else if c = ')' then do
        return ⟨.rparen, offset⟩ :: (← scan (offset + 1) rest)
      else if c = ',' then do
        return ⟨.comma, offset⟩ :: (← scan (offset + 1) rest)
      else
        match hs : Symbol.scan? (c :: rest) with
        | some (s, after) => do
            return ⟨.symbol s, offset⟩ :: (← scan (offset + s.text.utf8ByteSize) after)
        | none => .error ⟨offset, c.toString, false⟩
termination_by cs.length
decreasing_by
  · simp
  · have := numberLength_pos _hn
    simp only [List.length_drop, List.length_cons]
    omega
  · have := Text.length_dropWhile_le isNameChar rest
    simp only [List.length_cons]
    omega
  · simp
  · simp
  · simp
  · exact Symbol.length_of_scan? hs

end Token

end HybridAutomata
