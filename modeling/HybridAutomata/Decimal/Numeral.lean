import HybridAutomata.Scalar

/-!
# Reading numbers

A numeral is what a text says about a number, before it is rounded: a sign and a decimal, an
infinity, or the undefined number. Reading a text is exact; rounding is left to the number type.
-/

namespace HybridAutomata

/-- A number as it is written. -/
inductive Numeral where
  | decimal (negative : Bool) (mantissa : Nat) (exponent : Int)
  | infinity (negative : Bool)
  | undefined
deriving DecidableEq, Repr

namespace Numeral

/-- The number that a digit stands for. -/
def digitValue (c : Char) : Nat := c.toNat - '0'.toNat

/-- The number with the given digits, continued from `acc`. -/
def digitsValue (acc : Nat) (digits : List Char) : Nat :=
  digits.foldl (fun n c => 10 * n + digitValue c) acc

/-- An exponent after its `e`: an optional sign and at least one digit. -/
def exponentOf? : List Char → Option Int
  | '-' :: digits => unsigned? digits |>.map fun n => -(n : Int)
  | '+' :: digits => unsigned? digits |>.map Int.ofNat
  | digits => unsigned? digits |>.map Int.ofNat
where
  unsigned? (digits : List Char) : Option Nat :=
    if !digits.isEmpty && digits.all Char.isDigit then some (digitsValue 0 digits) else none

/-- The characters after the digits of the significand: nothing, or an exponent. -/
def suffixOf? : List Char → Option Int
  | [] => some 0
  | c :: rest => if c == 'e' || c == 'E' then exponentOf? rest else none

/-- An unsigned decimal: digits with at most one point among them, at least one digit, and an
optional exponent. -/
def decimalOf? (negative : Bool) (text : List Char) : Option Numeral :=
  let whole := text.takeWhile Char.isDigit
  let afterWhole := text.dropWhile Char.isDigit
  let (fraction, rest) :=
    match afterWhole with
    | '.' :: more => (more.takeWhile Char.isDigit, more.dropWhile Char.isDigit)
    | _ => ([], afterWhole)
  if whole.isEmpty && fraction.isEmpty then none
  else
    (suffixOf? rest).map fun e =>
      .decimal negative (digitsValue (digitsValue 0 whole) fraction) (e - fraction.length)

/-- A number without its sign. The words for infinity and for the undefined number may be written
in any case. -/
def unsignedOf? (negative : Bool) (text : List Char) : Option Numeral :=
  let word := text.map Char.toLower
  if word = "inf".toList ∨ word = "infinity".toList then some (.infinity negative)
  else if word = "nan".toList then some .undefined
  else decimalOf? negative text

/-- The numeral that a text is, if it is one. -/
def ofList? : List Char → Option Numeral
  | '-' :: text => unsignedOf? true text
  | '+' :: text => unsignedOf? false text
  | text => unsignedOf? false text

@[inherit_doc ofList?] def ofString? (text : String) : Option Numeral := ofList? text.toList

/-- The number nearest to a numeral. -/
def toScalar {α : Type} [Scalar α] : Numeral → α
  | .decimal negative mantissa exponent =>
      if negative then -Scalar.ofDecimal mantissa exponent
      else Scalar.ofDecimal mantissa exponent
  | .infinity negative => if negative then -Scalar.infinity else Scalar.infinity
  | .undefined => Scalar.infinity - Scalar.infinity

end Numeral

/-- The number that a text stands for, if it is a numeral. -/
def Scalar.ofString? {α : Type} [Scalar α] (text : String) : Option α :=
  (Numeral.ofString? text).map Numeral.toScalar

end HybridAutomata
