/-!
# Numbers

A model computes with numbers of some type `α`, and everything in this library that computes is
written over an arbitrary such type. The class below lists what is needed of it. It holds operations
and no laws: double precision numbers, which satisfy few, are an instance, and so is an ordered
field extended by infinities. A theorem asks for the laws that it uses.

Comparisons are those of the number type. An undefined number (the quotient of zero by zero, say)
differs from itself and is neither below nor above anything; the derived operations below say what
that means for them.
-/

namespace HybridAutomata

/-- The arithmetic of a type of numbers. -/
class Scalar (α : Type) extends Add α, Sub α, Mul α, Div α, Neg α, LE α, LT α, BEq α where
  decLe : DecidableLE α
  decLt : DecidableLT α
  /-- The number nearest to `mantissa * 10 ^ exponent`. -/
  ofDecimal (mantissa : Nat) (exponent : Int) : α
  /-- A number above every other. -/
  infinity : α
  abs : α → α
  /-- The least whole number that is not below the argument. -/
  ceil : α → α
  /-- The nearest whole number; a half goes away from zero. -/
  round : α → α
  /-- The whole part, moved into the range from `lo` to `hi`; zero for an undefined number. -/
  wholePart (lo hi : Int) : α → Int
  pi : α
  sin : α → α
  cos : α → α
  tan : α → α
  exp : α → α
  ln : α → α
  sqrt : α → α
  pow : α → α → α

attribute [reducible, instance] Scalar.decLe Scalar.decLt

/-- A written form for numbers. -/
class DecimalText (α : Type) where
  decimal : α → String

export DecimalText (decimal)

namespace Scalar

variable {α : Type} [Scalar α]

instance (priority := low) instOfNat {n : Nat} : OfNat α n := ⟨ofDecimal n 0⟩

instance (priority := low) instOfScientific : OfScientific α :=
  ⟨fun mantissa negative exponent =>
    ofDecimal mantissa (if negative then -(exponent : Int) else exponent)⟩

/-- Only an undefined number differs from itself. -/
@[inline] def isDefined (a : α) : Bool := a == a

/-- The smaller of two numbers; an undefined one yields to the other. -/
@[inline] def lesser (a b : α) : α := if a < b then a else if b == b then b else a

/-- The larger of two numbers; an undefined one yields to the other. -/
@[inline] def greater (a b : α) : α := if b < a then a else if b == b then b else a

/-- Neither infinite nor undefined. -/
@[inline] def isFinite (a : α) : Bool := decide (-infinity < a) && decide (a < infinity)

/-- Finite and above zero. -/
def isPositive (a : α) : Bool := isFinite a && decide (0 < a)

/-- Finite and not below zero. -/
def isNonNegative (a : α) : Bool := isFinite a && decide (0 ≤ a)

/-- Finite and without a fractional part. -/
def isWhole (a : α) : Bool := isFinite a && ceil a == a

/-- A whole number as a number. -/
def ofInt (n : Int) : α := if n < 0 then -ofDecimal n.natAbs 0 else ofDecimal n.natAbs 0

/-- The power `base ^ n` by repeated squaring: `acc` holds the factors taken so far. -/
def powWith (acc base : α) (n : Nat) : α :=
  let acc := if n % 2 = 1 then acc * base else acc
  if n < 2 then acc else powWith acc (base * base) (n / 2)
termination_by n

/-- The power `a ^ n` of a whole exponent, multiplied out in the order of the binary digits of
`n`. -/
def powNat (a : α) (n : Nat) : α := powWith 1 a n

end Scalar

end HybridAutomata
