import HybridAutomata.Scalar
import HybridAutomata.Decimal.Notation

/-!
# Double precision

The number type that the program runs with. Decimals are rounded once, to the nearest number;
numbers are written as the shortest decimal that reads back.
-/

namespace HybridAutomata

namespace Double

/-- The number nearest to `mantissa * 10 ^ exponent`.

A whole number below `2 ^ 53` is exact. A decimal at or above `10 ^ 310` is beyond every finite
number and one below `10 ^ (-330)` is nearer to zero than to any other, so that exponents of any
size are answered without large powers. -/
def ofDecimal (mantissa : Nat) (exponent : Int) : Float :=
  if mantissa = 0 then Float.ofBits 0
  else if exponent = 0 ∧ mantissa < 2 * Binary64.binade then Float.ofNat mantissa
  else
    let magnitude := Int.ofNat (Nat.toDigits 10 mantissa).length + exponent
    let bits :=
      if magnitude > 310 then Binary64.infinityBits
      else if magnitude < -330 then 0
      else
        Binary64.bitsOfQuotient (mantissa * Binary64.tenTo exponent.toNat)
          (Binary64.tenTo (-exponent).toNat)
    Float.ofBits (UInt64.ofNat bits)

/-- Whether the sign bit is set. -/
def isNegative (x : Float) : Bool := Binary64.signBit ≤ x.toBits.toNat

/-- The pattern without its sign bit. -/
def magnitudeBits (x : Float) : Nat := x.toBits.toNat % Binary64.signBit

/-- The whole part of a finite number. -/
def truncate (x : Float) : Int :=
  let bits := magnitudeBits x
  let m := Binary64.significand bits
  let q := Binary64.exponent bits
  let whole := m <<< q.toNat >>> (-q).toNat
  if isNegative x then -(whole : Int) else whole

@[inherit_doc Scalar.wholePart] def wholePart (lo hi : Int) (x : Float) : Int :=
  if x.isNaN then 0
  else if x.isInf then if isNegative x then lo else hi
  else max lo (min hi (truncate x))

/-- The sign, and the text of the magnitude. -/
def signed (x : Float) (text : String) : String := if isNegative x then "-" ++ text else text

/-- The text of a number, given how to write a positive decimal and zero. -/
def textWith (write : Decimal → String) (zero : String) (x : Float) : String :=
  if x.isNaN then "NaN"
  else if x.isInf then signed x "inf"
  else if magnitudeBits x = 0 then signed x zero
  else signed x (write (Binary64.shortest (magnitudeBits x)))

/-- Positional notation of the shortest decimal. -/
def text (x : Float) : String := textWith Decimal.positional "0" x

/-- Positional notation with a point in it. -/
def pointed (d : Decimal) : String :=
  if 0 ≤ d.exponent then d.positional ++ ".0" else d.positional

/-- Scientific notation from `10 ^ 16` on and below `10 ^ (-4)`, positional notation with a point
between. -/
def reportText (x : Float) : String :=
  textWith (fun d =>
    let leading := d.exponent + Int.ofNat ((Nat.toDigits 10 d.digits).length - 1)
    if leading ≥ 16 || leading < -4 then d.scientific else pointed d) "0.0" x

end Double

instance : Scalar Float where
  decLe := inferInstance
  decLt := inferInstance
  ofDecimal := Double.ofDecimal
  infinity := Float.ofBits (UInt64.ofNat Binary64.infinityBits)
  abs := Float.abs
  ceil := Float.ceil
  round := Float.round
  wholePart := Double.wholePart
  pi := Double.ofDecimal 3141592653589793 (-15)
  sin := Float.sin
  cos := Float.cos
  tan := Float.tan
  exp := Float.exp
  ln := Float.log
  sqrt := Float.sqrt
  pow := Float.pow

instance : DecimalText Float := ⟨Double.text⟩

end HybridAutomata
