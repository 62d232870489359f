/-!
# Double precision numbers as whole numbers

A positive double precision number is `m * 2 ^ q` with `m < 2 ^ 53` and `-1074 ≤ q ≤ 971`. This
module goes both ways between such numbers, their 64-bit patterns, and quotients of natural numbers,
all in exact arithmetic, so that decimal texts can be read and written without rounding twice.
-/

namespace HybridAutomata

namespace Binary64

/-- The distance of neighbouring numbers below the normal range is `2 ^ minExponent`. -/
def minExponent : Int := -1074

/-- The number of patterns from a number of the normal range to the one twice its size: `2 ^ 52`. -/
def binade : Nat := 0x10000000000000

/-- The pattern whose only bit is the sign: `2 ^ 63`. -/
def signBit : Nat := 0x8000000000000000

/-- The bit pattern of infinity, and of the first quotient that rounds to it. -/
def infinityBits : Nat := 0x7FF * binade

/-- A power of ten. -/
def tenTo (n : Nat) : Nat := Nat.pow 10 n

/-- `num / den * 2 ^ (-q)` as a pair of natural numbers. -/
def shifted (num den : Nat) (q : Int) : Nat × Nat := (num <<< (-q).toNat, den <<< q.toNat)

/-- The whole number nearest to `num / den`; a half goes to the even neighbour. -/
def nearestEven (num den : Nat) : Nat :=
  let quotient := num / den
  let twice := 2 * (num % den)
  if twice > den || (twice == den && quotient % 2 == 1) then quotient + 1 else quotient

/-- The exponent at which `num / den` has 53 binary digits before the point, or the least one. -/
def exponentOf (num den : Nat) : Int :=
  let guess := max minExponent (Int.ofNat num.log2 - Int.ofNat den.log2 - 53)
  let (n, d) := shifted num den guess
  if 2 * binade ≤ n / d then guess + 1 else guess

/-- The bit pattern of the number nearest to the positive quotient `num / den`.

The significand is added to the shifted exponent rather than put beside it: a significand that
rounded up to `2 ^ 53` then carries into the exponent, which is the right number again. -/
def bitsOfQuotient (num den : Nat) : Nat :=
  let q := exponentOf num den
  let (n, d) := shifted num den q
  min infinityBits ((q - minExponent).toNat * binade + nearestEven n d)

/-- The significand and the exponent of a pattern whose sign bit is clear. -/
def significand (bits : Nat) : Nat :=
  if bits < binade then bits else binade + bits % binade

@[inherit_doc significand] def exponent (bits : Nat) : Int :=
  max 1 (bits / binade : Nat) - 1 + minExponent

end Binary64

end HybridAutomata
