import HybridAutomata.Decimal.Shortest

/-!
# Written decimals

The program writes numbers in positional notation, however large or small they are. One report asks
for scientific notation of very large and very small values; `Decimal.scientific` writes it.
-/

namespace HybridAutomata

namespace Decimal

/-- The digits of `n` in base ten. -/
def digitText (n : Nat) : String := String.ofList (Nat.toDigits 10 n)

/-- Zeros, `n` of them. -/
def zeros (n : Nat) : String := String.ofList (List.replicate n '0')

/-- Positional notation: a whole number has no point, a fraction has a digit before it. -/
def positional (d : Decimal) : String :=
  let digits := Nat.toDigits 10 d.digits
  if 0 ≤ d.exponent then digitText d.digits ++ zeros d.exponent.natAbs
  else
    let places := d.exponent.natAbs
    if places < digits.length then
      String.ofList (digits.take (digits.length - places)) ++ "." ++
        String.ofList (digits.drop (digits.length - places))
    else "0." ++ zeros (places - digits.length) ++ digitText d.digits

/-- Scientific notation: one digit before the point, and the exponent after an `e`. -/
def scientific (d : Decimal) : String :=
  let digits := Nat.toDigits 10 d.digits
  let fraction := digits.drop 1
  String.ofList (digits.take 1) ++
    (if fraction.isEmpty then "" else "." ++ String.ofList fraction) ++
    "e" ++ toString (d.exponent + Int.ofNat (digits.length - 1))

end Decimal

end HybridAutomata
