import HybridAutomata.Decimal.Binary64

/-!
# The shortest decimal that reads back

A double precision number is read back from every decimal that lies between the midpoints to its
neighbours. `Binary64.shortest` finds the decimal with the fewest digits among those, and of two
with equally few the nearer one.

The search walks down the decimal grids `10 ^ e`, beginning above the leading digit. On a grid only
the two points around the number can be the nearest, so only these are tested; everything is
compared as whole numbers over one common denominator.
-/

namespace HybridAutomata

/-- The decimal `digits * 10 ^ exponent`. -/
structure Decimal where
  digits : Nat
  exponent : Int
deriving DecidableEq, Repr

namespace Decimal

/-- Moves trailing zeros from the digits into the exponent. -/
def strip (d : Decimal) : Decimal :=
  if h : 0 < d.digits ∧ d.digits % 10 = 0 then strip ⟨d.digits / 10, d.exponent + 1⟩ else d
termination_by d.digits
decreasing_by exact Nat.div_lt_self h.1 (by decide)

end Decimal

namespace Binary64

/-- A number together with the decimals that read back as it, over the denominator `unit`. -/
structure Neighbourhood where
  lower : Nat
  value : Nat
  upper : Nat
  unit : Nat
  /-- Whether the ends read back as the number too, as they do for an even significand. -/
  closed : Bool

/-- The neighbourhood of the number with the given pattern, measured in units of `10 ^ e`.

Quarters of the binary unit are used because the midpoint to the lower neighbour is only a quarter
away when the significand is the least normal one. -/
def neighbourhood (bits : Nat) (e : Int) : Neighbourhood :=
  let m := significand bits
  let q := exponent bits - 2
  let below := if bits % binade = 0 ∧ bits / binade > 1 then 1 else 2
  let factor := tenTo (-e).toNat <<< q.toNat
  let unit := tenTo e.toNat <<< (-q).toNat
  ⟨(4 * m - below) * factor, 4 * m * factor, (4 * m + 2) * factor, unit, m % 2 == 0⟩

/-- Whether the grid point `k` reads back as the number. -/
def Neighbourhood.accepts (n : Neighbourhood) (k : Nat) : Bool :=
  let point := k * n.unit
  if n.closed then n.lower ≤ point && point ≤ n.upper else n.lower < point && point < n.upper

/-- The grid point nearest to the number among those that read back as it; a tie goes up. -/
def Neighbourhood.gridPoint? (n : Neighbourhood) : Option Nat :=
  let k := n.value / n.unit
  let upFirst := 2 * (n.value % n.unit) ≥ n.unit
  match n.accepts k, n.accepts (k + 1) with
  | true, true => some (if upFirst then k + 1 else k)
  | true, false => some k
  | false, true => some (k + 1)
  | false, false => none

/-- An exponent at or above that of the leading decimal digit, and at most two above it: the binary
exponent counted in decimal digits, rounded up. On a grid above the leading digit no point but
`10 ^ e` itself can read back, so beginning there does no harm. -/
def startExponent (bits : Nat) : Int :=
  let binary := Int.ofNat (significand bits).log2 + exponent bits + 1
  Int.fdiv (binary * 30103) 100000 + 1

/-- The first decimal that reads back, on at most `fuel` grids from `10 ^ e` downwards. -/
def searchDown (bits : Nat) (e : Int) : Nat → Decimal
  | 0 => ⟨0, 0⟩
  | fuel + 1 =>
      match (neighbourhood bits e).gridPoint? with
      | some k => Decimal.strip ⟨k, e⟩
      | none => searchDown bits (e - 1) fuel

/-- The shortest decimal that reads back as the positive finite number with the given pattern.
Seventeen digits always suffice. -/
def shortest (bits : Nat) : Decimal := searchDown bits (startExponent bits) 20

end Binary64

end HybridAutomata
