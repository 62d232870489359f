import HybridAutomata.Interval
import HybridAutomata.Expr.Eval

/-!
# Ranges

The range of a formula when each name ranges over an interval. Every operator and function is
replaced by its interval version, so a name that occurs twice is taken to vary independently.
-/

namespace HybridAutomata

open Scalar

/-- Why a formula has no range. -/
inductive RangeError (α : Type) where
  | undefined (cause : EvalError α)
  | fault (fault : Fault α)

instance {α : Type} : MonadLift (Except (Fault α)) (Except (RangeError α)) :=
  ⟨fun x => x.mapError .fault⟩

namespace Interval

variable {α : Type} [Scalar α]

/-- Half a turn divided by two. -/
@[inline] def quarterTurn : α := pi / 2

/-- The values of the sine: those at the ends, and `1` or `-1` where a crest or a trough lies
between them. -/
def sin (x : Interval α) : Except (Fault α) (Interval α) :=
  if !x.isBounded || decide (2 * pi ≤ x.width) then make (-1) 1
  else do
    let ends := (← point (Scalar.sin x.min)).hullPoint (Scalar.sin x.max)
    let crest := quarterTurn + 2 * pi * ceil ((x.min - quarterTurn) / (2 * pi))
    let trough := -quarterTurn + 2 * pi * ceil ((x.min + quarterTurn) / (2 * pi))
    let withCrest := if crest ≤ x.max then ends.hullPoint 1 else ends
    return if trough ≤ x.max then withCrest.hullPoint (-1) else withCrest

/-- The values of the cosine, which is a sine a quarter turn ahead. -/
def cos (x : Interval α) : Except (Fault α) (Interval α) := do
  (← x.add (← point quarterTurn)).sin

/-- The values of the tangent; all numbers if a pole is reached. -/
def tan (x : Interval α) : Except (Fault α) (Interval α) :=
  let pole := quarterTurn + ceil ((x.min - quarterTurn) / pi) * pi
  if pi ≤ x.width ∨ pole ≤ x.max then .ok entire else x.mapMonotone Scalar.tan

def ln (x : Interval α) : Except (Fault α) (Interval α) :=
  if 0 < x.min then x.mapMonotone Scalar.ln else .ok entire

def sqrt (x : Interval α) : Except (Fault α) (Interval α) :=
  if 0 ≤ x.min then x.mapMonotone Scalar.sqrt else .ok entire

def abs (x : Interval α) : Except (Fault α) (Interval α) :=
  if 0 ≤ x.min then .ok x
  else if x.max ≤ 0 then x.neg
  else make 0 (greater x.max (-x.min))

/-- The values of a power with a positive whole exponent. An even power has its least value at
zero if zero is in the base. -/
def powNat (base : Interval α) (n : Nat) : Except (Fault α) (Interval α) :=
  let lo := Scalar.powNat base.min n
  let hi := Scalar.powNat base.max n
  if n % 2 = 1 then make lo hi
  else if base.contains 0 then make 0 (greater lo hi)
  else make (lesser lo hi) (greater lo hi)

/-- The bounds of 32-bit whole numbers. -/
def minWord : Int := -2147483648

@[inherit_doc minWord] def maxWord : Int := 2147483647

/-- The values of a power with a whole exponent of 32 bits. A negative exponent is the quotient of
one by the opposite power; the least number of 32 bits has no opposite among them. -/
def powInt (base : Interval α) (n : Int) : Except (Fault α) (Interval α) := do
  if n = 0 then point 1
  else if n = minWord then throw .negationOverflow
  else if n < 0 then (← point 1).div (← base.powNat n.natAbs)
  else base.powNat n.natAbs

/-- The values of a power: for one whole exponent, moved into 32 bits, the exact image; for other
exponents the image through the logarithm if the base is positive, and all numbers if it is not. -/
def pow (base exponent : Interval α) : Except (Fault α) (Interval α) :=
  if exponent.isPoint && isWhole exponent.min then
    base.powInt (wholePart minWord maxWord exponent.min)
  else if 0 < base.min then do
    (← exponent.mul (← base.mapMonotone Scalar.ln)).mapMonotone Scalar.exp
  else .ok entire

/-- The values of a named function, if there is one with that name and number of arguments. -/
def applyFunction (name : String) (args : List (Interval α)) :
    Except (Fault α) (Option (Interval α)) :=
  match args with
  | [x] =>
      match name with
      | "sin" => some <$> x.sin
      | "cos" => some <$> x.cos
      | "tan" => some <$> x.tan
      | "exp" => some <$> x.mapMonotone Scalar.exp
      | "ln" | "log" => some <$> x.ln
      | "sqrt" => some <$> x.sqrt
      | "abs" => some <$> x.abs
      | _ => .ok none
  | [a, b] =>
      match name with
      | "min" => some <$> make (lesser a.min b.min) (lesser a.max b.max)
      | "max" => some <$> make (greater a.min b.min) (greater a.max b.max)
      | _ => .ok none
  | _ => .ok none

/-- The interval version of an arithmetic operator. -/
def applyArith (op : ArithOp) (a b : Interval α) : Except (Fault α) (Interval α) :=
  match op with
  | .add => a.add b
  | .sub => a.sub b
  | .mul => a.mul b
  | .div => a.div b
  | .pow => a.pow b

end Interval

namespace Expr

variable {α : Type} [Scalar α]

mutual

/-- An interval that holds the values of a formula when every name ranges over its interval. -/
@[specialize] def range (env : String → Option (Interval α)) :
    Expr α → Except (RangeError α) (Interval α)
  | .num value => Interval.point value
  | .var name =>
      match env name with
      | some i => .ok i
      | none => .error (.undefined (.unknownVariable name))
  | .unary .neg e => do (← range env e).neg
  | .binary (.arith op) l r => do
      let a ← range env l
      let b ← range env r
      Interval.applyArith op a b
  | .call name args => do
      let values ← rangeArgs env args
      match ← Interval.applyFunction name values with
      | some i => return i
      | none => throw (.undefined (.unknownFunction name args.length))
  | e => .error (.undefined (.notNumeric e))

@[specialize, inherit_doc range]
def rangeArgs (env : String → Option (Interval α)) :
    List (Expr α) → Except (RangeError α) (List (Interval α))
  | [] => .ok []
  | e :: es => do
      let i ← range env e
      let is ← rangeArgs env es
      return i :: is

end

end Expr

end HybridAutomata
