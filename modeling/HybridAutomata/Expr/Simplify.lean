import HybridAutomata.Expr.Eval

/-!
# Simplification

Constants are folded and neutral and absorbing operands removed, from the leaves upwards. Constants
move to the left of products and negative coefficients become subtractions, so that `x + -3 * v`
turns into `x - 3 * v`. A fold whose result is not finite is not made.

There is one function per operator. Each takes operands that are simplified already, and its arms
are tried in order.
-/

namespace HybridAutomata

namespace Expr

open Scalar

variable {α : Type} [Scalar α]

/-- The number of a literal that satisfies `p`. -/
def numWhere (p : α → Bool) (e : Expr α) : Option α := e.num?.filter p

/-- A literal of the given value. -/
def isNum (value : α) (e : Expr α) : Bool := (e.numWhere (· == value)).isSome

/-- A product with a negative literal on its left, as the opposite literal and the other factor. -/
def negativeProduct? : Expr α → Option (α × Expr α)
  | .binary (.arith .mul) (.num c) e => if c < 0 then some (-c, e) else none
  | _ => none

/-- The opposite of a simplified formula. -/
def simplifyNeg : Expr α → Expr α
  | .num value => .num (-value)
  | .unary .neg e => e
  | .binary (.arith .mul) (.num c) e => mul (.num (-c)) e
  | e => neg e

/-- The negation of a simplified formula. -/
def simplifyNot : Expr α → Expr α
  | .bool value => .bool !value
  | .unary .not e => e
  | .binary (.compare op) l r => .binary (.compare op.negate) l r
  | e => not e

def simplifyUnary : UnaryOp → Expr α → Expr α
  | .neg => simplifyNeg
  | .not => simplifyNot

def simplifyAnd (l r : Expr α) : Expr α :=
  if l.isFalse || r.isFalse then .bool false else l.and r

def simplifyOr (l r : Expr α) : Expr α :=
  if l.isTrue || r.isTrue then .bool true else l.or r

def simplifyAdd (l r : Expr α) : Expr α :=
  if l.isNum 0 then r
  else if r.isNum 0 then l
  else
    match r with
    | .num c => if c < 0 then sub l (.num (-c)) else add l r
    | .unary .neg e => sub l e
    | r =>
        match r.negativeProduct? with
        | some (c, e) => sub l (mul (.num c) e)
        | none => add l r

def simplifySub (l r : Expr α) : Expr α :=
  if r.isNum 0 then l
  else if l.isNum 0 then simplifyNeg r
  else
    match r with
    | .num c => if c < 0 then add l (.num (-c)) else sub l r
    | .unary .neg e => add l e
    | r =>
        match r.negativeProduct? with
        | some (c, e) => add l (mul (.num c) e)
        | none => sub l r

def simplifyMul (l r : Expr α) : Expr α :=
  if l.isNum 0 || r.isNum 0 then .num 0
  else if l.isNum 1 then r
  else if r.isNum 1 then l
  else if l.isNum (-1) then simplifyNeg r
  else if r.isNum (-1) then simplifyNeg l
  else
    match l, r with
    | .num a, .binary (.arith .mul) (.num b) e => mul (.num (a * b)) e
    | e, .num c => mul (.num c) e
    | .unary .neg a, .unary .neg b => mul a b
    | l, r => mul l r

def simplifyDiv (l r : Expr α) : Expr α :=
  if r.isNum 1 then l
  else if l.isNum 0 then .num 0
  else div l r

def simplifyPow (l r : Expr α) : Expr α :=
  if r.isNum 0 then .num 1
  else if r.isNum 1 then l
  else pow l r

def simplifyArith : ArithOp → Expr α → Expr α → Expr α
  | .add => simplifyAdd
  | .sub => simplifySub
  | .mul => simplifyMul
  | .div => simplifyDiv
  | .pow => simplifyPow

/-- The result of an operator on two literals, unless it is not finite. A quotient by zero is left
alone. -/
def foldArith (op : ArithOp) (a b : α) : Option (Expr α) :=
  if op = .div ∧ (b == 0) = true then none
  else
    let value := op.apply a b
    if isFinite value then some (.num value) else none

/-- A binary operator on simplified operands. -/
def simplifyBinary (op : BinaryOp) (l r : Expr α) : Expr α :=
  match op with
  | .arith op =>
      match l, r with
      | .num a, .num b => (foldArith op a b).getD (simplifyArith op l r)
      | l, r => simplifyArith op l r
  | .compare op =>
      match l, r with
      | .num a, .num b => .bool (op.apply a b)
      | l, r => .binary (.compare op) l r
  | .logic .and => simplifyAnd l r
  | .logic .or => simplifyOr l r

/-- The literals of a list of formulas, if all of them are literals. -/
def nums? : List (Expr α) → Option (List α)
  | [] => some []
  | e :: es => do return (← e.num?) :: (← nums? es)

/-- A call on simplified arguments. -/
def simplifyCall (name : String) (args : List (Expr α)) : Expr α :=
  match (nums? args).bind (applyFunction name) with
  | some value => if isFinite value then .num value else .call name args
  | none => .call name args

mutual

/-- The simplified formula. -/
def simplify : Expr α → Expr α
  | .num value => .num value
  | .bool value => .bool value
  | .var name => .var name
  | .unary op e => simplifyUnary op (simplify e)
  | .binary op l r => simplifyBinary op (simplify l) (simplify r)
  | .call name args => simplifyCall name (simplifyArgs args)

@[inherit_doc simplify] def simplifyArgs : List (Expr α) → List (Expr α)
  | [] => []
  | e :: es => simplify e :: simplifyArgs es

end

end Expr

end HybridAutomata
