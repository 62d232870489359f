import HybridAutomata.Expr.Eval

/-!
# Written formulas

A formula is written with the fewest parentheses that keep its structure when the text is read
back. How the operators are spelled is a parameter, so that other tools' dialects can be produced.
-/

namespace HybridAutomata

/-- The spellings of the operators that differ between dialects. -/
structure Spelling where
  and : String := "&&"
  or : String := "||"
  not : String := "!"
  eq : String := "=="
  ne : String := "!="
  pow : String := "^"
deriving DecidableEq, Repr

namespace Spelling

/-- The spellings that the reader understands and that messages use. -/
def standard : Spelling := {}

/-- Single-character connectives. -/
def spaceEx : Spelling := { and := "&", or := "|" }

/-- Connectives in words. -/
def words : Spelling :=
  { and := "and", or := "or", not := "not ", eq := "=", ne := "<>", pow := "**" }

/-- The spelling of a binary operator. -/
def symbol (s : Spelling) : BinaryOp → String
  | .arith .add => "+"
  | .arith .sub => "-"
  | .arith .mul => "*"
  | .arith .div => "/"
  | .arith .pow => s.pow
  | .logic .and => s.and
  | .logic .or => s.or
  | .compare .eq => s.eq
  | .compare .ne => s.ne
  | .compare .lt => "<"
  | .compare .le => "<="
  | .compare .gt => ">"
  | .compare .ge => ">="

/-- The spelling of a unary operator. -/
def unarySymbol (s : Spelling) : UnaryOp → String
  | .neg => "-"
  | .not => s.not

end Spelling

variable {α : Type} [Scalar α]

/-- A number in a formula: both zeros are written `0`. -/
def formatNumber [DecimalText α] (value : α) : String := if value == 0 then "0" else decimal value

namespace Expr

/-- Unary operators and negative literals bind tighter than products and looser than powers. -/
def unaryStrength : Nat := 6

/-- Literals, names, calls and parentheses. -/
def atomStrength : Nat := 10

/-- How tightly the root of a formula holds its parts together. -/
def strength : Expr α → Nat
  | .binary op _ _ => op.precedence
  | .unary _ _ => unaryStrength
  | .num value => if value < 0 then unaryStrength else atomStrength
  | _ => atomStrength

def isNegativeNum : Expr α → Bool
  | .num value => decide (value < 0)
  | _ => false

/-- Whether the operand of a unary operator needs parentheses. Two signs in a row are not read
back, so an opposite of an opposite gets them. -/
def wrapsOperand (op : UnaryOp) (e : Expr α) : Bool :=
  e.strength < unaryStrength || (op == .neg && e.strength == unaryStrength)

/-- Whether the left operand needs parentheses: when it binds more loosely, when a power would
regroup to the right, and when a comparison would be read as a chain. -/
def wrapsLeft (op : BinaryOp) (l : Expr α) : Bool :=
  match op with
  | .arith .pow => l.strength ≤ op.precedence
  | _ => l.strength < op.precedence || (op.isComparison && l.isCondition)

/-- Whether the right operand needs parentheses. Operators group to the left, so equal strength
needs them; a negative literal needs them behind an arithmetic operator. -/
def wrapsRight (op : BinaryOp) (r : Expr α) : Bool :=
  match op with
  | .arith .pow => r.strength < unaryStrength
  | _ =>
      if r.isNegativeNum then !op.isComparison && !op.isLogical
      else r.strength ≤ op.precedence

/-- Puts parentheses around a text where asked to. -/
def parenthesized (wrap : Bool) (text : String) : String :=
  if wrap then "(" ++ text ++ ")" else text

mutual

/-- The written form of a formula. -/
def render [DecimalText α] (s : Spelling) : Expr α → String
  | .num value => formatNumber value
  | .bool value => if value then "true" else "false"
  | .var name => name
  | .unary op e => s.unarySymbol op ++ parenthesized (wrapsOperand op e) (render s e)
  | .binary op l r =>
      parenthesized (wrapsLeft op l) (render s l) ++ " " ++ s.symbol op ++ " " ++
        parenthesized (wrapsRight op r) (render s r)
  | .call name args => name ++ "(" ++ ", ".intercalate (renderArgs s args) ++ ")"

@[inherit_doc render] def renderArgs [DecimalText α] (s : Spelling) : List (Expr α) → List String
  | [] => []
  | e :: es => render s e :: renderArgs s es

end

/-- The written form in the standard spelling. -/
def text [DecimalText α] (e : Expr α) : String := e.render .standard

end Expr

/-- The wording of an evaluation failure. -/
def EvalError.message [DecimalText α] : EvalError α → String
  | .unknownVariable name => "unknown variable '" ++ name ++ "'"
  | .unknownFunction name arity =>
      "unknown function '" ++ name ++ "' with " ++ toString arity ++ " argument(s)"
  | .notNumeric e => "expected a numeric term, found condition '" ++ e.text ++ "'"
  | .notCondition e => "expected a condition, found numeric term '" ++ e.text ++ "'"
  | .notDifferentiable e => "cannot differentiate '" ++ e.text ++ "'"

end HybridAutomata
