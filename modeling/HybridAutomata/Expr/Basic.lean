import HybridAutomata.Scalar

/-!
# Formulas

One kind of tree describes numbers (rates, new values) and conditions (guards, invariants, regions).
Operators are sorted by what they do: arithmetic, logic and comparison. Whether a tree as a whole is
a condition is read off its root.

Conjunctions are built so that chains lean to the left and `true` disappears; disjunctions likewise
with `false`.
-/

namespace HybridAutomata

inductive UnaryOp where
  | neg
  | not
deriving DecidableEq, Repr

inductive ArithOp where
  | add
  | sub
  | mul
  | div
  | pow
deriving DecidableEq, Repr

inductive LogicOp where
  | and
  | or
deriving DecidableEq, Repr

inductive Comparison where
  | eq
  | ne
  | lt
  | le
  | gt
  | ge
deriving DecidableEq, Repr

inductive BinaryOp where
  | arith (op : ArithOp)
  | logic (op : LogicOp)
  | compare (op : Comparison)
deriving DecidableEq, Repr

namespace Comparison

/-- `a op b` holds exactly if `b op.converse a` does. -/
def converse : Comparison → Comparison
  | lt => gt
  | le => ge
  | gt => lt
  | ge => le
  | op => op

/-- The comparison that holds of an ordered pair exactly if this one does not. -/
def negate : Comparison → Comparison
  | eq => ne
  | ne => eq
  | lt => ge
  | le => gt
  | gt => le
  | ge => lt

@[simp] theorem converse_converse (op : Comparison) : op.converse.converse = op := by
  cases op <;> rfl

@[simp] theorem negate_negate (op : Comparison) : op.negate.negate = op := by cases op <;> rfl

end Comparison

namespace BinaryOp

/-- Binding strength: a larger number binds tighter. -/
def precedence : BinaryOp → Nat
  | logic .or => 1
  | logic .and => 2
  | compare _ => 3
  | arith .add | arith .sub => 4
  | arith .mul | arith .div => 5
  | arith .pow => 7

def isComparison : BinaryOp → Bool
  | compare _ => true
  | _ => false

def isLogical : BinaryOp → Bool
  | logic _ => true
  | _ => false

/-- The operator with exchanged operands, for the comparisons; other operators stay. -/
def converse : BinaryOp → BinaryOp
  | compare op => compare op.converse
  | op => op

/-- The opposite of a comparison. -/
def negate? : BinaryOp → Option BinaryOp
  | compare op => some (compare op.negate)
  | _ => none

end BinaryOp

/-- Formulas over numbers of type `α`. -/
inductive Expr (α : Type) where
  | num (value : α)
  | bool (value : Bool)
  | var (name : String)
  | unary (op : UnaryOp) (operand : Expr α)
  | binary (op : BinaryOp) (lhs rhs : Expr α)
  | call (name : String) (args : List (Expr α))
deriving Inhabited

namespace Expr

variable {α : Type}

/-! ## Building formulas -/

abbrev add (l r : Expr α) : Expr α := .binary (.arith .add) l r
abbrev sub (l r : Expr α) : Expr α := .binary (.arith .sub) l r
abbrev mul (l r : Expr α) : Expr α := .binary (.arith .mul) l r
abbrev div (l r : Expr α) : Expr α := .binary (.arith .div) l r
abbrev pow (l r : Expr α) : Expr α := .binary (.arith .pow) l r
abbrev neg (e : Expr α) : Expr α := .unary .neg e
abbrev not (e : Expr α) : Expr α := .unary .not e
abbrev eq (l r : Expr α) : Expr α := .binary (.compare .eq) l r
abbrev lt (l r : Expr α) : Expr α := .binary (.compare .lt) l r
abbrev le (l r : Expr α) : Expr α := .binary (.compare .le) l r
abbrev gt (l r : Expr α) : Expr α := .binary (.compare .gt) l r
abbrev ge (l r : Expr α) : Expr α := .binary (.compare .ge) l r

/-- Adds a conjunction to the right of another: `true` disappears, and a conjunction on the right is
taken apart so that the result leans to the left. -/
def and (l : Expr α) : Expr α → Expr α
  | .binary (.logic .and) r₁ r₂ =>
      match l with
      | .bool true => .binary (.logic .and) r₁ r₂
      | l => (l.and r₁).and r₂
  | .bool true => l
  | r =>
      match l with
      | .bool true => r
      | l => .binary (.logic .and) l r

/-- Adds a disjunction to the right of another: `false` disappears, and a disjunction on the right
is taken apart so that the result leans to the left. -/
def or (l : Expr α) : Expr α → Expr α
  | .binary (.logic .or) r₁ r₂ =>
      match l with
      | .bool false => .binary (.logic .or) r₁ r₂
      | l => (l.or r₁).or r₂
  | .bool false => l
  | r =>
      match l with
      | .bool false => r
      | l => .binary (.logic .or) l r

/-- The conjunction of all items; `true` for none. -/
def andAll (items : List (Expr α)) : Expr α := items.foldl and (.bool true)

/-- The disjunction of all items; `false` for none. -/
def orAll (items : List (Expr α)) : Expr α := items.foldl or (.bool false)

/-! ## Reading formulas -/

def isTrue : Expr α → Bool
  | .bool true => true
  | _ => false

def isFalse : Expr α → Bool
  | .bool false => true
  | _ => false

def num? : Expr α → Option α
  | .num value => some value
  | _ => none

def var? : Expr α → Option String
  | .var name => some name
  | _ => none

/-- Whether the formula stands for a truth value, judged by its root. -/
def isCondition : Expr α → Bool
  | .bool _ => true
  | .unary .not _ => true
  | .binary (.compare _) _ _ => true
  | .binary (.logic _) _ _ => true
  | _ => false

/-- The operands of a chain of one connective, from left to right. -/
def chain (op : LogicOp) : Expr α → List (Expr α)
  | .binary (.logic o) l r =>
      if o = op then chain op l ++ chain op r else [.binary (.logic o) l r]
  | e => [e]

/-- The top-level conjuncts. -/
abbrev conjuncts (e : Expr α) : List (Expr α) := e.chain .and

/-- The top-level disjuncts. -/
abbrev disjuncts (e : Expr α) : List (Expr α) := e.chain .or

mutual

/-- The names in a formula, in the order of their occurrences. -/
def names : Expr α → List String
  | .num _ | .bool _ => []
  | .var name => [name]
  | .unary _ e => names e
  | .binary _ l r => names l ++ names r
  | .call _ args => argNames args

@[inherit_doc names] def argNames : List (Expr α) → List String
  | [] => []
  | e :: es => names e ++ argNames es

end

/-- Inserts a name into an ascending list without repetitions. -/
def insertAscending (name : String) : List String → List String
  | [] => [name]
  | other :: rest =>
      if name < other then name :: other :: rest
      else if name = other then other :: rest
      else other :: insertAscending name rest

/-- The names in a formula, each once, in ascending order. -/
def vars (e : Expr α) : List String := e.names.foldl (fun acc name => insertAscending name acc) []

mutual

/-- Whether a name occurs in a formula. -/
def mentions (name : String) : Expr α → Bool
  | .num _ | .bool _ => false
  | .var other => other == name
  | .unary _ e => mentions name e
  | .binary _ l r => mentions name l || mentions name r
  | .call _ args => argsMention name args

@[inherit_doc mentions] def argsMention (name : String) : List (Expr α) → Bool
  | [] => false
  | e :: es => mentions name e || argsMention name es

end

/-! ## Substitution -/

mutual

/-- Replaces, all at once, every name to which `f` gives a formula. -/
def substituteWith (f : String → Option (Expr α)) : Expr α → Expr α
  | .num value => .num value
  | .bool value => .bool value
  | .var name => (f name).getD (.var name)
  | .unary op e => .unary op (substituteWith f e)
  | .binary op l r => .binary op (substituteWith f l) (substituteWith f r)
  | .call name args => .call name (substituteArgs f args)

@[inherit_doc substituteWith]
def substituteArgs (f : String → Option (Expr α)) : List (Expr α) → List (Expr α)
  | [] => []
  | e :: es => substituteWith f e :: substituteArgs f es

end

/-- Replaces every occurrence of a name. -/
def substitute (e : Expr α) (name : String) (replacement : Expr α) : Expr α :=
  e.substituteWith fun other => if other == name then some replacement else none

/-- Renames every name. -/
def rename (f : String → String) (e : Expr α) : Expr α :=
  e.substituteWith fun name => some (.var (f name))

/-- Drops the top-level conjuncts in which a name occurs. -/
def withoutConjunctsMentioning (name : String) (e : Expr α) : Expr α :=
  andAll (e.conjuncts.filter fun c => !c.mentions name)

/-! ## Comparing formulas -/

mutual

/-- Equal trees, where numbers are compared as numbers: both zeros are equal, and a tree with an
undefined number in it differs from itself. -/
def same [BEq α] : Expr α → Expr α → Bool
  | .num a, .num b => a == b
  | .bool a, .bool b => a == b
  | .var a, .var b => a == b
  | .unary op e, .unary op' e' => op == op' && same e e'
  | .binary op l r, .binary op' l' r' => op == op' && same l l' && same r r'
  | .call name args, .call name' args' => name == name' && sameArgs args args'
  | _, _ => false

@[inherit_doc same] def sameArgs [BEq α] : List (Expr α) → List (Expr α) → Bool
  | [], [] => true
  | e :: es, e' :: es' => same e e' && sameArgs es es'
  | _, _ => false

end

instance [BEq α] : BEq (Expr α) := ⟨same⟩

/-! ## Small facts -/

@[simp] theorem and_true (l : Expr α) : l.and (.bool true) = l := by simp [and]

@[simp] theorem or_false (l : Expr α) : l.or (.bool false) = l := by simp [or]

mutual

/-- A name occurs in a formula exactly if it is among its names. -/
theorem mentions_iff (name : String) : ∀ e : Expr α, e.mentions name = true ↔ name ∈ e.names
  | .num _ | .bool _ => by simp [mentions, names]
  | .var other => by simpa [mentions, names] using eq_comm
  | .unary _ e => by simp [mentions, names, mentions_iff name e]
  | .binary _ l r => by simp [mentions, names, mentions_iff name l, mentions_iff name r]
  | .call _ args => by simp [mentions, names, argsMention_iff name args]

theorem argsMention_iff (name : String) :
    ∀ es : List (Expr α), argsMention name es = true ↔ name ∈ argNames es
  | [] => by simp [argsMention, argNames]
  | e :: es => by simp [argsMention, argNames, mentions_iff name e, argsMention_iff name es]

end

end Expr

end HybridAutomata
