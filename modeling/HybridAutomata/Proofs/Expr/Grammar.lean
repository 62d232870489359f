import HybridAutomata.Expr.Parser

/-!
# The grammar of formulas

The grammar that the parser is written for, as a relation between token sequences and trees. It says
nothing about how a sequence is searched for a tree; the rules are those of the module on reading
formulas, one constructor each.

The four kinds of chains (disjunctions, conjunctions, sums, products) follow one scheme: an operand,
or a shorter chain, a sign of its level and another operand. A chain therefore leans to the left. A
chain of comparisons `a < b < c` stands for the conjunction `a < b && b < c`, which needs its last
term when it grows; `Links` keeps it.
-/

namespace HybridAutomata

namespace Grammar

open HybridAutomata.Parser

/-- The kinds of phrases. -/
inductive Phrase where
  | atom
  | power
  | unary
  | chain (level : Level)
  | comparison
  | negation
deriving DecidableEq

/-- What the chains of a level are made of. -/
def operand : Level → Phrase
  | .or => .chain .and
  | .and => .negation
  | .sum => .chain .product
  | .product => .unary

/-- The signs of a level, and the operators they stand for. -/
inductive Joins : Level → Symbol → BinaryOp → Prop
  | orOr : Joins .or .orOr (.logic .or)
  | or : Joins .or .or (.logic .or)
  | andAnd : Joins .and .andAnd (.logic .and)
  | and : Joins .and .and (.logic .and)
  | plus : Joins .sum .plus (.arith .add)
  | minus : Joins .sum .minus (.arith .sub)
  | times : Joins .product .times (.arith .mul)
  | slash : Joins .product .slash (.arith .div)

/-- The signs of comparisons. -/
inductive Compares : Symbol → Comparison → Prop
  | eqEq : Compares .eqEq .eq
  | eq : Compares .eq .eq
  | notEq : Compares .notEq .ne
  | less : Compares .less .lt
  | lessEq : Compares .lessEq .le
  | greater : Compares .greater .gt
  | greaterEq : Compares .greaterEq .ge

/-! ## Signs -/

theorem operator?_eq_some_iff {level : Level} {s : Symbol} {op : BinaryOp} :
    level.operator? s = some op ↔ Joins level s op := by
  constructor
  · intro h
    unfold Level.operator? at h
    split at h <;> cases h <;> constructor
  · rintro ⟨⟩ <;> rfl

theorem comparison?_eq_some_iff {s : Symbol} {op : Comparison} :
    comparison? s = some op ↔ Compares s op := by
  constructor
  · intro h
    unfold comparison? at h
    split at h <;> cases h <;> constructor
  · rintro ⟨⟩ <;> rfl

/-! ## Nesting -/

/-- The nesting of the kinds of phrases, from the tightest to the loosest. -/
@[simp]
def Phrase.rank : Phrase → Nat
  | .atom => 1
  | .power => 2
  | .unary => 3
  | .chain .product => 4
  | .chain .sum => 5
  | .comparison => 6
  | .negation => 7
  | .chain .and => 8
  | .chain .or => 9

theorem rank_operand (level : Level) : (operand level).rank < (Phrase.chain level).rank := by
  cases level <;> decide

/-! ## Where a phrase begins -/

/-- The tokens that phrases begin with, each with the tightest kind of phrase that does. -/
inductive Begins {α : Type} : Token α → Phrase → Prop
  | number (value : α) : Begins (.number value) .atom
  | name (name : String) : Begins (.ident name) .atom
  | parenthesis : Begins .lparen .atom
  | plus : Begins (.symbol .plus) .unary
  | minus : Begins (.symbol .minus) .unary
  | not : Begins (.symbol .not) .negation

/-- A sequence of tokens begins as phrases of the kind `p` do. -/
def Opens {α : Type} (p : Phrase) (ts : List (Token α)) : Prop :=
  ∃ t more q, ts = t :: more ∧ Begins t q ∧ q.rank ≤ p.rank

variable {α : Type} {p q : Phrase} {ts : List (Token α)}

theorem Opens.of_rank_le (h : Opens q ts) (le : q.rank ≤ p.rank) : Opens p ts := by
  obtain ⟨t, more, r, rfl, begins, below⟩ := h
  exact ⟨t, more, r, rfl, begins, Nat.le_trans below le⟩

theorem Opens.append (h : Opens p ts) (us : List (Token α)) : Opens p (ts ++ us) := by
  obtain ⟨t, more, r, rfl, begins, below⟩ := h
  exact ⟨t, more ++ us, r, rfl, begins, below⟩

theorem Opens.head?_append (h : Opens p ts) (us : List (Token α)) :
    (ts ++ us).head? = ts.head? := by
  obtain ⟨t, more, r, rfl, _, _⟩ := h
  rfl

theorem Opens.not_rparen (h : Opens p ts) : ts.head? ≠ some .rparen := by
  obtain ⟨t, more, r, rfl, begins, _⟩ := h
  rintro ⟨⟩
  cases begins

theorem Opens.not_sign (h : Opens p ts) (tight : p.rank < Phrase.unary.rank) :
    ts.head? ≠ some (.symbol .minus) ∧ ts.head? ≠ some (.symbol .plus) := by
  obtain ⟨t, more, r, rfl, begins, below⟩ := h
  constructor <;>
  · rintro ⟨⟩
    cases begins
    omega

theorem Opens.not_not (h : Opens p ts) (tight : p.rank < Phrase.negation.rank) :
    ts.head? ≠ some (.symbol .not) := by
  obtain ⟨t, more, r, rfl, begins, below⟩ := h
  rintro ⟨⟩
  cases begins
  omega

/-! ## Derivations -/

variable [Scalar α]

mutual

/-- A sequence of tokens is a phrase with the given tree. -/
inductive Derives : Phrase → List (Token α) → Expr α → Prop
  | number (value : α) : Derives .atom [.number value] (.num value)
  | true : Derives .atom [.ident "true"] (.bool true)
  | false : Derives .atom [.ident "false"] (.bool false)
  | name {name} (notTrue : name ≠ "true") (notFalse : name ≠ "false") :
      Derives .atom [.ident name] (.var name)
  | emptyCall {name} (notTrue : name ≠ "true") (notFalse : name ≠ "false") :
      Derives .atom [.ident name, .lparen, .rparen] (.call name [])
  | call {name ts args} (notTrue : name ≠ "true") (notFalse : name ≠ "false")
      (inside : Arguments ts args) :
      Derives .atom (.ident name :: .lparen :: (ts ++ [.rparen])) (.call name args)
  | parentheses {ts e} (inside : Derives (.chain .or) ts e) :
      Derives .atom (.lparen :: (ts ++ [.rparen])) e
  | base {ts e} (base : Derives .atom ts e) : Derives .power ts e
  | power {ts us b e} (base : Derives .atom ts b) (exponent : Derives .unary us e) :
      Derives .power (ts ++ .symbol .caret :: us) (.pow b e)
  | unsigned {ts e} (term : Derives .power ts e) : Derives .unary ts e
  | plus {ts e} (term : Derives .unary ts e) : Derives .unary (.symbol .plus :: ts) e
  | minus {ts e} (term : Derives .unary ts e) (single : ts.head? ≠ some (.symbol .minus)) :
      Derives .unary (.symbol .minus :: ts) (negated e)
  | single {level ts e} (only : Derives (operand level) ts e) : Derives (.chain level) ts e
  | join {level ts us s op l r} (front : Derives (.chain level) ts l) (sign : Joins level s op)
      (last : Derives (operand level) us r) :
      Derives (.chain level) (ts ++ .symbol s :: us) (.binary op l r)
  | term {ts e} (only : Derives (.chain .sum) ts e) : Derives .comparison ts e
  | links {ts e last} (links : Links ts e last) : Derives .comparison ts e
  | positive {ts e} (condition : Derives .comparison ts e) : Derives .negation ts e
  | not {ts e} (condition : Derives .negation ts e) :
      Derives .negation (.symbol .not :: ts) (.not e)

/-- One comparison or more in a row, with the conjunction they stand for and the last term. -/
inductive Links : List (Token α) → Expr α → Expr α → Prop
  | first {ts us s op l r} (left : Derives (.chain .sum) ts l) (sign : Compares s op)
      (right : Derives (.chain .sum) us r) :
      Links (ts ++ .symbol s :: us) (.binary (.compare op) l r) r
  | next {ts us s op e l r} (front : Links ts e l) (sign : Compares s op)
      (right : Derives (.chain .sum) us r) :
      Links (ts ++ .symbol s :: us)
        (.binary (.logic .and) e (.binary (.compare op) l r)) r

/-- Formulas with commas between them. -/
inductive Arguments : List (Token α) → List (Expr α) → Prop
  | last {ts e} (only : Derives (.chain .or) ts e) : Arguments ts [e]
  | next {ts us e es} (first : Derives (.chain .or) ts e) (others : Arguments us es) :
      Arguments (ts ++ .comma :: us) (e :: es)

end

mutual

theorem Derives.opens {p : Phrase} {ts : List (Token α)} {e : Expr α} (h : Derives p ts e) :
    Opens p ts := by
  match h with
  | .number value => exact ⟨_, _, _, rfl, .number value, Nat.le_refl _⟩
  | .true | .false | .name .. | .emptyCall .. | .call .. =>
    exact ⟨_, _, _, rfl, .name _, Nat.le_refl _⟩
  | .parentheses _ => exact ⟨_, _, _, rfl, .parenthesis, Nat.le_refl _⟩
  | .base base => exact base.opens.of_rank_le (by decide)
  | .power base _ => exact (base.opens.append _).of_rank_le (by decide)
  | .unsigned term => exact term.opens.of_rank_le (by decide)
  | .plus _ => exact ⟨_, _, _, rfl, .plus, Nat.le_refl _⟩
  | .minus _ _ => exact ⟨_, _, _, rfl, .minus, Nat.le_refl _⟩
  | .single only => exact only.opens.of_rank_le (Nat.le_of_lt (rank_operand _))
  | .join front _ _ => exact front.opens.append _
  | .term only => exact only.opens.of_rank_le (by decide)
  | .links links => exact links.opens.of_rank_le (by decide)
  | .positive condition => exact condition.opens.of_rank_le (by decide)
  | .not _ => exact ⟨_, _, _, rfl, .not, Nat.le_refl _⟩

theorem Links.opens {ts : List (Token α)} {e l : Expr α} (h : Links ts e l) :
    Opens (.chain .sum) ts := by
  match h with
  | .first left _ _ => exact left.opens.append _
  | .next front _ _ => exact front.opens.append _

end

theorem Arguments.opens {ts : List (Token α)} {es : List (Expr α)} (h : Arguments ts es) :
    Opens (.chain .or) ts := by
  cases h with
  | last only => exact only.opens
  | next first => exact first.opens.append _

end Grammar

end HybridAutomata
