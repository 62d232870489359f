import HybridAutomata.Proofs.Expr.Spelling

/-!
# The order of binding

The printer leaves parentheses out by its order of binding. The order of the grammar is the same,
with one exception: the printer takes a negation to bind like a sign, and the grammar takes it to
bind more loosely than comparisons. Where no negation stands in a place in which this matters, an
operand that the printer leaves bare is what the grammar wants there.
-/

namespace HybridAutomata

open Grammar

/-! ## The phrases of operators and formulas -/

namespace BinaryOp

/-- The phrase that an operator makes of its operands. -/
def phrase : BinaryOp → Phrase
  | logic .or => .chain .or
  | logic .and => .chain .and
  | compare _ => .comparison
  | arith .add | arith .sub => .chain .sum
  | arith .mul | arith .div => .chain .product
  | arith .pow => .power

/-- What the left operand has to be. Chains lean to the left, comparisons and powers do not. -/
def leftPhrase : BinaryOp → Phrase
  | compare _ => .chain .sum
  | arith .pow => .atom
  | op => op.phrase

/-- What the right operand has to be. -/
def rightPhrase : BinaryOp → Phrase
  | logic .or => .chain .and
  | logic .and => .negation
  | compare _ => .chain .sum
  | arith .add | arith .sub => .chain .product
  | arith .mul | arith .div | arith .pow => .unary

end BinaryOp

/-- A spelling whose signs the grammar has. -/
def Spelling.IsReadable (s : Spelling) : Prop := s = .standard ∨ s = .spaceEx

/-- Every operator is written with a sign that the grammar reads as this operator. -/
theorem Spelling.IsReadable.reads {s : Spelling} (hs : s.IsReadable) (op : BinaryOp) :
    (∃ level sign, Joins level sign op ∧ s.symbol op = sign.text ∧ op.phrase = .chain level ∧
      op.leftPhrase = .chain level ∧ op.rightPhrase = Grammar.operand level) ∨
    (∃ sign o, Compares sign o ∧ s.symbol op = sign.text ∧ op = .compare o) ∨
    (s.symbol op = Symbol.caret.text ∧ op = .arith .pow) := by
  match op with
  | .logic .or =>
      obtain rfl | rfl := hs
      · exact .inl ⟨_, _, .orOr, rfl, rfl, rfl, rfl⟩
      · exact .inl ⟨_, _, .or, rfl, rfl, rfl, rfl⟩
  | .logic .and =>
      obtain rfl | rfl := hs
      · exact .inl ⟨_, _, .andAnd, rfl, rfl, rfl, rfl⟩
      · exact .inl ⟨_, _, .and, rfl, rfl, rfl, rfl⟩
  | .arith .add => exact .inl ⟨_, _, .plus, rfl, rfl, rfl, rfl⟩
  | .arith .sub => exact .inl ⟨_, _, .minus, rfl, rfl, rfl, rfl⟩
  | .arith .mul => exact .inl ⟨_, _, .times, rfl, rfl, rfl, rfl⟩
  | .arith .div => exact .inl ⟨_, _, .slash, rfl, rfl, rfl, rfl⟩
  | .arith .pow => obtain rfl | rfl := hs <;> exact .inr (.inr ⟨rfl, rfl⟩)
  | .compare .eq => obtain rfl | rfl := hs <;> exact .inr (.inl ⟨_, _, .eqEq, rfl, rfl⟩)
  | .compare .ne => obtain rfl | rfl := hs <;> exact .inr (.inl ⟨_, _, .notEq, rfl, rfl⟩)
  | .compare .lt => exact .inr (.inl ⟨_, _, .less, rfl, rfl⟩)
  | .compare .le => exact .inr (.inl ⟨_, _, .lessEq, rfl, rfl⟩)
  | .compare .gt => exact .inr (.inl ⟨_, _, .greater, rfl, rfl⟩)
  | .compare .ge => exact .inr (.inl ⟨_, _, .greaterEq, rfl, rfl⟩)

section

variable {α : Type} [Scalar α] {l r : Expr α} {left right : String}

/-- An operator between texts of the phrases it asks for. -/
theorem Grammar.Spells.binary {s : Spelling} (hs : s.IsReadable) {op : BinaryOp}
    (hl : Spells left op.leftPhrase l) (hr : Spells right op.rightPhrase r) :
    Spells (left ++ " " ++ s.symbol op ++ " " ++ right) op.phrase (.binary op l r) := by
  obtain ⟨level, sign, joins, written, whole, atLeft, atRight⟩ | ⟨sign, o, compares, written, rfl⟩ |
    ⟨written, rfl⟩ := hs.reads op
  · rw [atLeft] at hl
    rw [atRight] at hr
    rw [whole, written]
    exact hl.join joins hr
  · rw [written]
    exact hl.compare compares hr
  · rw [written]
    exact hl.pow hr

end

namespace Expr

section

variable {α : Type} [Scalar α] {e l r : Expr α} {op : BinaryOp}

/-- The phrase that the written form of a formula is. -/
def phrase : Expr α → Phrase
  | .num value => if value < 0 then .unary else .atom
  | .unary .neg _ => .unary
  | .unary .not _ => .negation
  | .binary op _ _ => op.phrase
  | _ => .atom

/-- A negated condition. -/
def IsNegation (e : Expr α) : Prop := ∃ o, e = .not o

/-- The operands are no negations where those would be written without the parentheses they need:
next to an arithmetic operator, except as the base of a power, and to the right of a comparison. -/
def NegationsFit : BinaryOp → Expr α → Expr α → Prop
  | .arith .pow, _, r => ¬r.IsNegation
  | .arith _, l, r => ¬l.IsNegation ∧ ¬r.IsNegation
  | .compare _, _, r => ¬r.IsNegation
  | .logic _, _, _ => True

/-! ## The printer's order of binding -/

/-- The printer's order of binding is that of the grammar, except for negations. -/
theorem strength_cases (e : Expr α) :
    (e.strength = 10 ∧ e.phrase.rank = 1) ∨
      (3 ≤ e.strength ∧ e.strength ≤ 7 ∧ e.strength + e.phrase.rank = 9) ∨
      (e.strength ≤ 2 ∧ e.strength + e.phrase.rank = 10) ∨
      (e.IsNegation ∧ e.strength = 6 ∧ e.phrase.rank = 7) := by
  cases e with
  | num value =>
      by_cases negative : value < 0 <;>
        simp [strength, phrase, negative, atomStrength, unaryStrength]
  | bool => simp [strength, phrase, atomStrength]
  | var => simp [strength, phrase, atomStrength]
  | call => simp [strength, phrase, atomStrength]
  | unary op o => cases op <;> simp [strength, phrase, unaryStrength, IsNegation]
  | binary op l r =>
      rcases op with op | op | op <;> cases op <;>
        simp [strength, phrase, BinaryOp.phrase, BinaryOp.precedence]

theorem isCondition_of_strength (h : e.strength = 3) : e.isCondition = true := by
  cases e with
  | num value =>
      by_cases negative : value < 0 <;>
        simp [strength, negative, atomStrength, unaryStrength] at h
  | bool => rfl
  | var => cases h
  | call => cases h
  | unary op o => cases h
  | binary op l r => rcases op with op | op | op <;> cases op <;> first | rfl | cases h

omit [Scalar α] in
theorem IsNegation.isCondition (h : e.IsNegation) : e.isCondition = true := by
  obtain ⟨o, rfl⟩ := h
  rfl

/-- An operand of an opposite without parentheses is a power or an atom. -/
theorem rank_of_wrapsOperand_neg (bare : wrapsOperand .neg e = false) :
    e.phrase.rank ≤ Phrase.power.rank := by
  have strong : unaryStrength ≤ e.strength ∧ e.strength ≠ unaryStrength := by
    simpa [wrapsOperand] using bare
  have strengths := e.strength_cases
  change 6 ≤ e.strength ∧ e.strength ≠ 6 at strong
  change e.phrase.rank ≤ 2
  omega

theorem rank_of_wrapsOperand_not (bare : wrapsOperand .not e = false) :
    e.phrase.rank ≤ Phrase.negation.rank := by
  have strong : unaryStrength ≤ e.strength := by simpa [wrapsOperand] using bare
  have strengths := e.strength_cases
  change 6 ≤ e.strength at strong
  change e.phrase.rank ≤ 7
  omega

/-- A left operand without parentheses is what its operator asks for. -/
theorem rank_of_wrapsLeft (fit : NegationsFit op l r) (bare : wrapsLeft op l = false) :
    l.phrase.rank ≤ op.leftPhrase.rank := by
  have strengths := l.strength_cases
  unfold wrapsLeft at bare
  split at bare
  · have strong : 7 < l.strength := Nat.lt_of_not_le (of_decide_eq_false bare)
    change l.phrase.rank ≤ 1
    omega
  · next noPower =>
      obtain ⟨notLooser, number⟩ := Bool.or_eq_false_iff.mp bare
      have strong := Nat.le_of_not_lt (of_decide_eq_false notLooser)
      generalize l.phrase.rank = rank at strengths ⊢
      rcases op with op | op | op
      case arith =>
        cases op <;> simp only [NegationsFit] at fit <;>
          simp only [BinaryOp.leftPhrase, BinaryOp.phrase, Phrase.rank, BinaryOp.precedence]
            at strong ⊢ <;> grind
      case logic =>
        cases op <;>
          simp only [BinaryOp.leftPhrase, BinaryOp.phrase, Phrase.rank, BinaryOp.precedence]
            at strong ⊢ <;> omega
      case compare =>
        have notCondition : l.isCondition ≠ true := by
          simpa [BinaryOp.isComparison] using number
        have notComparison : l.strength ≠ 3 := fun h => notCondition (isCondition_of_strength h)
        have noNegation : ¬l.IsNegation := fun h => notCondition h.isCondition
        change 3 ≤ l.strength at strong
        change rank ≤ 5
        grind

theorem phrase_of_isNegativeNum (negative : r.isNegativeNum = true) : r.phrase = .unary := by
  cases r with
  | num value => exact if_pos (by simpa [isNegativeNum] using negative)
  | _ => cases negative

/-- A right operand without parentheses is what its operator asks for. -/
theorem rank_of_wrapsRight (fit : NegationsFit op l r) (bare : wrapsRight op r = false) :
    r.phrase.rank ≤ op.rightPhrase.rank := by
  have strengths := r.strength_cases
  unfold wrapsRight at bare
  split at bare
  · have strong : 6 ≤ r.strength := Nat.le_of_not_lt (of_decide_eq_false bare)
    change r.phrase.rank ≤ 3
    grind [NegationsFit]
  · next noPower =>
      split at bare
      · next negative =>
          rw [phrase_of_isNegativeNum negative]
          rcases op with op | op | op
          · cases bare
          · cases op <;> decide
          · exact (by decide : (3 : Nat) ≤ 5)
      · have strong := Nat.lt_of_not_le (of_decide_eq_false bare)
        generalize r.phrase.rank = rank at strengths ⊢
        rcases op with op | op | op
        case arith =>
          cases op <;> simp only [NegationsFit] at fit <;>
            simp only [BinaryOp.rightPhrase, Phrase.rank, BinaryOp.precedence] at strong ⊢ <;> grind
        case logic =>
          cases op <;>
            simp only [BinaryOp.rightPhrase, Phrase.rank, BinaryOp.precedence] at strong ⊢ <;> omega
        case compare =>
          change 3 < r.strength at strong
          change rank ≤ 5
          grind [NegationsFit]

end

end Expr

end HybridAutomata
