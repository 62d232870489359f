import HybridAutomata.Proofs.Doubles.ReadBack
import HybridAutomata.Proofs.Expr.Parts
import HybridAutomata.Proofs.Expr.Precedence

/-!
# Reading back what is written

The written form of a formula is parsed back to the formula, with the signs in front of literals
taken into them. The literals have to be finite, the names have to be names of the grammar, and no
negation may stand where the printer forgets its parentheses.

The proof is one induction on the formula: its text spells a phrase of the kind that its root makes,
and parentheses are put around an operand wherever that kind does not fit.
-/

namespace HybridAutomata

open Grammar Token

namespace Expr

/-! ## Signs in front of literals -/

section

variable {α : Type} [Scalar α]

mutual

/-- Takes minus signs into the literals behind them, the innermost sign first. -/
def foldSigns : Expr α → Expr α
  | .num value => .num value
  | .bool value => .bool value
  | .var name => .var name
  | .unary .neg e => Parser.negated (foldSigns e)
  | .unary .not e => .not (foldSigns e)
  | .binary op l r => .binary op (foldSigns l) (foldSigns r)
  | .call name args => .call name (foldArgSigns args)

@[inherit_doc foldSigns] def foldArgSigns : List (Expr α) → List (Expr α)
  | [] => []
  | e :: es => foldSigns e :: foldArgSigns es

end

theorem foldSigns_negated (e : Expr α) :
    (Parser.negated e).foldSigns = Parser.negated e.foldSigns := by
  cases e <;> rfl

end

/-! ## Equality up to the signs of zeros -/

section

variable {α : Type} [BEq α] {l r l' r' : Expr α} {es es' : List (Expr α)}

theorem same_binary (op : BinaryOp) (hl : same l l' = true) (hr : same r r' = true) :
    same (.binary op l r) (.binary op l' r') = true := by
  simp [same, hl, hr]

theorem same_call (name : String) (h : sameArgs es es' = true) :
    same (.call name es) (.call name es') = true := by
  simp [same, h]

theorem sameArgs_cons (head : same l l' = true) (tail : sameArgs es es' = true) :
    sameArgs (l :: es) (l' :: es') = true := by
  simp [sameArgs, head, tail]

end

theorem same_negated {e e' : Expr Float} (h : same e' e = true) :
    same (Parser.negated e') (Parser.negated e) = true := by
  cases e' <;> cases e <;> first
    | exact Double.neg_beq_neg h
    | exact h

/-! ## Formulas that are read back -/

/-- The names in a formula are names of the grammar. -/
structure Named {α : Type} (e : Expr α) : Prop where
  var : ∀ name, Part (.var name) e → IsName name
  call : ∀ name args, Part (.call name args) e → IsName name

/-- No negation in a formula misses its parentheses. -/
def ReadableNegations {α : Type} (e : Expr α) : Prop :=
  ∀ op l r, Part (.binary op l r) e → NegationsFit op l r

/-- A formula whose written form shows all of it. -/
structure Legible (e : Expr Float) : Prop where
  names : e.Named
  literals : e.FiniteLiterals
  negations : e.ReadableNegations

/-- What a legible formula contains is legible. -/
theorem Legible.part {e o : Expr Float} (h : Legible e) (inside : ∀ s, Part s o → Part s e) :
    Legible o where
  names := ⟨fun _ part => h.names.var _ (inside _ part),
    fun _ _ part => h.names.call _ _ (inside _ part)⟩
  literals _ part := h.literals _ (inside _ part)
  negations _ _ _ part := h.negations _ _ _ (inside _ part)

end Expr

namespace Double

open HybridAutomata.Expr

/-- What is written for a literal spells it. -/
theorem spells_formatNumber {x : Float} (finite : Scalar.isFinite x = true) :
    ∃ y, (y == x) = true ∧ Spells (formatNumber x) (Expr.num x).phrase (.num y) := by
  obtain ⟨word, n, isNumber, numeral, ⟨written, same⟩ | ⟨written, same, negative⟩⟩ :=
    exists_formatNumber finite
  · rw [written]
    exact ⟨_, same, (spells_number isNumber numeral).loosen (Phrase.rank_pos _)⟩
  · rw [written]
    have phrase : (Expr.num x).phrase = .unary := if_pos negative
    rw [phrase]
    exact ⟨_, same, ((spells_number isNumber numeral).loosen (q := .power) (by decide)).minus⟩

end Double

namespace Expr

mutual

/-- The written form of a legible formula spells it. -/
theorem Legible.spells {s : Spelling} (hs : s.IsReadable) (e : Expr Float) (h : Legible e) :
    ∃ e', same e' e.foldSigns = true ∧ Spells (e.render s) e.phrase e' := by
  match e with
  | .num value =>
      obtain ⟨y, same, spells⟩ := Double.spells_formatNumber (h.literals value (.whole _))
      exact ⟨.num y, same, spells⟩
  | .bool value => exact ⟨.bool value, beq_self_eq_true value, spells_bool value⟩
  | .var name =>
      exact ⟨.var name, beq_self_eq_true name, (h.names.var name (.whole _)).spells⟩
  | .unary .neg o =>
      obtain ⟨o', same, spells⟩ := Legible.spells hs o (h.part fun _ => .operand)
      exact ⟨_, same_negated same, (spells.parenthesized rank_of_wrapsOperand_neg).minus⟩
  | .unary .not o =>
      obtain ⟨o', same, spells⟩ := Legible.spells hs o (h.part fun _ => .operand)
      have sign : s.not = "!" := by obtain rfl | rfl := hs <;> rfl
      refine ⟨.not o', same, ?_⟩
      rw [render, Spelling.unarySymbol, sign]
      exact (spells.parenthesized rank_of_wrapsOperand_not).not
  | .binary op l r =>
      have fit := h.negations op l r (.whole _)
      obtain ⟨l', sameL, spellsL⟩ := Legible.spells hs l (h.part fun _ => .left)
      obtain ⟨r', sameR, spellsR⟩ := Legible.spells hs r (h.part fun _ => .right)
      refine ⟨.binary op l' r', same_binary op sameL sameR, ?_⟩
      rw [render]
      exact .binary hs (spellsL.parenthesized (rank_of_wrapsLeft fit))
        (spellsR.parenthesized (rank_of_wrapsRight fit))
  | .call name args =>
      have isName := h.names.call name args (.whole _)
      -- The grammar has a rule of its own for a call without arguments.
      obtain ⟨args', sames, ⟨rfl, rfl⟩ | ⟨_, spells⟩⟩ := Legible.spellsArgs hs args
        fun e mem => h.part fun _ => .argument mem
      · exact ⟨.call name [], same_call name rfl, isName.emptyCall⟩
      · exact ⟨.call name args', same_call name sames, spells.call isName⟩

/-- The written forms of such formulas, with commas between them, spell arguments, unless there are
none. -/
theorem Legible.spellsArgs {s : Spelling} (hs : s.IsReadable) (es : List (Expr Float))
    (h : ∀ e ∈ es, Legible e) :
    ∃ es', sameArgs es' (foldArgSigns es) = true ∧
      (es = [] ∧ es' = [] ∨
        es ≠ [] ∧ SpellsArguments (", ".intercalate (renderArgs s es)) es') := by
  match es with
  | [] => exact ⟨[], rfl, .inl ⟨rfl, rfl⟩⟩
  | e :: es =>
      obtain ⟨e', same, spells⟩ := Legible.spells hs e (h e (List.mem_cons_self ..))
      obtain ⟨es', sames, others⟩ := Legible.spellsArgs hs es
        fun o mem => h o (List.mem_cons_of_mem e mem)
      refine ⟨e' :: es', sameArgs_cons same sames, .inr ⟨List.cons_ne_nil e es, ?_⟩⟩
      obtain ⟨rfl, rfl⟩ | ⟨more, others⟩ := others
      · simpa [renderArgs] using spells.last
      · cases es with
        | nil => exact absurd rfl more
        | cons next es => simpa [renderArgs] using spells.next others

end

/-- The written form of a legible formula is parsed back, to the formula with the signs in front of
its literals taken into them. -/
theorem parse_render {s : Spelling} (hs : s.IsReadable) {e : Expr Float} (h : Legible e) :
    ∃ e', parse (e.render s) = .ok e' ∧ (e' == e.foldSigns) = true := by
  obtain ⟨e', same, spells⟩ := h.spells hs e
  exact ⟨e', (spells.loosen (Phrase.rank_le _)).parse, same⟩

/-- Signs in front of signs, and a name that is qualified by the instance it belongs to. -/
def signedDifference : Expr Float :=
  .sub (.call "f" [.var "plant.x", .num 0.1]) (.neg (.neg (.num 2.5)))

theorem parse_render_signedDifference :
    Spelling.spaceEx.IsReadable ∧ Legible signedDifference ∧
      ∃ e', parse (signedDifference.render .spaceEx) = .ok e' ∧
        (e' == signedDifference.foldSigns) = true := by
  have readable : Spelling.spaceEx.IsReadable := .inr rfl
  have names : signedDifference.Named := by
    constructor
    · intro name inside
      obtain rfl : name = "plant.x" := by simpa [signedDifference] using inside
      exact ⟨isIdentifier_of_all rfl rfl rfl, by decide⟩
    · intro name args inside
      obtain ⟨rfl, rfl⟩ : name = "f" ∧ args = [.var "plant.x", .num 0.1] := by
        simpa [signedDifference] using inside
      exact ⟨isIdentifier_of_all rfl rfl rfl, by decide⟩
  have literals : signedDifference.FiniteLiterals := by
    intro c inside
    obtain rfl | rfl : c = 0.1 ∨ c = 2.5 := by simpa [signedDifference] using inside
    · decide +kernel
    · decide +kernel
  have negations : signedDifference.ReadableNegations := by
    intro op l r inside
    obtain ⟨rfl, rfl, rfl⟩ : op = .arith .sub ∧
        l = .call "f" [.var "plant.x", .num 0.1] ∧ r = .neg (.neg (.num 2.5)) := by
      simpa [signedDifference] using inside
    constructor <;>
    · rintro ⟨o, ⟨⟩⟩
  exact ⟨readable, ⟨names, literals, negations⟩,
    parse_render readable ⟨names, literals, negations⟩⟩

end Expr

end HybridAutomata
