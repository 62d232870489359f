import HybridAutomata.Proofs.Expr.RoundTrip

/-!
# Writing what was read

A formula that was read has names of the grammar only, and no sign in front of a literal, since the
parser takes those into it. So it is read back as it is written, as far as its literals and
negations allow. Negations do not always: `(!x) + y` is written without the parentheses.
-/

namespace HybridAutomata

open Token Grammar

namespace Expr

/-! ## Names -/

section

variable {α : Type} {e l r : Expr α} {value : α} {b : Bool} {name : String}
  {args : List (Expr α)}

theorem named_num : (num value).Named := ⟨by simp, by simp⟩

theorem named_bool : (bool b : Expr α).Named := ⟨by simp, by simp⟩

theorem named_var (isName : IsName name) : (var name : Expr α).Named :=
  ⟨by rintro _ ⟨⟩; exact isName, by simp⟩

theorem Named.unary (op : UnaryOp) (h : e.Named) : (Expr.unary op e).Named where
  var name inside := h.var name (by simpa using inside)
  call name args inside := h.call name args (by simpa using inside)

theorem Named.binary (op : BinaryOp) (hl : l.Named) (hr : r.Named) :
    (Expr.binary op l r).Named where
  var name inside := by
    obtain inside | inside : Part (.var name) l ∨ Part (.var name) r := by simpa using inside
    · exact hl.var name inside
    · exact hr.var name inside
  call name args inside := by
    obtain inside | inside : Part (.call name args) l ∨ Part (.call name args) r := by
      simpa using inside
    · exact hl.call name args inside
    · exact hr.call name args inside

theorem named_call (isName : IsName name) (h : ∀ e ∈ args, e.Named) :
    (Expr.call name args).Named where
  var other inside := by
    obtain ⟨e, mem, inside⟩ : ∃ e ∈ args, Part (.var other) e := by simpa using inside
    exact (h e mem).var other inside
  call other args' inside := by
    obtain ⟨⟨rfl, rfl⟩⟩ | ⟨e, mem, inside⟩ := part_call.mp inside
    · exact isName
    · exact (h e mem).call other args' inside

variable [Scalar α]

theorem Named.negated (h : e.Named) : (Parser.negated e).Named := by
  cases e with
  | num => exact named_num
  | _ => exact h.unary .neg

end

end Expr

namespace Grammar

variable {α : Type} [Scalar α]

mutual

/-- The tree of a phrase has the names that its tokens have. -/
theorem Derives.named {p : Phrase} {ts : List (Token α)} {e : Expr α} (h : Derives p ts e)
    (names : ∀ name, .ident name ∈ ts → IsIdentifier name) : e.Named := by
  match h with
  | .number _ => exact Expr.named_num
  | .true | .false => exact Expr.named_bool
  | .name notTrue notFalse => exact Expr.named_var ⟨names _ (by simp), notTrue, notFalse⟩
  | .emptyCall notTrue notFalse =>
      exact Expr.named_call ⟨names _ (by simp), notTrue, notFalse⟩ (by simp)
  | .call notTrue notFalse inside =>
      exact Expr.named_call ⟨names _ (by simp), notTrue, notFalse⟩
        (inside.named fun name mem => names name (by simp [mem]))
  | .parentheses inside => exact inside.named fun name mem => names name (by simp [mem])
  | .base base => exact base.named names
  | .power base exponent =>
      exact (base.named fun name mem => names name (by simp [mem])).binary _
        (exponent.named fun name mem => names name (by simp [mem]))
  | .unsigned term => exact term.named names
  | .plus term => exact term.named fun name mem => names name (by simp [mem])
  | .minus term _ => exact (term.named fun name mem => names name (by simp [mem])).negated
  | .single only => exact only.named names
  | .join front _ last =>
      exact (front.named fun name mem => names name (by simp [mem])).binary _
        (last.named fun name mem => names name (by simp [mem]))
  | .term only => exact only.named names
  | .links links => exact (links.named names).1
  | .positive condition => exact condition.named names
  | .not condition => exact (condition.named fun name mem => names name (by simp [mem])).unary .not

theorem Links.named {ts : List (Token α)} {e last : Expr α} (h : Links ts e last)
    (names : ∀ name, .ident name ∈ ts → IsIdentifier name) : e.Named ∧ last.Named := by
  match h with
  | .first left _ right =>
      have hr := right.named fun name mem => names name (by simp [mem])
      exact ⟨(left.named fun name mem => names name (by simp [mem])).binary _ hr, hr⟩
  | .next front _ right =>
      have ⟨hf, hl⟩ := front.named fun name mem => names name (by simp [mem])
      have hr := right.named fun name mem => names name (by simp [mem])
      exact ⟨hf.binary _ (hl.binary _ hr), hr⟩

theorem Arguments.named {ts : List (Token α)} {es : List (Expr α)} (h : Arguments ts es)
    (names : ∀ name, .ident name ∈ ts → IsIdentifier name) : ∀ e ∈ es, e.Named := by
  match h with
  | .last only => simpa using only.named names
  | .next first others =>
      exact List.forall_mem_cons.mpr ⟨first.named fun name mem => names name (by simp [mem]),
        others.named fun name mem => names name (by simp [mem])⟩

end

/-! ## Signs -/

mutual

/-- The parser leaves no sign in front of a literal. -/
theorem Derives.foldSigns {p : Phrase} {ts : List (Token α)} {e : Expr α} (h : Derives p ts e) :
    e.foldSigns = e := by
  match h with
  | .number _ | .true | .false | .name .. | .emptyCall .. => rfl
  | .call _ _ inside => rw [Expr.foldSigns, inside.foldSigns]
  | .parentheses inside => exact inside.foldSigns
  | .base base => exact base.foldSigns
  | .power base exponent => rw [Expr.foldSigns, base.foldSigns, exponent.foldSigns]
  | .unsigned term => exact term.foldSigns
  | .plus term => exact term.foldSigns
  | .minus term _ => rw [Expr.foldSigns_negated, term.foldSigns]
  | .single only => exact only.foldSigns
  | .join front _ last => rw [Expr.foldSigns, front.foldSigns, last.foldSigns]
  | .term only => exact only.foldSigns
  | .links links => exact links.foldSigns.1
  | .positive condition => exact condition.foldSigns
  | .not condition => rw [Expr.foldSigns, condition.foldSigns]

theorem Links.foldSigns {ts : List (Token α)} {e last : Expr α} (h : Links ts e last) :
    e.foldSigns = e ∧ last.foldSigns = last := by
  match h with
  | .first left _ right =>
      exact ⟨by rw [Expr.foldSigns, left.foldSigns, right.foldSigns], right.foldSigns⟩
  | .next front _ right =>
      obtain ⟨folded, last⟩ := front.foldSigns
      exact ⟨by rw [Expr.foldSigns, Expr.foldSigns, folded, last, right.foldSigns],
        right.foldSigns⟩

theorem Arguments.foldSigns {ts : List (Token α)} {es : List (Expr α)} (h : Arguments ts es) :
    Expr.foldArgSigns es = es := by
  match h with
  | .last only => rw [Expr.foldArgSigns, Expr.foldArgSigns, only.foldSigns]
  | .next first others => rw [Expr.foldArgSigns, first.foldSigns, others.foldSigns]

end

end Grammar

namespace Expr

/-- The tree of a text is derived from the tokens that the text is cut into. -/
theorem exists_derives_of_parse {α : Type} [Scalar α] {text : String} {e : Expr α}
    (parsed : parse text = .ok e) :
    ∃ ls, scan 0 text.toList = .ok ls ∧ Derives (.chain .or) (ls.map Lexeme.token) e := by
  unfold parse at parsed
  split at parsed
  · cases parsed
  · next ls scanned =>
      exact ⟨ls, scanned, derives_of_formula_eq_ok (Success.mapError_eq_ok_iff.mp parsed)⟩

/-- A formula that was read is read back as it is written, if its literals are finite and no negation
in it misses its parentheses. -/
theorem parse_text_of_parse {text : String} {e : Expr Float} (parsed : parse text = .ok e)
    (literals : e.FiniteLiterals) (negations : e.ReadableNegations) :
    ∃ e', parse e.text = .ok e' ∧ (e' == e) = true := by
  obtain ⟨ls, scanned, derived⟩ := exists_derives_of_parse parsed
  have names : e.Named := derived.named fun name => isIdentifier_of_scan scanned
  -- Signs in front of literals are folded already, so reading back folds none.
  have folded : e.foldSigns = e := derived.foldSigns
  obtain ⟨e', same, spells⟩ := Legible.spells (.inl rfl) e ⟨names, literals, negations⟩
  rw [folded] at same
  exact ⟨e', (spells.loosen (Phrase.rank_le _)).parse, same⟩

/-- The condition `!(x <= 0.5) && y`. -/
def strictlyAbove : Expr Float :=
  .binary (.logic .and) (.not (.le (.var "x") (.num 0.5))) (.var "y")

theorem parse_text_strictlyAbove :
    parse "!(x <= 0.5) && y" = .ok strictlyAbove ∧ strictlyAbove.FiniteLiterals ∧
      strictlyAbove.ReadableNegations ∧
      ∃ e', parse strictlyAbove.text = .ok e' ∧ (e' == strictlyAbove) = true := by
  have x : IsName "x" := ⟨isIdentifier_of_all rfl rfl rfl, by decide⟩
  have y : IsName "y" := ⟨isIdentifier_of_all rfl rfl rfl, by decide⟩
  have digits : IsNumberText "0.5".toList := isNumberText_of_all rfl rfl
  have value : (Numeral.decimal false 5 (-1)).toScalar = (0.5 : Float) := by decide +kernel
  have half : Spells (α := Float) "0.5" .atom (.num 0.5) := value ▸ spells_number digits rfl
  have condition : Spells (α := Float) "!(x <= 0.5)" .negation (.not (.le (.var "x") (.num 0.5))) :=
    ((((x.spells.loosen (by decide)).compare (s := .lessEq) .lessEq
      (half.loosen (by decide))).parentheses).loosen (by decide)).not
  have parsed : parse "!(x <= 0.5) && y" = .ok strictlyAbove :=
    (((condition.loosen (by decide)).join (s := .andAnd) .andAnd
      (y.spells.loosen (by decide))).loosen (by decide)).parse
  have literals : strictlyAbove.FiniteLiterals := by
    intro c inside
    obtain rfl : c = 0.5 := by simpa [strictlyAbove] using inside
    decide +kernel
  have negations : strictlyAbove.ReadableNegations := by
    intro op l r inside
    obtain ⟨rfl, -⟩ | ⟨rfl, -, rfl⟩ := by simpa [strictlyAbove] using inside
    · trivial
    · rintro ⟨o, ⟨⟩⟩
  exact ⟨parsed, literals, negations, parse_text_of_parse parsed literals negations⟩

/-! ## Negations without their parentheses -/

section

variable {o r : Expr Float} {op : ArithOp}

/-- An operand of a negation without parentheses is an operand of products, or a negation. -/
theorem rank_of_wrapsOperand_not_of_not_isNegation (noNegation : ¬o.IsNegation)
    (bare : wrapsOperand .not o = false) : o.phrase.rank ≤ Phrase.unary.rank := by
  have strong : unaryStrength ≤ o.strength := by simpa [wrapsOperand] using bare
  change 6 ≤ o.strength at strong
  change o.phrase.rank ≤ 3
  obtain atom | tight | loose | ⟨negation, -⟩ := o.strength_cases
  · omega
  · omega
  · omega
  · exact absurd negation noNegation

theorem text_negation_arith (noPower : op ≠ .pow) :
    (Expr.binary (.arith op) (.not o) r).text =
      "!" ++ (parenthesized (wrapsOperand .not o) o.text ++ " " ++
        Spelling.standard.symbol (.arith op) ++ " " ++
        parenthesized (wrapsRight (.arith op) r) r.text) := by
  have bare : wrapsLeft (.arith op) (.not o) = false := by
    cases op <;> first | rfl | exact absurd rfl noPower
  simp only [text, render, bare, parenthesized, Spelling.unarySymbol, Spelling.standard,
    String.append_assoc]
  rfl

/-- A negation in front of an arithmetic sign is written without parentheses, and is read back as
the negation of the whole. -/
theorem parse_text_negation (noPower : op ≠ .pow) (ho : Legible o) (hr : Legible r)
    (noNegation : ¬o.IsNegation) (fit : ¬r.IsNegation) :
    ∃ o' r', parse (Expr.binary (.arith op) (.not o) r).text =
        .ok (.not (.binary (.arith op) o' r')) ∧
      (o' == o.foldSigns) = true ∧ (r' == r.foldSigns) = true := by
  obtain ⟨o', sameO, spellsO⟩ := ho.spells (.inl rfl) o
  obtain ⟨r', sameR, spellsR⟩ := hr.spells (.inl rfl) r
  have fits : NegationsFit (.arith op) o r := by
    cases op <;> first | exact ⟨noNegation, fit⟩ | exact fit
  have left : Spells _ (BinaryOp.arith op).leftPhrase o' :=
    (spellsO.parenthesized (rank_of_wrapsOperand_not_of_not_isNegation noNegation)).loosen
      (by cases op <;> first | exact absurd rfl noPower | decide)
  have right := spellsR.parenthesized (rank_of_wrapsRight fits)
  -- The whole is tighter than a negation, so a negation sign in front takes up all of it.
  have whole := (Spells.binary (.inl rfl) left right).loosen (q := .negation)
    (by cases op <;> decide)
  refine ⟨o', r', ?_, sameO, sameR⟩
  rw [text_negation_arith noPower]
  exact (whole.not.loosen (by decide)).parse

theorem legible_var {name : String} (isName : IsName name) : Legible (.var name) where
  names := named_var isName
  literals := by rintro c ⟨⟩
  negations := by rintro op l r ⟨⟩

/-- The sum that `(!x) + y` stands for is not read back as it is written. -/
theorem parse_text_negation_ne :
    parse (α := Float) "(!x) + y" = .ok (.add (.not (.var "x")) (.var "y")) ∧
      ∃ e' : Expr Float, parse (Expr.add (α := Float) (.not (.var "x")) (.var "y")).text = .ok e' ∧
        (e' == .add (.not (.var "x")) (.var "y")) = false := by
  have x : IsName "x" := ⟨isIdentifier_of_all rfl rfl rfl, by decide⟩
  have y : IsName "y" := ⟨isIdentifier_of_all rfl rfl rfl, by decide⟩
  have parentheses : Spells (α := Float) "(!x)" .atom (.not (.var "x")) :=
    (x.spells.loosen (by decide)).not.parentheses
  have parsed : parse (α := Float) "(!x) + y" = .ok (.add (.not (.var "x")) (.var "y")) :=
    (((parentheses.loosen (by decide)).join (s := .plus) .plus
      (y.spells.loosen (by decide))).loosen (by decide)).parse
  have noNegation (name : String) : ¬(Expr.var (α := Float) name).IsNegation := by
    rintro ⟨o, ⟨⟩⟩
  have noPower : ArithOp.add ≠ .pow := by decide
  obtain ⟨o', r', back, -, -⟩ := parse_text_negation noPower (legible_var x) (legible_var y)
    (noNegation "x") (noNegation "y")
  exact ⟨parsed, _, back, rfl⟩

end

end Expr

end HybridAutomata
