import HybridAutomata.Expr.Printer
import HybridAutomata.Proofs.Expr.Parsing
import HybridAutomata.Proofs.Expr.Scanning

/-!
# Texts of phrases

A text spells a phrase with a given tree if the scanner cuts it into tokens that the grammar derives
with that tree. The texts that the printer puts together from the texts of operands spell the
phrases that are meant.
-/

namespace HybridAutomata

namespace Grammar

open HybridAutomata.Parser Token

variable {α : Type} [Scalar α] {p q : Phrase} {ts : List (Token α)} {e l r : Expr α}
  {text left right name : String} {es : List (Expr α)}

/-! ## Looser phrases -/

omit [Scalar α] in
theorem Phrase.rank_le (p : Phrase) : p.rank ≤ Phrase.rank (.chain .or) := by
  rcases p with _ | _ | _ | level | _ | _
  case chain => cases level <;> decide
  all_goals decide

theorem Phrase.rank_pos (p : Phrase) : Phrase.rank .atom ≤ p.rank := by
  rcases p with _ | _ | _ | level | _ | _
  case chain => cases level <;> decide
  all_goals decide

theorem Phrase.eq_of_rank (h : p.rank = q.rank) : p = q := by
  rcases p with _ | _ | _ | (_ | _ | _ | _) | _ | _ <;>
    rcases q with _ | _ | _ | (_ | _ | _ | _) | _ | _ <;> first | rfl | cases h

/-- A phrase is a phrase of every looser kind. -/
theorem Derives.loosen {p q : Phrase} (h : Derives p ts e) (le : p.rank ≤ q.rank) :
    Derives q ts e := by
  obtain same | below := Nat.eq_or_lt_of_le le
  · rwa [← Phrase.eq_of_rank same]
  cases q with
  | atom => exact absurd below (Nat.not_lt.mpr p.rank_pos)
  | power => exact .base (h.loosen (q := .atom) (Nat.le_of_lt_succ below))
  | unary => exact .unsigned (h.loosen (q := .power) (Nat.le_of_lt_succ below))
  | chain level =>
      have tighter := rank_operand level
      have fits : p.rank ≤ (operand level).rank := by
        cases level <;> exact Nat.le_of_lt_succ below
      exact .single (h.loosen fits)
  | comparison => exact .term (h.loosen (q := .chain .sum) (Nat.le_of_lt_succ below))
  | negation => exact .positive (h.loosen (q := .comparison) (Nat.le_of_lt_succ below))
termination_by q.rank

/-! ## Spelling -/

/-- A text is read as a phrase with a tree. No text of a phrase begins with an equality sign, which
a negation sign in front of it would take up. -/
structure Spells (text : String) (p : Phrase) (e : Expr α) : Prop where
  noEq : text.toList.head? ≠ some '='
  cuts : ∃ ts, Derives p ts e ∧ Cuts text ts

theorem Spells.loosen (h : Spells text p e) (le : p.rank ≤ q.rank) : Spells text q e := by
  obtain ⟨ts, derived, cuts⟩ := h.cuts
  exact ⟨h.noEq, ts, derived.loosen le, cuts⟩

/-- A text that spells a formula is parsed with its tree. -/
theorem Spells.parse (h : Spells text (.chain .or) e) : Expr.parse text = .ok e := by
  obtain ⟨ts, derived, cuts⟩ := h.cuts
  obtain ⟨ls, scanned, rfl⟩ := cuts.scans 0
  rw [Expr.parse, scanned]
  dsimp only
  rw [derived.formula_eq_ok]
  rfl

theorem Spells.parentheses (h : Spells text p e) : Spells ("(" ++ text ++ ")") .atom e := by
  obtain ⟨ts, derived, cuts⟩ := h.cuts
  exact ⟨by simp, _, .parentheses (derived.loosen p.rank_le), cuts.parentheses⟩

/-- An operand fits where it is put, in parentheses if it has to be. -/
theorem Spells.parenthesized {wrap : Bool} (h : Spells text p e)
    (fits : wrap = false → p.rank ≤ q.rank) : Spells (Expr.parenthesized wrap text) q e := by
  cases wrap with
  | true => exact h.parentheses.loosen q.rank_pos
  | false => exact h.loosen (fits rfl)

theorem noEq_operator {s : Symbol} (noEq : left.toList.head? ≠ some '=') :
    (left ++ " " ++ s.text ++ " " ++ right).toList.head? ≠ some '=' := by
  simp only [String.toList_append, List.append_assoc]
  cases h : left.toList with
  | nil => simp
  | cons c cs => simpa [h] using noEq

theorem Spells.join {level : Level} {s : Symbol} {op : BinaryOp}
    (hl : Spells left (.chain level) l) (sign : Joins level s op)
    (hr : Spells right (operand level) r) :
    Spells (left ++ " " ++ s.text ++ " " ++ right) (.chain level) (.binary op l r) := by
  obtain ⟨ts, front, cutsL⟩ := hl.cuts
  obtain ⟨us, last, cutsR⟩ := hr.cuts
  exact ⟨noEq_operator hl.noEq, _, .join front sign last, cutsL.operator s cutsR⟩

theorem Spells.compare {s : Symbol} {op : Comparison} (hl : Spells left (.chain .sum) l)
    (sign : Compares s op) (hr : Spells right (.chain .sum) r) :
    Spells (left ++ " " ++ s.text ++ " " ++ right) .comparison (.binary (.compare op) l r) := by
  obtain ⟨ts, first, cutsL⟩ := hl.cuts
  obtain ⟨us, last, cutsR⟩ := hr.cuts
  exact ⟨noEq_operator hl.noEq, _, .links (.first first sign last), cutsL.operator s cutsR⟩

theorem Spells.pow (hl : Spells left .atom l) (hr : Spells right .unary r) :
    Spells (left ++ " " ++ Symbol.caret.text ++ " " ++ right) .power (.pow l r) := by
  obtain ⟨ts, base, cutsL⟩ := hl.cuts
  obtain ⟨us, exponent, cutsR⟩ := hr.cuts
  exact ⟨noEq_operator hl.noEq, _, .power base exponent, cutsL.operator .caret cutsR⟩

/-- A minus sign is put in front of powers and what binds tighter, so that no two of them meet. -/
theorem Spells.minus (h : Spells text .power e) : Spells ("-" ++ text) .unary (negated e) := by
  obtain ⟨ts, derived, cuts⟩ := h.cuts
  have single := (derived.opens.not_sign (by decide)).1
  exact ⟨by simp, _, .minus (.unsigned derived) single, cuts.minus⟩

theorem Spells.not (h : Spells text .negation e) : Spells ("!" ++ text) .negation (.not e) := by
  obtain ⟨ts, derived, cuts⟩ := h.cuts
  exact ⟨by simp, _, .not derived, cuts.not h.noEq⟩

/-! ## Atoms -/

/-- What is scanned as a name is one, except for the two truth values. -/
def IsName (name : String) : Prop := IsIdentifier name ∧ name ≠ "true" ∧ name ≠ "false"

omit [Scalar α] in
theorem IsName.noEq (h : IsName name) (tail : String) :
    (name ++ tail).toList.head? ≠ some '=' := by
  obtain ⟨⟨c, w, letters, start, _⟩, _⟩ := h
  rw [String.toList_append, letters]
  rintro ⟨⟩
  cases start

theorem IsName.spells (h : IsName name) : Spells (α := α) name .atom (.var name) :=
  ⟨by simpa using h.noEq "", _, .name h.2.1 h.2.2, cuts_name h.1⟩

theorem spells_bool (b : Bool) :
    Spells (α := α) (if b then "true" else "false") .atom (.bool b) := by
  cases b with
  | true => exact ⟨by decide, _, .true, cuts_name (isIdentifier_of_all rfl rfl rfl)⟩
  | false => exact ⟨by decide, _, .false, cuts_name (isIdentifier_of_all rfl rfl rfl)⟩

theorem IsNumberText.noEq (h : IsNumberText text.toList) : text.toList.head? ≠ some '=' := by
  obtain ⟨c, rest, eq, digit⟩ := h.digit
  rw [eq]
  rintro ⟨⟩
  cases digit

theorem spells_number {n : Numeral} (isNumber : IsNumberText text.toList)
    (reads : Numeral.ofList? text.toList = some n) :
    Spells (α := α) text .atom (.num n.toScalar) :=
  ⟨IsNumberText.noEq isNumber, _, .number _, cuts_number isNumber reads⟩

/-! ## Calls -/

/-- A text is read as the arguments of a call. -/
def SpellsArguments (text : String) (es : List (Expr α)) : Prop :=
  ∃ ts, Arguments ts es ∧ Cuts text ts

theorem Spells.last (h : Spells text p e) : SpellsArguments text [e] := by
  obtain ⟨ts, derived, cuts⟩ := h.cuts
  exact ⟨ts, .last (derived.loosen p.rank_le), cuts⟩

theorem Spells.next (h : Spells left p e) (others : SpellsArguments right es) :
    SpellsArguments (left ++ ", " ++ right) (e :: es) := by
  obtain ⟨ts, derived, cutsL⟩ := h.cuts
  obtain ⟨us, further, cutsR⟩ := others
  exact ⟨_, .next (derived.loosen p.rank_le) further, cutsL.comma cutsR⟩

theorem SpellsArguments.call (h : SpellsArguments text es) (isName : IsName name) :
    Spells (name ++ "(" ++ text ++ ")") .atom (.call name es) := by
  obtain ⟨ts, arguments, cuts⟩ := h
  refine ⟨?_, _, .call isName.2.1 isName.2.2 arguments, (cuts_name isName.1).call cuts⟩
  rw [String.append_assoc, String.append_assoc]
  exact isName.noEq _

theorem IsName.emptyCall (h : IsName name) :
    Spells (α := α) (name ++ "(" ++ "" ++ ")") .atom (.call name []) := by
  have nothing : Cuts (α := α) "" [] := fun _ _ _ scanned => scanned
  refine ⟨?_, _, .emptyCall h.2.1 h.2.2, (cuts_name h.1).call nothing⟩
  rw [String.append_assoc, String.append_assoc]
  exact h.noEq _

end Grammar

end HybridAutomata
