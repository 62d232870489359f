import HybridAutomata.Proofs.Expr.Reading

/-!
# The parser accepts its grammar

What the parser reads as a phrase is derivable as one, and a phrase is read whenever nothing that
follows it goes on with it. Both directions give the tree along with the tokens, so that the parser
answers on a whole sequence with a tree exactly if the grammar derives the sequence with that tree.

Soundness is by induction on the tokens and, among the readings of the same tokens, on how loose the
phrase is. Completeness is by induction on the derivation. A chain leans to the left while the
parser takes its operands from the left one after the other; the statement for chains is therefore
about every way in which the parser can go on from the end of the chain.
-/

namespace HybridAutomata

namespace Grammar

open HybridAutomata.Parser

variable {α : Type}

/-! ## Where a phrase ends -/

/-- The tokens that a phrase goes on with, each with the kind of phrase it goes on. -/
inductive Continues : Token α → Phrase → Prop
  | call : Continues .lparen .atom
  | exponent : Continues (.symbol .caret) .power
  | join {level s op} (sign : Joins level s op) : Continues (.symbol s) (.chain level)
  | compare {s op} (sign : Compares s op) : Continues (.symbol s) .comparison

/-- Nothing in front of `rest` belongs to a phrase before it, of the kind `p` or tighter. -/
def Ends (p : Phrase) (rest : List (Token α)) : Prop :=
  ∀ t q, rest.head? = some t → Continues t q → p.rank < q.rank

theorem Ends.of_rank_le {p q : Phrase} {rest : List (Token α)} (h : Ends p rest)
    (le : q.rank ≤ p.rank) : Ends q rest :=
  fun t r head continues => Nat.lt_of_le_of_lt le (h t r head continues)

/-- What ends a power ends a signed power: no token goes on with a sign. -/
theorem Ends.unary {rest : List (Token α)} (h : Ends .power rest) : Ends .unary rest := by
  intro t q head continues
  have above := h t q head continues
  rcases continues with _ | _ | ⟨⟨⟩⟩ | _ <;> simp_all

theorem Ends.not_joins {level : Level} {rest : List (Token α)} (h : Ends (.chain level) rest)
    (s : Symbol) (op : BinaryOp) (sign : Joins level s op) : rest.head? ≠ some (.symbol s) :=
  fun head => Nat.lt_irrefl _ (h _ _ head (.join sign))

theorem Ends.not_compares {rest : List (Token α)} (h : Ends .comparison rest)
    (s : Symbol) (op : Comparison) (sign : Compares s op) : rest.head? ≠ some (.symbol s) :=
  fun head => Nat.lt_irrefl _ (h _ _ head (.compare sign))

theorem ends_nil (p : Phrase) : Ends p ([] : List (Token α)) := by
  intro t q head
  cases head

theorem ends_rparen (p : Phrase) (rest : List (Token α)) : Ends p (.rparen :: rest) := by
  intro t q head continues
  cases head
  cases continues

theorem ends_comma (p : Phrase) (rest : List (Token α)) : Ends p (.comma :: rest) := by
  intro t q head continues
  cases head
  cases continues

theorem ends_caret (rest : List (Token α)) : Ends .atom (.symbol .caret :: rest) := by
  rintro t q ⟨⟩ (_ | _ | ⟨⟨⟩⟩ | ⟨⟨⟩⟩)
  decide

theorem ends_join {level : Level} {s : Symbol} {op : BinaryOp} (sign : Joins level s op)
    (rest : List (Token α)) : Ends (operand level) (.symbol s :: rest) := by
  rintro t q ⟨⟩ continues
  cases sign <;> rcases continues with _ | _ | ⟨⟨⟩⟩ | ⟨⟨⟩⟩ <;> decide

theorem ends_compare {s : Symbol} {op : Comparison} (sign : Compares s op)
    (rest : List (Token α)) : Ends (.chain .sum) (.symbol s :: rest) := by
  rintro t q ⟨⟩ continues
  cases sign <;> rcases continues with _ | _ | ⟨⟨⟩⟩ | ⟨⟨⟩⟩ <;> decide

/-! ## Conjunctions of links -/

theorem and_compare {op : Comparison} {e l r : Expr α} (notTrue : e ≠ .bool true) :
    e.and (.binary (.compare op) l r) =
      .binary (.logic .and) e (.binary (.compare op) l r) := by
  simp only [Expr.and]

variable [Scalar α]

theorem Links.ne_true {ts : List (Token α)} {e l : Expr α} (h : Links ts e l) :
    e ≠ .bool true := by
  cases h <;> simp

/-! ## Soundness -/

mutual

/-- What is read as a phrase is one. -/
theorem derives_of_reads {p : Phrase} {ts : List (Token α)} {e : Expr α} {rest : List (Token α)}
    (h : Reads p ts e rest) : ∃ used, used ++ rest = ts ∧ Derives p used e := by
  cases p with
  | atom => exact derives_of_reads_atom h
  | power =>
      obtain ⟨base, mid, front, tail⟩ := reads_power.mp h
      have shorter := front.shorter
      obtain ⟨used, split, derived⟩ := derives_of_reads front
      by_cases caret : mid.head? = some (.symbol .caret)
      · obtain ⟨more, rfl⟩ := List.head?_eq_some_iff.mp caret
        obtain ⟨exponent, inside, rfl⟩ := raised_caret.mp tail
        rw [List.length_cons] at shorter
        obtain ⟨used', rfl, derived'⟩ := derives_of_reads inside
        exact ⟨used ++ .symbol .caret :: used', by simpa using split, .power derived derived'⟩
      · obtain ⟨rfl, rfl⟩ := (raised_end caret).mp tail
        exact ⟨used, split, .base derived⟩
  | unary =>
      by_cases minus : ts.head? = some (.symbol .minus)
      · obtain ⟨more, rfl⟩ := List.head?_eq_some_iff.mp minus
        obtain ⟨single, term, inside, rfl⟩ := reads_minus.mp h
        obtain ⟨used, rfl, derived⟩ := derives_of_reads inside
        refine ⟨.symbol .minus :: used, rfl, .minus derived ?_⟩
        intro double
        obtain ⟨tail, rfl⟩ := List.head?_eq_some_iff.mp double
        exact single rfl
      by_cases plus : ts.head? = some (.symbol .plus)
      · obtain ⟨more, rfl⟩ := List.head?_eq_some_iff.mp plus
        obtain ⟨used, rfl, derived⟩ := derives_of_reads (reads_plus.mp h)
        exact ⟨.symbol .plus :: used, rfl, .plus derived⟩
      · obtain ⟨used, split, derived⟩ := derives_of_reads ((reads_unsigned minus plus).mp h)
        exact ⟨used, split, .unsigned derived⟩
  | chain level =>
      obtain ⟨l, mid, front, tail⟩ := reads_chain.mp h
      have shorter := front.shorter
      have tighter := rank_operand level
      obtain ⟨used, split, single⟩ := derives_of_reads front
      obtain ⟨used', split', whole⟩ := derives_of_extends (.single single) tail
      exact ⟨used ++ used', by rw [List.append_assoc, split', split], whole⟩
  | comparison =>
      obtain ⟨first, mid, links, left, tail, rfl⟩ := reads_comparison.mp h
      have shorter := left.shorter
      obtain ⟨used, split, derived⟩ := derives_of_reads left
      by_cases noSign : ∀ s op, Compares s op → mid.head? ≠ some (.symbol s)
      · obtain ⟨rfl, rfl⟩ := (compared_end noSign).mp tail
        exact ⟨used, split, .term derived⟩
      · push Not at noSign
        obtain ⟨s, op, sign, head⟩ := noSign
        obtain ⟨more, rfl⟩ := List.head?_eq_some_iff.mp head
        obtain ⟨r, mid', others, right, tail', rfl⟩ := (compared_link sign).mp tail
        have shorter' := right.shorter
        rw [List.length_cons] at shorter
        obtain ⟨used', split', derived'⟩ := derives_of_reads right
        obtain ⟨used'', last, split'', whole⟩ :=
          derives_of_compared (.first derived sign derived') tail'
        refine ⟨used ++ .symbol s :: (used' ++ used''), ?_, ?_⟩
        · simp [split, split', split'']
        · rw [List.append_assoc, List.cons_append] at whole
          exact .links whole
  | negation =>
      by_cases isNot : ts.head? = some (.symbol .not)
      · obtain ⟨more, rfl⟩ := List.head?_eq_some_iff.mp isNot
        obtain ⟨condition, inside, rfl⟩ := reads_not.mp h
        obtain ⟨used, rfl, derived⟩ := derives_of_reads inside
        exact ⟨.symbol .not :: used, rfl, .not derived⟩
      · obtain ⟨used, split, condition⟩ := derives_of_reads ((reads_negation isNot).mp h)
        exact ⟨used, split, .positive condition⟩
termination_by (ts.length, p.rank)

theorem derives_of_extends {level : Level} {front ts rest : List (Token α)} {l e : Expr α}
    (before : Derives (.chain level) front l) (h : Extends level l ts e rest) :
    ∃ used, used ++ rest = ts ∧ Derives (.chain level) (front ++ used) e := by
  by_cases noSign : ∀ s op, Joins level s op → ts.head? ≠ some (.symbol s)
  · obtain ⟨rfl, rfl⟩ := (extends_end noSign).mp h
    exact ⟨[], rfl, by rwa [List.append_nil]⟩
  · push Not at noSign
    obtain ⟨s, op, sign, head⟩ := noSign
    obtain ⟨more, rfl⟩ := List.head?_eq_some_iff.mp head
    obtain ⟨r, mid, last, tail⟩ := (extends_join sign).mp h
    have shorter := last.shorter
    obtain ⟨used, split, derived⟩ := derives_of_reads last
    obtain ⟨used', split', whole⟩ := derives_of_extends (before.join sign derived) tail
    refine ⟨.symbol s :: (used ++ used'), ?_, ?_⟩
    · rw [List.cons_append, List.append_assoc, split', split]
    · rwa [List.append_assoc, List.cons_append] at whole
termination_by (ts.length, 0)

theorem derives_of_compared {front ts rest : List (Token α)} {links : List (Expr α)} {e l : Expr α}
    (before : Links front e l) (h : Compared l ts links rest) :
    ∃ used last, used ++ rest = ts ∧ Links (front ++ used) (links.foldl Expr.and e) last := by
  by_cases noSign : ∀ s op, Compares s op → ts.head? ≠ some (.symbol s)
  · obtain ⟨rfl, rfl⟩ := (compared_end noSign).mp h
    exact ⟨[], l, rfl, by rwa [List.append_nil]⟩
  · push Not at noSign
    obtain ⟨s, op, sign, head⟩ := noSign
    obtain ⟨more, rfl⟩ := List.head?_eq_some_iff.mp head
    obtain ⟨r, mid, others, right, tail, rfl⟩ := (compared_link sign).mp h
    have shorter := right.shorter
    obtain ⟨used, split, derived⟩ := derives_of_reads right
    obtain ⟨used', last, split', whole⟩ := derives_of_compared (before.next sign derived) tail
    refine ⟨.symbol s :: (used ++ used'), last, ?_, ?_⟩
    · rw [List.cons_append, List.append_assoc, split', split]
    · rw [List.foldl_cons, and_compare before.ne_true]
      rwa [List.append_assoc, List.cons_append] at whole
termination_by (ts.length, 0)

theorem derives_of_reads_atom {ts : List (Token α)} {e : Expr α} {rest : List (Token α)}
    (h : Reads .atom ts e rest) : ∃ used, used ++ rest = ts ∧ Derives .atom used e := by
  obtain ⟨value, more, rfl⟩ | ⟨name, more, rfl⟩ | ⟨more, rfl⟩ := h.head_of_atom
  · obtain ⟨rfl, rfl⟩ := reads_number.mp h
    exact ⟨[.number value], rfl, .number value⟩
  · by_cases isTrue : name = "true"
    · subst isTrue
      obtain ⟨rfl, rfl⟩ := reads_true.mp h
      exact ⟨[.ident "true"], rfl, .true⟩
    by_cases isFalse : name = "false"
    · subst isFalse
      obtain ⟨rfl, rfl⟩ := reads_false.mp h
      exact ⟨[.ident "false"], rfl, .false⟩
    by_cases isCall : more.head? = some .lparen
    · obtain ⟨more, rfl⟩ := List.head?_eq_some_iff.mp isCall
      by_cases empty : more.head? = some .rparen
      · obtain ⟨more, rfl⟩ := List.head?_eq_some_iff.mp empty
        obtain ⟨rfl, rfl⟩ := (reads_emptyCall isTrue isFalse).mp h
        exact ⟨[.ident name, .lparen, .rparen], rfl, .emptyCall isTrue isFalse⟩
      · obtain ⟨args, inside, rfl⟩ := (reads_call isTrue isFalse empty).mp h
        obtain ⟨used, rfl, derived⟩ := arguments_of_reads inside
        exact ⟨.ident name :: .lparen :: (used ++ [.rparen]), by simp,
          .call isTrue isFalse derived⟩
    · obtain ⟨rfl, rfl⟩ := (reads_name isTrue isFalse isCall).mp h
      exact ⟨[.ident name], rfl, .name isTrue isFalse⟩
  · obtain ⟨used, rfl, derived⟩ := derives_of_reads (reads_parentheses.mp h)
    exact ⟨.lparen :: (used ++ [.rparen]), by simp, .parentheses derived⟩
termination_by (ts.length, 0)

theorem arguments_of_reads {ts : List (Token α)} {es : List (Expr α)} {rest : List (Token α)}
    (h : ReadsArguments ts es rest) : ∃ used, used ++ rest = ts ∧ Arguments used es := by
  obtain ⟨e, mid, others, first, tail, rfl⟩ := readsArguments_iff.mp h
  have shorter := first.shorter
  obtain ⟨used, split, derived⟩ := derives_of_reads first
  by_cases comma : mid.head? = some .comma
  · obtain ⟨more, rfl⟩ := List.head?_eq_some_iff.mp comma
    rw [List.length_cons] at shorter
    obtain ⟨used', rfl, derived'⟩ := arguments_of_reads (readsFurther_comma.mp tail)
    exact ⟨used ++ .comma :: used', by simpa using split, .next derived derived'⟩
  · obtain ⟨rfl, rfl⟩ := (readsFurther_end comma).mp tail
    exact ⟨used, split, .last derived⟩
termination_by (ts.length, 10)

end

/-! ## Completeness -/

/-- The parser reads the phrase before everything that ends it. A chain is taken up to any point
where one of its operands ends, and then the parser carries it on. -/
def Accepted : Phrase → List (Token α) → Expr α → Prop
  | .chain level, ts, e => ∀ mid e' rest, Ends (operand level) mid →
      Extends level e mid e' rest → Reads (.chain level) (ts ++ mid) e' rest
  | p, ts, e => ∀ rest, Ends p rest → Reads p (ts ++ rest) e rest

theorem Accepted.reads {p : Phrase} {ts rest : List (Token α)} {e : Expr α}
    (h : Accepted p ts e) (ends : Ends p rest) : Reads p (ts ++ rest) e rest := by
  cases p with
  | chain level =>
    exact h rest e rest (ends.of_rank_le (Nat.le_of_lt (rank_operand level)))
      ((extends_end ends.not_joins).mpr ⟨rfl, rfl⟩)
  | atom | power | unary | comparison | negation => exact h rest ends

/-- The parser reads the first term, and the links from there on, whatever links follow. -/
def LinksAccepted (ts : List (Token α)) (e last : Expr α) : Prop :=
  ∀ mid links rest, Ends (.chain .sum) mid → Compared last mid links rest →
    ∃ first tail done, Reads (.chain .sum) (ts ++ mid) first tail ∧
      Compared first tail (done ++ links) rest ∧ done ≠ [] ∧ Expr.andAll done = e

/-- The parser reads the arguments of a call up to the closing parenthesis. -/
def ArgumentsAccepted (ts : List (Token α)) (es : List (Expr α)) : Prop :=
  ∀ rest, ReadsArguments (ts ++ .rparen :: rest) es (.rparen :: rest)

mutual

theorem Derives.accepted {p : Phrase} {ts : List (Token α)} {e : Expr α} (h : Derives p ts e) :
    Accepted p ts e := by
  match h with
  | .number value => exact fun rest _ => reads_number.mpr ⟨rfl, rfl⟩
  | .true => exact fun rest _ => reads_true.mpr ⟨rfl, rfl⟩
  | .false => exact fun rest _ => reads_false.mpr ⟨rfl, rfl⟩
  | .name notTrue notFalse =>
    intro rest ends
    refine (reads_name notTrue notFalse fun head => ?_).mpr ⟨rfl, rfl⟩
    exact Nat.lt_irrefl _ (ends _ _ head .call)
  | .emptyCall notTrue notFalse =>
    exact fun rest _ => (reads_emptyCall notTrue notFalse).mpr ⟨rfl, rfl⟩
  | @Derives.call _ _ name ts args notTrue notFalse inside =>
    intro rest _
    have accepted := inside.accepted rest
    have notEmpty := (inside.opens.append (.rparen :: rest)).not_rparen
    simpa using (reads_call notTrue notFalse notEmpty).mpr ⟨args, accepted, rfl⟩
  | .parentheses inside =>
    intro rest _
    have accepted := inside.accepted.reads (ends_rparen _ rest)
    simpa using reads_parentheses.mpr accepted
  | .base base =>
    intro rest ends
    have noCaret : rest.head? ≠ some (.symbol .caret) := fun head =>
      Nat.lt_irrefl _ (ends _ _ head .exponent)
    exact reads_power.mpr ⟨e, rest, base.accepted rest (ends.of_rank_le (by decide)),
      (raised_end noCaret).mpr ⟨rfl, rfl⟩⟩
  | @Derives.power _ _ ts us b e base exponent =>
    intro rest ends
    have tail : Reads .unary (us ++ rest) e rest := exponent.accepted rest ends.unary
    rw [List.append_assoc]
    exact reads_power.mpr ⟨b, .symbol .caret :: (us ++ rest),
      base.accepted _ (ends_caret _), raised_caret.mpr ⟨e, tail, rfl⟩⟩
  | .unsigned term =>
    intro rest ends
    obtain ⟨noMinus, noPlus⟩ := (term.opens.append rest).not_sign (by decide)
    exact (reads_unsigned noMinus noPlus).mpr (term.accepted rest (ends.of_rank_le (by decide)))
  | .plus term => exact fun rest ends => reads_plus.mpr (term.accepted rest ends)
  | .minus term single =>
    intro rest ends
    rw [← term.opens.head?_append rest] at single
    exact reads_minus.mpr ⟨single, _, term.accepted rest ends, rfl⟩
  | .single only =>
    exact fun mid e' rest ends tail => reads_chain.mpr ⟨_, mid, only.accepted.reads ends, tail⟩
  | @Derives.join _ _ level ts us s op l r front sign last =>
    intro mid e' rest ends tail
    rw [List.append_assoc]
    exact front.accepted (.symbol s :: (us ++ mid)) e' rest (ends_join sign _)
      ((extends_join sign).mpr ⟨r, mid, last.accepted.reads ends, tail⟩)
  | .term only =>
    intro rest ends
    exact reads_comparison.mpr ⟨e, rest, [], only.accepted.reads (ends.of_rank_le (by decide)),
      (compared_end ends.not_compares).mpr ⟨rfl, rfl⟩, rfl⟩
  | .links links =>
    intro rest ends
    obtain ⟨first, tail, done, left, compared, notEmpty, whole⟩ :=
      links.accepted rest [] rest (ends.of_rank_le (by decide))
        ((compared_end ends.not_compares).mpr ⟨rfl, rfl⟩)
    rw [List.append_nil] at compared
    refine reads_comparison.mpr ⟨first, tail, done, left, compared, ?_⟩
    rw [if_neg (by simpa using notEmpty), whole]
  | .positive condition =>
    intro rest ends
    have noNot := (condition.opens.append rest).not_not (by decide)
    exact (reads_negation noNot).mpr (condition.accepted rest (ends.of_rank_le (by decide)))
  | .not condition => exact fun rest ends => reads_not.mpr ⟨_, condition.accepted rest ends, rfl⟩

theorem Links.accepted {ts : List (Token α)} {e last : Expr α} (h : Links ts e last) :
    LinksAccepted ts e last := by
  intro mid links rest ends tail
  match h with
  | @Links.first _ _ ts us s op l r left sign right =>
    rw [List.append_assoc]
    exact ⟨l, .symbol s :: (us ++ mid), [.binary (.compare op) l r],
      left.accepted.reads (ends_compare sign _),
      (compared_link sign).mpr ⟨r, mid, links, right.accepted.reads ends, tail, rfl⟩,
      by simp, rfl⟩
  | @Links.next _ _ ts us s op _ l r front sign right =>
    obtain ⟨first, tail', done, left, compared, notEmpty, whole⟩ :=
      front.accepted (.symbol s :: (us ++ mid)) _ rest (ends_compare sign _)
        ((compared_link sign).mpr ⟨r, mid, links, right.accepted.reads ends, tail, rfl⟩)
    refine ⟨first, tail', done ++ [.binary (.compare op) l r], ?_, ?_, by simp, ?_⟩
    · rwa [List.append_assoc]
    · rwa [List.append_assoc]
    · rw [Expr.andAll, List.foldl_append, ← Expr.andAll, whole]
      exact and_compare front.ne_true

theorem Arguments.accepted {ts : List (Token α)} {es : List (Expr α)} (h : Arguments ts es) :
    ArgumentsAccepted ts es := by
  intro rest
  match h with
  | .last only =>
    exact readsArguments_iff.mpr ⟨_, _, [], only.accepted.reads (ends_rparen _ rest),
      (readsFurther_end (by simp)).mpr ⟨rfl, rfl⟩, rfl⟩
  | @Arguments.next _ _ ts us e es first others =>
    rw [List.append_assoc]
    exact readsArguments_iff.mpr ⟨e, .comma :: (us ++ .rparen :: rest), es,
      first.accepted.reads (ends_comma _ _), readsFurther_comma.mpr (others.accepted rest), rfl⟩

end

/-! ## Whole token sequences -/

section

variable {ts : List (Token α)} {e : Expr α}

theorem derives_of_formula_eq_ok (h : formula ts = .ok e) : Derives (.chain .or) ts e := by
  obtain ⟨used, split, derived⟩ := derives_of_reads (formula_eq_ok.mp h)
  rwa [← split, List.append_nil]

theorem Derives.formula_eq_ok (h : Derives (.chain .or) ts e) : formula ts = .ok e := by
  have reads := h.accepted.reads (ends_nil _)
  rw [List.append_nil] at reads
  exact Grammar.formula_eq_ok.mpr reads

end

/-- The parser answers on a token sequence with a tree exactly if the sequence is a formula of the
grammar with that tree. -/
theorem formula_eq_ok_iff_derives (ts : List (Token α)) (e : Expr α) :
    formula ts = .ok e ↔ Derives (.chain .or) ts e :=
  ⟨derives_of_formula_eq_ok, Derives.formula_eq_ok⟩

end Grammar

end HybridAutomata
