import HybridAutomata.Decimal.Double
import HybridAutomata.Proofs.Expr.Lookahead
import HybridAutomata.Proofs.Expr.Parsing
import HybridAutomata.Proofs.Expr.Positions

/-!
# Where the parser stops

A token sequence that is no formula is refused at one of its tokens, or at its end. What is in front
of that place can still become a formula, and with the token there it cannot: the place is the
first one at which the sequence goes wrong.

That it cannot is the lookahead of the parser. That it still can is shown by completing what is in
front: the operand that is missing, if one is, and the parentheses that are open. Every function of
the parser that refuses leaves such a phrase behind, and the ones around it complete it further.
-/

namespace HybridAutomata

namespace Grammar

open HybridAutomata.Parser Success

section

variable {α : Type}

/-- What phrases that break off are completed with: names for operands and closing parentheses. -/
def Completes (later : List (Token α)) : Prop :=
  ∀ t ∈ later, t = .ident "x" ∨ t = .rparen

theorem completes_nil : Completes ([] : List (Token α)) := by
  rintro t ⟨⟩

theorem completes_operand : Completes [(.ident "x" : Token α)] := by
  simp [Completes]

theorem completes_rparen : Completes [(.rparen : Token α)] := by
  simp [Completes]

theorem Completes.append {later more : List (Token α)} (h : Completes later)
    (h' : Completes more) : Completes (later ++ more) :=
  List.forall_mem_append.mpr ⟨h, h'⟩

/-- The tokens of `ts` in front of `rest` are completed to a sequence that is `good`. -/
def Completable (good : List (Token α) → Prop) (ts rest : List (Token α)) : Prop :=
  ∃ used later, used ++ rest = ts ∧ Completes later ∧ good (used ++ later)

variable {good whole : List (Token α) → Prop} {ts rest : List (Token α)}

theorem completable_operand (h : good [.ident "x"]) : Completable good ts ts :=
  ⟨[], [.ident "x"], rfl, completes_operand, h⟩

/-- What is in front of a phrase, and the parentheses that close behind it. -/
theorem Completable.within (h : Completable good ts rest) (front : List (Token α))
    {back : List (Token α)} (closes : Completes back)
    (around : ∀ us, good us → whole (front ++ us ++ back)) :
    Completable whole (front ++ ts) rest := by
  obtain ⟨used, later, split, completes, inside⟩ := h
  refine ⟨front ++ used, later ++ back, ?_, completes.append closes, ?_⟩
  · rw [List.append_assoc, split]
  · simpa using around _ inside

theorem Completable.behind (h : Completable good ts rest) (front : List (Token α))
    (around : ∀ us, good us → whole (front ++ us)) : Completable whole (front ++ ts) rest :=
  h.within front completes_nil fun us inside => by simpa using around us inside

theorem Completable.imp (h : Completable good ts rest) (weaker : ∀ us, good us → whole us) :
    Completable whole ts rest :=
  h.behind [] weaker

/-- A completion begins with no sign. -/
theorem Completes.not_minus {used later : List (Token α)} (completes : Completes later)
    (single : (used ++ rest).head? ≠ some (.symbol .minus)) :
    (used ++ later).head? ≠ some (.symbol .minus) := by
  cases used with
  | nil =>
      intro head
      obtain ⟨more, rfl⟩ := List.head?_eq_some_iff.mp head
      rcases completes _ List.mem_cons_self with first | first <;> cases first
  | cons t used => exact single

theorem eq_of_close {refusal : Refusal α} (h : close ts = .error refusal) :
    refusal = ⟨ts, .rparen⟩ := by
  by_cases isClose : ts.head? = some .rparen
  · obtain ⟨more, rfl⟩ := List.head?_eq_some_iff.mp isClose
    cases h
  · rw [close_other isClose] at h
    exact (Except.error.inj h).symm

end

/-! ## The functions of the parser -/

variable {α : Type} [Scalar α] {ts rest : List (Token α)} {e l : Expr α} {refusal : Refusal α}

theorem derives_of_read {p : Phrase} (h : read p ts = .ok (e, rest)) :
    ∃ used, used ++ rest = ts ∧ Derives p used e :=
  derives_of_reads (reads_iff.mpr h)

/-- A name is a phrase of every kind. -/
theorem derives_operand (p : Phrase) : ∃ e, Derives p [(.ident "x" : Token α)] e := by
  have power : Derives .power [(.ident "x" : Token α)] (.var "x") :=
    .base (.name (by decide) (by decide))
  have product : Derives (.chain .product) [(.ident "x" : Token α)] (.var "x") :=
    .single (.unsigned power)
  have negation : Derives .negation [(.ident "x" : Token α)] (.var "x") :=
    .positive (.term (.single product))
  refine ⟨.var "x", ?_⟩
  match p with
  | .atom => exact .name (by decide) (by decide)
  | .power => exact power
  | .unary => exact .unsigned power
  | .chain .product => exact product
  | .chain .sum => exact .single product
  | .comparison => exact .term (.single product)
  | .negation => exact negation
  | .chain .and => exact .single negation
  | .chain .or => exact .single (.single negation)

/-- A sequence of tokens is a phrase. -/
def IsPhrase (p : Phrase) (ts : List (Token α)) : Prop :=
  ∃ e, Derives p ts e

mutual

theorem completable_of_read {p : Phrase} {ts : List (Token α)} {refusal : Refusal α}
    (h : read p ts = .error refusal) : Completable (IsPhrase p) ts refusal.rest := by
  cases p with
  | atom => exact completable_of_atom h
  | power =>
      rw [read_power, bind_eq_error_iff] at h
      obtain first | ⟨⟨base, mid⟩, front, tail⟩ := h
      · exact (completable_of_read first).imp fun us ⟨e, derived⟩ => ⟨e, .base derived⟩
      · have shorter := length_of_read front
        obtain ⟨used, rfl, derived⟩ := derives_of_read front
        exact (completable_of_raise derived tail).behind used fun us => id
  | unary =>
      by_cases minus : ts.head? = some (.symbol .minus)
      · obtain ⟨more, rfl⟩ := List.head?_eq_some_iff.mp minus
        by_cases double : more.head? = some (.symbol .minus)
        · rw [read_double double] at h
          cases h
          obtain ⟨e, derived⟩ := derives_operand (α := α) .unary
          exact ⟨[.symbol .minus], [.ident "x"], rfl, completes_operand, negated e,
            .minus derived (by simp)⟩
        · rw [read_minus double, bind_eq_error_iff] at h
          obtain first | ⟨_, _, ⟨⟩⟩ := h
          obtain ⟨used, later, rfl, completes, e, derived⟩ := completable_of_read first
          exact ⟨.symbol .minus :: used, later, rfl, completes, negated e,
            .minus derived (completes.not_minus double)⟩
      by_cases plus : ts.head? = some (.symbol .plus)
      · obtain ⟨more, rfl⟩ := List.head?_eq_some_iff.mp plus
        rw [read_plus] at h
        exact (completable_of_read h).behind [.symbol .plus] fun us ⟨e, derived⟩ =>
          ⟨e, .plus derived⟩
      · rw [read_unsigned minus plus] at h
        exact (completable_of_read h).imp fun us ⟨e, derived⟩ => ⟨e, .unsigned derived⟩
  | chain level =>
      have tighter := rank_operand level
      rw [read_chain, bind_eq_error_iff] at h
      obtain first | ⟨⟨l, mid⟩, front, tail⟩ := h
      · exact (completable_of_read first).imp fun us ⟨e, derived⟩ => ⟨e, .single derived⟩
      · have shorter := length_of_read front
        obtain ⟨used, rfl, derived⟩ := derives_of_read front
        exact (completable_of_extend (.single derived) tail).behind used fun us => id
  | comparison =>
      rw [read_comparison, bind_eq_error_iff] at h
      obtain first | ⟨⟨l, mid⟩, left, tail⟩ := h
      · exact (completable_of_read first).imp fun us ⟨e, derived⟩ => ⟨e, .term derived⟩
      · have shorter := length_of_read left
        obtain ⟨used, rfl, derived⟩ := derives_of_read left
        obtain links | ⟨_, _, ⟨⟩⟩ := bind_eq_error_iff.mp tail
        refine (completable_of_compare (fun sign right => ⟨_, .first derived sign right⟩)
          links).behind used ?_
        exact fun us ⟨e, last, links⟩ => ⟨e, .links links⟩
  | negation =>
      by_cases isNot : ts.head? = some (.symbol .not)
      · obtain ⟨more, rfl⟩ := List.head?_eq_some_iff.mp isNot
        rw [read_not, bind_eq_error_iff] at h
        obtain first | ⟨_, _, ⟨⟩⟩ := h
        exact (completable_of_read first).behind [.symbol .not] fun us ⟨e, derived⟩ =>
          ⟨.not e, .not derived⟩
      · rw [read_negation isNot] at h
        exact (completable_of_read h).imp fun us ⟨e, derived⟩ => ⟨e, .positive derived⟩
termination_by (ts.length, p.rank)

theorem completable_of_extend {level : Level} {front ts : List (Token α)} {l : Expr α}
    {refusal : Refusal α} (before : Derives (.chain level) front l)
    (h : extend level l ts = .error refusal) :
    Completable (fun us => IsPhrase (.chain level) (front ++ us)) ts refusal.rest := by
  by_cases noSign : ∀ s op, Joins level s op → ts.head? ≠ some (.symbol s)
  · rw [extend_end noSign] at h
    cases h
  · push Not at noSign
    obtain ⟨s, op, sign, head⟩ := noSign
    obtain ⟨more, rfl⟩ := List.head?_eq_some_iff.mp head
    rw [extend_join sign, bind_eq_error_iff] at h
    obtain first | ⟨⟨r, mid⟩, last, tail⟩ := h
    · exact (completable_of_read first).behind [.symbol s] fun us ⟨e, derived⟩ =>
        ⟨_, before.join sign derived⟩
    · have shorter := length_of_read last
      obtain ⟨used, rfl, derived⟩ := derives_of_read last
      refine (completable_of_extend (before.join sign derived) tail).behind
        (.symbol s :: used) ?_
      simp
termination_by (ts.length, 0)

theorem completable_of_compare {front ts : List (Token α)} {l : Expr α} {refusal : Refusal α}
    (grows : ∀ {s op us r}, Compares s op → Derives (.chain .sum) us r →
      ∃ e, Links (front ++ .symbol s :: us) e r)
    (h : compare l ts = .error refusal) :
    Completable (fun us => ∃ e last, Links (front ++ us) e last) ts refusal.rest := by
  by_cases noSign : ∀ s op, Compares s op → ts.head? ≠ some (.symbol s)
  · rw [compare_end noSign] at h
    cases h
  · push Not at noSign
    obtain ⟨s, op, sign, head⟩ := noSign
    obtain ⟨more, rfl⟩ := List.head?_eq_some_iff.mp head
    rw [compare_link sign, bind_eq_error_iff] at h
    obtain first | ⟨⟨r, mid⟩, right, tail⟩ := h
    · refine (completable_of_read first).behind [.symbol s] fun us ⟨e, derived⟩ => ?_
      obtain ⟨e', links⟩ := grows sign derived
      exact ⟨e', e, links⟩
    · have shorter := length_of_read right
      obtain ⟨used, rfl, derived⟩ := derives_of_read right
      obtain ⟨e, links⟩ := grows sign derived
      obtain others | ⟨_, _, ⟨⟩⟩ := bind_eq_error_iff.mp tail
      refine (completable_of_compare (fun sign' right' => ⟨_, links.next sign' right'⟩)
        others).behind (.symbol s :: used) ?_
      simp
termination_by (ts.length, 0)

theorem completable_of_raise {front ts : List (Token α)} {b : Expr α} {refusal : Refusal α}
    (before : Derives .atom front b) (h : raise b ts = .error refusal) :
    Completable (fun us => IsPhrase .power (front ++ us)) ts refusal.rest := by
  by_cases caret : ts.head? = some (.symbol .caret)
  · obtain ⟨more, rfl⟩ := List.head?_eq_some_iff.mp caret
    rw [raise_caret, bind_eq_error_iff] at h
    obtain first | ⟨_, _, ⟨⟩⟩ := h
    exact (completable_of_read first).behind [.symbol .caret] fun us ⟨e, derived⟩ =>
      ⟨.pow b e, .power before derived⟩
  · rw [raise_end caret] at h
    cases h
termination_by (ts.length, 0)

theorem completable_of_atom {ts : List (Token α)} {refusal : Refusal α}
    (h : read .atom ts = .error refusal) :
    Completable (IsPhrase .atom) ts refusal.rest := by
  match ts with
  | .number value :: more =>
      rw [read_number] at h
      cases h
  | .ident name :: more =>
      by_cases isTrue : name = "true"
      · subst isTrue
        rw [read_true] at h
        cases h
      by_cases isFalse : name = "false"
      · subst isFalse
        rw [read_false] at h
        cases h
      by_cases isCall : more.head? = some .lparen
      · obtain ⟨more, rfl⟩ := List.head?_eq_some_iff.mp isCall
        by_cases empty : more.head? = some .rparen
        · obtain ⟨more, rfl⟩ := List.head?_eq_some_iff.mp empty
          rw [read_emptyCall isTrue isFalse] at h
          cases h
        · rw [read_call isTrue isFalse empty, bind_eq_error_iff] at h
          obtain first | ⟨⟨args, mid⟩, inside, tail⟩ := h
          · exact (completable_of_readArguments first).within [.ident name, .lparen]
              completes_rparen fun us ⟨args, derived⟩ => ⟨_, .call isTrue isFalse derived⟩
          · obtain ⟨used, rfl, derived⟩ := arguments_of_reads (readsArguments_iff_ok.mpr inside)
            obtain noClose | ⟨_, _, ⟨⟩⟩ := bind_eq_error_iff.mp tail
            cases eq_of_close noClose
            exact ⟨.ident name :: .lparen :: used, [.rparen], rfl, completes_rparen, _,
              .call isTrue isFalse derived⟩
      · rw [read_name isTrue isFalse isCall] at h
        cases h
  | .lparen :: more =>
      rw [read_parentheses, bind_eq_error_iff] at h
      obtain first | ⟨⟨e, mid⟩, inside, tail⟩ := h
      · exact (completable_of_read first).within [.lparen] completes_rparen
          fun us ⟨e, derived⟩ => ⟨e, .parentheses derived⟩
      · obtain ⟨used, rfl, derived⟩ := derives_of_read inside
        obtain noClose | ⟨_, _, ⟨⟩⟩ := bind_eq_error_iff.mp tail
        cases eq_of_close noClose
        exact ⟨.lparen :: used, [.rparen], rfl, completes_rparen, e, .parentheses derived⟩
  | [] | .symbol _ :: _ | .rparen :: _ | .comma :: _ =>
      rw [read_noAtom (by simp) (by simp) (by simp)] at h
      cases h
      exact completable_operand (derives_operand .atom)
termination_by (ts.length, 0)

theorem completable_of_readArguments {ts : List (Token α)} {refusal : Refusal α}
    (h : readArguments ts = .error refusal) :
    Completable (fun us => ∃ es, Arguments us es) ts refusal.rest := by
  rw [readArguments_eq, bind_eq_error_iff] at h
  obtain first | ⟨⟨e, mid⟩, front, tail⟩ := h
  · exact (completable_of_read first).imp fun us ⟨e, derived⟩ => ⟨[e], .last derived⟩
  · have shorter := length_of_read front
    obtain ⟨used, rfl, derived⟩ := derives_of_read front
    obtain others | ⟨_, _, ⟨⟩⟩ := bind_eq_error_iff.mp tail
    by_cases comma : mid.head? = some .comma
    · obtain ⟨more, rfl⟩ := List.head?_eq_some_iff.mp comma
      rw [readFurther_comma] at others
      rw [List.length_cons] at shorter
      obtain ⟨used', later, rfl, completes, es, derived'⟩ := completable_of_readArguments others
      refine ⟨used ++ .comma :: used', later, by simp, completes, e :: es, ?_⟩
      simpa using Arguments.next derived derived'
    · rw [readFurther_end comma] at others
      cases others
termination_by (ts.length, 10)

end

/-! ## Whole token sequences -/

/-- A sequence that is no formula is refused at a token, or at the end, where it stops being the
beginning of a formula: what is in front can be completed, and everything that begins with it and
has the same token next is refused at the same place. -/
theorem formula_refused (h : formula ts = .error refusal) :
    ∃ used, used ++ refusal.rest = ts ∧
      (∃ later e, Completes later ∧ formula (used ++ later) = .ok e) ∧
      ∀ rest, rest.head? = refusal.rest.head? →
        formula (used ++ rest) = .error ⟨rest, refusal.wanted⟩ := by
  obtain ⟨used, split, answers⟩ := read_oneAhead (.chain .or) ts
  rw [formula_eq, bind_eq_error_iff] at h
  obtain broken | ⟨⟨e, rest⟩, front, trailing⟩ := h
  · rw [broken] at split answers
    obtain ⟨used', later, split', completes, e, derived⟩ := completable_of_read broken
    cases List.append_cancel_right (split'.trans split.symm)
    refine ⟨used, split, ⟨later, e, completes, derived.formula_eq_ok⟩, fun rest head => ?_⟩
    rw [formula_eq, answers rest head]
    rfl
  · rw [front] at split answers
    obtain ⟨used', split', derived⟩ := derives_of_read front
    cases List.append_cancel_right (split'.trans split.symm)
    cases rest with
    | nil => cases trailing
    | cons t more =>
        cases trailing
        refine ⟨used, split, ⟨[], e, completes_nil, ?_⟩, fun rest head => ?_⟩
        · rw [List.append_nil]
          exact derived.formula_eq_ok
        · obtain ⟨more', rfl⟩ := List.head?_eq_some_iff.mp head
          rw [formula_eq, answers _ head]
          rfl

end Grammar

/-! ## Texts -/

open Grammar Token

section

variable {α : Type} [Scalar α] [DecimalText α]

/-- An error is reported where `after` begins: at the first of these tokens, which begins in the
text at the byte that is given, or at the end of the text if there are none. -/
def ParseError.PointsAt (err : ParseError α) (text : String) (after : List (Lexeme α)) : Prop :=
  match after with
  | [] => (∃ wanted, err = .unexpected text.utf8ByteSize none wanted) ∧ err.found = "<end>"
  | l :: _ => (∃ wanted, err = .unexpected l.offset (some l.token) wanted) ∧
      err.found = l.token.text ∧ ∃ front back, text = front ++ back ∧
        l.offset = front.utf8ByteSize ∧ NoGap back ∧ scan l.offset back.toList = .ok after

end

namespace Expr

variable {α : Type} [Scalar α] [DecimalText α] {text : String} {lexemes : List (Lexeme α)}
  {err : ParseError α}

theorem pointsAt_refusalError {before after : List (Lexeme α)} {wanted : Expectation}
    (scanned : scan 0 text.toList = .ok (before ++ after)) :
    (refusalError (before ++ after) text.utf8ByteSize
      ⟨after.map Lexeme.token, wanted⟩).PointsAt text after := by
  have behind : (before ++ after).drop ((before ++ after).length - after.length) = after := by simp
  rw [refusalError, List.length_map, behind]
  cases after with
  | nil => exact ⟨⟨wanted, rfl⟩, rfl⟩
  | cons l after =>
      obtain ⟨front, back, split, place, noGap, here⟩ := position_of_scan scanned
      rw [Nat.zero_add] at place
      exact ⟨⟨wanted, rfl⟩, rfl, front, back, split, place, noGap, here⟩

/-- A text of tokens that is no formula is refused where it first goes wrong. The tokens in front of
the place that is reported can be completed to a formula, and no formula begins with them and goes
on with the token there, or ends there. -/
theorem parse_refused (scanned : scan 0 text.toList = .ok lexemes)
    (refused : parse text = .error err) :
    ∃ before after, before ++ after = lexemes ∧ err.PointsAt text after ∧
      (∃ later e, Completes later ∧
        Parser.formula (before.map Lexeme.token ++ later) = .ok e) ∧
      ∀ rest e, rest.head? = (after.map Lexeme.token).head? →
        Parser.formula (before.map Lexeme.token ++ rest) ≠ .ok e := by
  rw [parse, scanned] at refused
  dsimp only at refused
  cases answer : Parser.formula (lexemes.map Lexeme.token) with
  | ok e =>
      rw [answer] at refused
      cases refused
  | error refusal =>
      rw [answer] at refused
      obtain rfl := Except.error.inj refused
      obtain ⟨used, split, completion, hopeless⟩ := formula_refused answer
      obtain ⟨before, after, rfl, rfl, rest⟩ := List.map_eq_append_iff.mp split.symm
      obtain ⟨rest', wanted⟩ := refusal
      subst rest
      refine ⟨before, after, rfl, pointsAt_refusalError scanned, completion, ?_⟩
      intro rest e head accepted
      rw [hopeless rest head] at accepted
      cases accepted

theorem parse_refused_parenthesis :
    scan (α := Float) 0 "x)".toList = .ok [⟨.ident "x", 0⟩, ⟨.rparen, 1⟩] ∧
      parse (α := Float) "x)" = .error (.unexpected 1 (some .rparen) .endOfInput) ∧
      ∃ before after, before ++ after = [⟨.ident "x", 0⟩, ⟨.rparen, 1⟩] ∧
        (ParseError.unexpected 1 (some .rparen) .endOfInput).PointsAt "x)" after ∧
        (∃ later e, Completes later ∧
          Parser.formula (α := Float) (before.map Lexeme.token ++ later) = .ok e) ∧
        ∀ rest e, rest.head? = (after.map Lexeme.token).head? →
          Parser.formula (before.map Lexeme.token ++ rest) ≠ .ok e := by
  have scanned : scan (α := Float) 0 "x)".toList = .ok [⟨.ident "x", 0⟩, ⟨.rparen, 1⟩] := by
    simp [scan, isGap, startsNumber, isNameStart, isNameChar, byteLength]
    rfl
  obtain ⟨e, derived⟩ := derives_operand (α := Float) (.chain .or)
  have front : read (.chain .or) [.ident "x", .rparen] = .ok (e, [.rparen]) :=
    reads_iff.mp (derived.accepted.reads (ends_rparen _ []))
  have refused : parse (α := Float) "x)" =
      .error (.unexpected 1 (some .rparen) .endOfInput) := by
    rw [parse, scanned]
    dsimp only [List.map]
    rw [formula_eq, front]
    rfl
  exact ⟨scanned, refused, parse_refused scanned refused⟩

end Expr

end HybridAutomata
