import HybridAutomata.Proofs.Expr.Reading

/-!
# One token of lookahead

The parser reads from the left and never looks past the first token that it leaves: what it answers
depends on the tokens it uses and on the one behind them. This holds of trees and of refusals alike,
so it is stated of answers. An answer that is put together from several ones looks at the token
behind the last of them; what is in front of it, every part has used.
-/

namespace HybridAutomata

namespace Grammar

open HybridAutomata.Parser Success

/-! ## Answers and the tokens behind them -/

section

variable {α β γ : Type} {ts : List (Token α)}

/-- The tokens that an answer leaves, which for a refusal begin with the refused one. -/
def behind : Result α (β × List (Token α)) → List (Token α)
  | .ok (_, rest) => rest
  | .error refusal => refusal.rest

/-- The same answer in front of other tokens. -/
def inFrontOf (rest : List (Token α)) :
    Result α (β × List (Token α)) → Result α (β × List (Token α))
  | .ok (b, _) => .ok (b, rest)
  | .error refusal => .error ⟨rest, refusal.wanted⟩

/-- On `ts` a reader answers as it does on all tokens that begin with those it uses and with the one
behind them. -/
def OneAhead (f : List (Token α) → Result α (β × List (Token α))) (ts : List (Token α)) : Prop :=
  ∃ used, used ++ behind (f ts) = ts ∧
    ∀ rest, rest.head? = (behind (f ts)).head? → f (used ++ rest) = inFrontOf rest (f ts)

variable {f g : List (Token α) → Result α (β × List (Token α))}

theorem head?_append_congr (used : List (Token α)) {rest rest' : List (Token α)}
    (same : rest.head? = rest'.head?) : (used ++ rest).head? = (used ++ rest').head? := by
  cases used with
  | nil => exact same
  | cons t used => rfl

theorem oneAhead_ok (b : β) (ts : List (Token α)) : OneAhead (fun ts => .ok (b, ts)) ts :=
  ⟨[], rfl, fun _ _ => rfl⟩

theorem oneAhead_error (wanted : Expectation) (ts : List (Token α)) :
    OneAhead (β := β) (fun ts => .error ⟨ts, wanted⟩) ts :=
  ⟨[], rfl, fun _ _ => rfl⟩

/-- What decides between two readers may depend on the first token. -/
theorem OneAhead.congr (h : OneAhead g ts) (same : ∀ us, us.head? = ts.head? → f us = g us) :
    OneAhead f ts := by
  obtain ⟨used, split, answers⟩ := h
  rw [OneAhead, same ts rfl]
  refine ⟨used, split, fun rest head => ?_⟩
  rw [same _ ?_, answers rest head]
  rw [head?_append_congr used head, split]

/-- A reader that uses up the first token. -/
theorem OneAhead.cons {t : Token α} (h : OneAhead (fun us => f (t :: us)) ts) :
    OneAhead f (t :: ts) := by
  obtain ⟨used, split, answers⟩ := h
  exact ⟨t :: used, by rw [List.cons_append, split], answers⟩

/-- A reader that carries on where another one ends. -/
theorem OneAhead.bind {h : β × List (Token α) → Result α (γ × List (Token α))}
    (first : OneAhead f ts)
    (second : ∀ b mid, f ts = .ok (b, mid) → OneAhead (fun us => h (b, us)) mid) :
    OneAhead (fun us => f us >>= h) ts := by
  obtain ⟨used, split, answers⟩ := first
  rcases made : f ts with refusal | ⟨b, mid⟩
  · rw [made] at split answers
    have stays : (f ts >>= h) = .error refusal := by
      rw [made]
      rfl
    rw [OneAhead, stays]
    refine ⟨used, split, fun rest head => ?_⟩
    rw [answers rest head]
    rfl
  · rw [made] at split answers
    have goesOn : (f ts >>= h) = h (b, mid) := by
      rw [made]
      rfl
    obtain ⟨used', split', answers'⟩ := second b mid made
    rw [OneAhead, goesOn]
    refine ⟨used ++ used', ?_, fun rest head => ?_⟩
    · rw [List.append_assoc, split']
      exact split
    · have front : (used' ++ rest).head? = mid.head? := by
        rw [head?_append_congr used' head, split']
      rw [List.append_assoc, answers _ front]
      exact answers' rest head

/-- A reader that makes something of what another one answers. -/
theorem OneAhead.map (first : OneAhead f ts) (make : β → γ) :
    OneAhead (fun us => f us >>= fun a => .ok (make a.1, a.2)) ts :=
  first.bind fun b rest _ => oneAhead_ok (make b) rest

theorem close_oneAhead (ts : List (Token α)) : OneAhead close ts := by
  by_cases isClose : ts.head? = some .rparen
  · obtain ⟨more, rfl⟩ := List.head?_eq_some_iff.mp isClose
    exact (oneAhead_ok () more).cons
  · exact (oneAhead_error .rparen ts).congr fun us head => close_other (head ▸ isClose)

end

/-! ## The functions of the parser -/

variable {α : Type} [Scalar α]

theorem length_of_read {p : Phrase} {ts rest : List (Token α)} {e : Expr α}
    (h : read p ts = .ok (e, rest)) : rest.length < ts.length :=
  (reads_iff.mpr h).shorter

mutual

theorem read_oneAhead (p : Phrase) (ts : List (Token α)) : OneAhead (read p) ts := by
  cases p with
  | atom => exact atom_oneAhead ts
  | power =>
      refine ((read_oneAhead .atom ts).bind fun base mid front => ?_).congr fun _ _ => read_power
      have shorter := length_of_read front
      exact raise_oneAhead base mid
  | unary =>
      by_cases minus : ts.head? = some (.symbol .minus)
      · obtain ⟨more, rfl⟩ := List.head?_eq_some_iff.mp minus
        refine .cons ?_
        by_cases double : more.head? = some (.symbol .minus)
        · exact (oneAhead_error _ more).congr fun us head => read_double (head ▸ double)
        · exact ((read_oneAhead .unary more).map negated).congr
            fun us head => read_minus (head ▸ double)
      by_cases plus : ts.head? = some (.symbol .plus)
      · obtain ⟨more, rfl⟩ := List.head?_eq_some_iff.mp plus
        exact .cons ((read_oneAhead .unary more).congr fun _ _ => read_plus)
      · exact (read_oneAhead .power ts).congr fun us head =>
          read_unsigned (head ▸ minus) (head ▸ plus)
  | chain level =>
      have tighter := rank_operand level
      refine ((read_oneAhead (operand level) ts).bind fun l mid front => ?_).congr
        fun _ _ => read_chain
      have shorter := length_of_read front
      exact extend_oneAhead level l mid
  | comparison =>
      refine ((read_oneAhead (.chain .sum) ts).bind fun first mid left => ?_).congr
        fun _ _ => read_comparison
      have shorter := length_of_read left
      exact (compare_oneAhead first mid).map fun links =>
        if links.isEmpty then first else Expr.andAll links
  | negation =>
      by_cases isNot : ts.head? = some (.symbol .not)
      · obtain ⟨more, rfl⟩ := List.head?_eq_some_iff.mp isNot
        exact .cons (((read_oneAhead .negation more).map Expr.not).congr fun _ _ => read_not)
      · exact (read_oneAhead .comparison ts).congr fun us head => read_negation (head ▸ isNot)
termination_by (ts.length, p.rank)

theorem extend_oneAhead (level : Level) (l : Expr α) (ts : List (Token α)) :
    OneAhead (extend level l) ts := by
  by_cases noSign : ∀ s op, Joins level s op → ts.head? ≠ some (.symbol s)
  · exact (oneAhead_ok l ts).congr fun us head => extend_end (head ▸ noSign)
  · push Not at noSign
    obtain ⟨s, op, sign, head⟩ := noSign
    obtain ⟨more, rfl⟩ := List.head?_eq_some_iff.mp head
    refine .cons (((read_oneAhead (operand level) more).bind fun r mid last => ?_).congr
      fun _ _ => extend_join sign)
    have shorter := length_of_read last
    exact extend_oneAhead level (.binary op l r) mid
termination_by (ts.length, 0)
decreasing_by all_goals grind [rank_operand]

theorem compare_oneAhead (l : Expr α) (ts : List (Token α)) : OneAhead (compare l) ts := by
  by_cases noSign : ∀ s op, Compares s op → ts.head? ≠ some (.symbol s)
  · exact (oneAhead_ok [] ts).congr fun us head => compare_end (head ▸ noSign)
  · push Not at noSign
    obtain ⟨s, op, sign, head⟩ := noSign
    obtain ⟨more, rfl⟩ := List.head?_eq_some_iff.mp head
    refine .cons (((read_oneAhead (.chain .sum) more).bind fun r mid right => ?_).congr
      fun _ _ => compare_link sign)
    have shorter := length_of_read right
    exact (compare_oneAhead r mid).map fun links => .binary (.compare op) l r :: links
termination_by (ts.length, 0)
decreasing_by all_goals grind

theorem raise_oneAhead (base : Expr α) (ts : List (Token α)) : OneAhead (raise base) ts := by
  by_cases caret : ts.head? = some (.symbol .caret)
  · obtain ⟨more, rfl⟩ := List.head?_eq_some_iff.mp caret
    exact .cons (((read_oneAhead .unary more).map (Expr.pow base)).congr fun _ _ => raise_caret)
  · exact (oneAhead_ok base ts).congr fun us head => raise_end (head ▸ caret)
termination_by (ts.length, 0)

/-- A call looks at the parenthesis behind its name and at the token behind that, and both are used
up or left as they are. -/
theorem atom_oneAhead (ts : List (Token α)) : OneAhead (read .atom) ts := by
  match ts with
  | .number value :: more => exact .cons ((oneAhead_ok _ more).congr fun _ _ => read_number)
  | .ident name :: more =>
      refine .cons ?_
      by_cases isTrue : name = "true"
      · subst isTrue
        exact (oneAhead_ok _ more).congr fun _ _ => read_true
      by_cases isFalse : name = "false"
      · subst isFalse
        exact (oneAhead_ok _ more).congr fun _ _ => read_false
      by_cases isCall : more.head? = some .lparen
      · obtain ⟨more, rfl⟩ := List.head?_eq_some_iff.mp isCall
        refine .cons ?_
        by_cases empty : more.head? = some .rparen
        · obtain ⟨more, rfl⟩ := List.head?_eq_some_iff.mp empty
          exact .cons ((oneAhead_ok _ more).congr fun _ _ => read_emptyCall isTrue isFalse)
        · exact ((readArguments_oneAhead more).bind fun args mid _ =>
            (close_oneAhead mid).map fun _ => Expr.call name args).congr
              fun us head => read_call isTrue isFalse (head ▸ empty)
      · exact (oneAhead_ok _ more).congr fun us head => read_name isTrue isFalse (head ▸ isCall)
  | .lparen :: more =>
      exact .cons (((read_oneAhead (.chain .or) more).bind fun e mid _ =>
        (close_oneAhead mid).map fun _ => e).congr
          fun _ _ => read_parentheses)
  | [] | .symbol _ :: _ | .rparen :: _ | .comma :: _ =>
      exact (oneAhead_error .atom _).congr fun us head =>
        read_noAtom (by simp [head]) (by simp [head]) (by simp [head])
termination_by (ts.length, 0)

theorem readArguments_oneAhead (ts : List (Token α)) : OneAhead readArguments ts := by
  refine ((read_oneAhead (.chain .or) ts).bind fun e mid first => ?_).congr
    fun _ _ => readArguments_eq
  have shorter := length_of_read first
  exact (readFurther_oneAhead mid).map (e :: ·)
termination_by (ts.length, 10)

theorem readFurther_oneAhead (ts : List (Token α)) : OneAhead readFurther ts := by
  by_cases comma : ts.head? = some .comma
  · obtain ⟨more, rfl⟩ := List.head?_eq_some_iff.mp comma
    exact .cons ((readArguments_oneAhead more).congr fun _ _ => readFurther_comma)
  · exact (oneAhead_ok [] ts).congr fun us head => readFurther_end (head ▸ comma)
termination_by (ts.length, 0)

end

end Grammar

end HybridAutomata
