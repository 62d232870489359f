import HybridAutomata.Proofs.Expr.Reparse
import HybridAutomata.Proofs.Expr.SimplifiedLiterals

/-!
# Numbers that are read back as numbers

A finite number is written with digits and read back as a number. The words for the infinities and
for the undefined number are names to the parser. So the numbers of a formula are read back as
numbers exactly if its literals are finite, and then the text of a formula has the names of the
formula and no others.
-/

namespace HybridAutomata

open Grammar Token

namespace Expr

/-! ## Names of equal formulas -/

section

variable {α : Type} [BEq α]

mutual

/-- Formulas that are equal up to their numbers have the same names. -/
theorem names_of_same : ∀ {e' e : Expr α}, same e' e = true → e'.names = e.names
  | .num _, .num _, _ | .bool _, .bool _, _ => rfl
  | .var name, .var name', h => by
      rw [same, beq_iff_eq] at h
      rw [names, names, h]
  | .unary _ e', .unary _ e, h => by
      rw [same, Bool.and_eq_true] at h
      rw [names, names, names_of_same h.2]
  | .binary _ l' r', .binary _ l r, h => by
      rw [same, Bool.and_eq_true, Bool.and_eq_true] at h
      rw [names, names, names_of_same h.1.2, names_of_same h.2]
  | .call _ args', .call _ args, h => by
      rw [same, Bool.and_eq_true] at h
      rw [names, names, argNames_of_same h.2]

theorem argNames_of_same : ∀ {es' es : List (Expr α)}, sameArgs es' es = true →
    argNames es' = argNames es
  | [], [], _ => rfl
  | e' :: es', e :: es, h => by
      rw [sameArgs, Bool.and_eq_true] at h
      rw [argNames, argNames, names_of_same h.1, argNames_of_same h.2]

end

end

section

variable {α : Type} [Scalar α]

theorem names_negated (e : Expr α) : (Parser.negated e).names = e.names := by
  cases e <;> rfl

mutual

/-- Signs are taken into literals, which have no names. -/
theorem names_foldSigns : ∀ e : Expr α, e.foldSigns.names = e.names
  | .num _ | .bool _ | .var _ => rfl
  | .unary .neg e => by rw [foldSigns, names_negated, names_foldSigns e, names]
  | .unary .not e => names_foldSigns e
  | .binary _ l r => by rw [foldSigns, names, names_foldSigns l, names_foldSigns r, names]
  | .call _ args => argNames_foldArgSigns args

theorem argNames_foldArgSigns : ∀ es : List (Expr α), argNames (foldArgSigns es) = argNames es
  | [] => rfl
  | e :: es => by
      rw [foldArgSigns, argNames, names_foldSigns e, argNames_foldArgSigns es, argNames]

end

end

/-! ## Written numbers -/

/-- The words for the numbers that are not finite are parsed as names. -/
theorem parse_of_not_isFinite {c : Float} (h : ¬Scalar.isFinite c = true) :
    parse (formatNumber c) = .ok (.var "NaN" : Expr Float) ∨
      parse (formatNumber c) = .ok (.var "inf" : Expr Float) ∨
      parse (formatNumber c) = .ok (.neg (.var "inf") : Expr Float) := by
  have nan : IsName "NaN" := ⟨isIdentifier_of_all rfl rfl rfl, by decide⟩
  have inf : IsName "inf" := ⟨isIdentifier_of_all rfl rfl rfl, by decide⟩
  obtain written | written | written := Double.formatNumber_of_not_isFinite h <;> rw [written]
  · exact .inl (nan.spells.loosen (by decide)).parse
  · exact .inr (.inl (inf.spells.loosen (by decide)).parse)
  · exact .inr (.inr ((inf.spells.loosen (q := .power) (by decide)).minus.loosen (by decide)).parse)

/-- A number is read back as a number exactly if it is finite. -/
theorem parse_formatNumber_iff {c : Float} :
    (∃ d, parse (formatNumber c) = .ok (.num d : Expr Float)) ↔ Scalar.isFinite c = true := by
  constructor
  · rintro ⟨d, parsed⟩
    by_contra infinite
    obtain word | word | word := parse_of_not_isFinite infinite <;>
    · rw [parsed] at word
      cases word
  · intro finite
    obtain ⟨d, _, spells⟩ := Double.spells_formatNumber finite
    exact ⟨d, (spells.loosen (Phrase.rank_le _)).parse⟩

/-- The numbers in a formula are read back as numbers. -/
def NumbersReadBack (e : Expr Float) : Prop :=
  ∀ c, Part (.num c) e → ∃ d, parse (formatNumber c) = .ok (.num d : Expr Float)

theorem numbersReadBack_iff {e : Expr Float} : e.NumbersReadBack ↔ e.FiniteLiterals :=
  forall₂_congr fun _ _ => parse_formatNumber_iff

/-- The text of a formula with finite literals is read as a formula with the same names. -/
theorem FiniteLiterals.parse_render_names {s : Spelling} (hs : s.IsReadable) {e : Expr Float}
    (finite : e.FiniteLiterals) (names : e.Named) (negations : e.ReadableNegations) :
    ∃ e' : Expr Float, parse (e.render s) = .ok e' ∧ e'.names = e.names := by
  obtain ⟨e', same, spells⟩ := Legible.spells hs e ⟨names, finite, negations⟩
  exact ⟨e', (spells.loosen (Phrase.rank_le _)).parse,
    (names_of_same same).trans (names_foldSigns e)⟩

end Expr

end HybridAutomata
