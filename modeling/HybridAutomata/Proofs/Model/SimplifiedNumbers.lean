import HybridAutomata.Proofs.Decimal.Doubles
import HybridAutomata.Proofs.Expr.ReadNumbers
import HybridAutomata.Proofs.Model.Rewriting

/-!
# The numbers of a simplified model

The numbers of a model are written into its text, and read from there. If they are finite, then those
of the simplified model are so too, and are read back as numbers, unless a product of two coefficients
is out of range on the way. Such a coefficient is infinite, never undefined, and is read back as a
name.
-/

namespace HybridAutomata

open Grammar Token

instance : FiniteLaws Float where
  zero := by decide +kernel
  one := by decide +kernel
  neg := Double.isFinite_neg

/-! ## Formulas -/

namespace Expr

variable {e l r : Expr Float} {a b : Float}

/-- No coefficient is multiplied by zero, so the product is a number, if an infinite one. -/
theorem Merges.isDefined (merges : Merges l r a b) (finite : Scalar.isFinite a = true)
    (defined : Scalar.isDefined b = true) : Scalar.isDefined (a * b) = true :=
  Double.isDefined_mul finite merges.beq_zero defined

/-- The literals of a simplified formula are finite, except that a coefficient may be infinite. -/
theorem FiniteLiterals.finiteExcept_infinity (h : e.FiniteLiterals) :
    e.simplify.FiniteExcept (Scalar.isDefined · = true) :=
  finiteExcept_simplify ⟨Double.beq_self_of_isFinite, Double.isDefined_neg⟩ e h
    fun _ _ _ _ _ merges finite defined => merges.isDefined finite defined

/-- The product `a * (b * x)`. -/
def scaledTwice (a b : Float) : Expr Float := mul (num a) (mul (num b) (var "x"))

theorem simplify_scaledTwice (ha : (num a).Scales) (hb : (num b).Scales) :
    (scaledTwice a b).simplify = mul (num (a * b)) (var "x") := by
  rw [scaledTwice, mul, simplify, simplify_mul_var hb]
  exact simplifyMul_merged ha

theorem finiteLiterals_scaledTwice (ha : Scalar.isFinite a = true)
    (hb : Scalar.isFinite b = true) : (scaledTwice a b).FiniteLiterals := by
  intro c inside
  obtain rfl | rfl : c = a ∨ c = b := by simpa [scaledTwice] using inside
  · exact ha
  · exact hb

theorem coefficientsFit_scaledTwice (hb : (num b).Scales) (fits : Scalar.isFinite (a * b) = true) :
    (scaledTwice a b).CoefficientsFit := by
  intro l r inside c d merges
  obtain ⟨f, product⟩ := merges.product
  obtain ⟨rfl, rfl⟩ | ⟨rfl, rfl⟩ : (l = num a ∧ r = mul (num b) (var "x")) ∨
      (l = num b ∧ r = var "x") := by simpa [scaledTwice] using inside
  · rw [simplify_mul_var hb] at product
    cases product
    cases merges.literal
    exact fits
  · cases product

end Expr

/-! ## Models -/

namespace Model

variable {α : Type}

/-- The formulas of all automata in the tree and of all regions. -/
def formulas (m : Model α) : List (Expr α) :=
  m.root.automata.flatMap Automaton.formulas ++ (m.init.values ++ m.forbidden.values)

theorem formulas_simplify [Scalar α] (m : Model α) :
    m.simplify.formulas = m.formulas.map Expr.simplify := by
  simp only [formulas, simplify, mapRegions, Component.mapExprs, Component.automata_mapAutomata,
    NameMap.values_map, Automaton.formulas_mapExprs, List.flatMap_map, List.map_append,
    List.map_flatMap]

/-- Finite literals stay finite, except that a coefficient may become infinite. None does in any part
of the formula, and all numbers there are read back as numbers, exactly if no product of coefficients
is out of range. Then the text of a formula of the simplified model is read with the names that the
formula has, and no others. -/
theorem simplify_finite_iff (e : Expr Float) (m : Model Float) :
    (e.FiniteLiterals →
        e.simplify.FiniteExcept (Scalar.isDefined · = true) ∧
          (e.CoefficientsFit ↔ ∀ s, Expr.Part s e → s.simplify.FiniteLiterals) ∧
          (e.CoefficientsFit ↔ ∀ s, Expr.Part s e → s.simplify.NumbersReadBack)) ∧
      ((∀ f ∈ m.formulas, f.FiniteLiterals ∧ f.CoefficientsFit) →
        ∀ f ∈ m.simplify.formulas, f.FiniteLiterals ∧ f.NumbersReadBack ∧
          ∀ s : Spelling, s.IsReadable → f.Named → f.ReadableNegations →
            ∃ f' : Expr Float, Expr.parse (f.render s) = .ok f' ∧ f'.names = f.names) := by
  constructor
  · intro finite
    have fit := Expr.coefficientsFit_iff finite
    refine ⟨finite.finiteExcept_infinity, fit, ?_⟩
    simpa only [Expr.numbersReadBack_iff] using fit
  · intro given
    rw [formulas_simplify]
    refine List.forall_mem_map.mpr fun f mem => ?_
    obtain ⟨finite, fit⟩ := given f mem
    have simplified : f.simplify.FiniteLiterals := finite.simplify fit
    exact ⟨simplified, Expr.numbersReadBack_iff.mpr simplified,
      fun s readable names negations => simplified.parse_render_names readable names negations⟩

/-- The rate is `2 * (3 * x)`, and the product in the invariant `x <= 1e200 * 1e200` is infinite. -/
def growth : Automaton Float where
  vars := .ofList ["x"]
  modes := .ofList [("grow", {
    name := "grow"
    flow := some (.ofList [("x", { expr := Expr.scaledTwice 2 3 })])
    invariant := .le (.var "x") (.mul (.num 1e200) (.num 1e200)) })]

/-- The infinite product is left as it is, and the coefficients are put together. -/
theorem simplify_finite_iff_growth :
    (∀ e ∈ (ofComponent (.flat growth)).formulas, e.FiniteLiterals ∧ e.CoefficientsFit) ∧
      (∀ s, Expr.Part s (Expr.scaledTwice 2 3) → s.simplify.FiniteLiterals) ∧
      (∀ e ∈ (ofComponent (.flat growth)).simplify.formulas,
        e.FiniteLiterals ∧ e.NumbersReadBack) ∧
      Expr.mul (.num (2 * 3)) (.var "x") ∈ (ofComponent (.flat growth)).simplify.formulas ∧
      ∃ e' : Expr Float, Expr.parse (Expr.mul (.num (2 * 3 : Float)) (.var "x")).text = .ok e' ∧
        e'.names = ["x"] := by
  have invariant : (Expr.le (.var "x") (.mul (.num 1e200) (.num (1e200 : Float)))).FiniteLiterals ∧
      (Expr.le (.var "x") (.mul (.num 1e200) (.num (1e200 : Float)))).CoefficientsFit := by
    constructor
    · intro c inside
      obtain rfl : c = 1e200 := by simpa using inside
      decide +kernel
    · intro l r inside a b merges
      obtain ⟨rfl, rfl⟩ : l = .num 1e200 ∧ r = .num 1e200 := by simpa using inside
      obtain ⟨f, product⟩ := merges.product
      cases product
  have two : (Expr.num (2 : Float)).Scales := by decide +kernel
  have three : (Expr.num (3 : Float)).Scales := by decide +kernel
  have rate : (Expr.scaledTwice 2 3).FiniteLiterals ∧ (Expr.scaledTwice 2 3).CoefficientsFit :=
    ⟨Expr.finiteLiterals_scaledTwice (by decide +kernel) (by decide +kernel),
      Expr.coefficientsFit_scaledTwice three (by decide +kernel)⟩
  have all : (ofComponent (.flat growth)).formulas =
      [.le (.var "x") (.mul (.num 1e200) (.num 1e200)), Expr.scaledTwice 2 3] := rfl
  have given : ∀ e ∈ (ofComponent (.flat growth)).formulas,
      e.FiniteLiterals ∧ e.CoefficientsFit := by
    simpa [all] using And.intro invariant rate
  have rewritten : Expr.mul (.num (2 * 3)) (.var "x") ∈
      (ofComponent (.flat growth)).simplify.formulas := by
    rw [formulas_simplify, all, ← Expr.simplify_scaledTwice two three]
    exact List.mem_cons_of_mem _ List.mem_cons_self
  have names : (Expr.mul (.num (2 * 3 : Float)) (.var "x")).Named :=
    Expr.named_num.binary _ (Expr.named_var ⟨isIdentifier_of_all rfl rfl rfl, by decide⟩)
  have negations : (Expr.mul (.num (2 * 3 : Float)) (.var "x")).ReadableNegations := by
    intro op l r inside
    obtain ⟨rfl, rfl, rfl⟩ : op = .arith .mul ∧ l = .num (2 * 3) ∧ r = .var "x" := by
      simpa using inside
    constructor <;>
    · rintro ⟨o, ⟨⟩⟩
  obtain ⟨ofFormula, ofModel⟩ :=
    simplify_finite_iff (Expr.scaledTwice 2 3) (ofComponent (.flat growth))
  have simplified := ofModel given
  exact ⟨given, (ofFormula rate.1).2.1.mp rate.2,
    fun e mem => ⟨(simplified e mem).1, (simplified e mem).2.1⟩, rewritten,
    (simplified _ rewritten).2.2 .standard (.inl rfl) names negations⟩

/-- The literals of `1e200 * (1e200 * x)` are finite. The coefficient of its simplified form is not,
and is read back as a name. -/
theorem simplify_overflows :
    (Expr.scaledTwice 1e200 1e200).FiniteLiterals ∧
      ¬(Expr.scaledTwice 1e200 1e200).simplify.FiniteLiterals ∧
      (Expr.scaledTwice 1e200 1e200).simplify.text = "inf * x" ∧
      Expr.parse "inf * x" = .ok (Expr.mul (α := Float) (.var "inf") (.var "x")) := by
  have scales : (Expr.num (1e200 : Float)).Scales := by decide +kernel
  refine ⟨Expr.finiteLiterals_scaledTwice (by decide +kernel) (by decide +kernel), ?_,
    by decide +kernel, ?_⟩
  · rw [Expr.simplify_scaledTwice scales scales]
    intro finite
    have overflow : ¬Scalar.isFinite (1e200 * 1e200 : Float) = true := by decide +kernel
    exact overflow (finite _ (.left (.whole _)))
  · have inf : IsName "inf" := ⟨isIdentifier_of_all rfl rfl rfl, by decide⟩
    have x : IsName "x" := ⟨isIdentifier_of_all rfl rfl rfl, by decide⟩
    exact (((inf.spells.loosen (by decide)).join (s := .times) .times
      (x.spells.loosen (by decide))).loosen (by decide)).parse

end Model

end HybridAutomata
