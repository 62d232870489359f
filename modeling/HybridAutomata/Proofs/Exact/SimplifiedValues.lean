import HybridAutomata.Proofs.Exact.Simplification
import HybridAutomata.Proofs.Exact.Values

/-!
# Values of simplified formulas

A value is what a formula stands for under an assignment of numbers to all names, so simplification
keeps it, and a formula without names is simplified to a literal.
-/

namespace HybridAutomata

open Extended

namespace Expr

variable {K : Type} [Field K] [LinearOrder K] [FloorRing K] [Functions K] [IntegerPowers K]

mutual

/-- The value of a formula is the number that the formula stands for. -/
theorem means_iff_value? (v : String → K) : ∀ (e : Expr (Extended K)) {x : K},
    Means (assign v) e (.number x) ↔ e.value? v = some x
  | .num c, x => means_num.trans number?_eq_some_iff.symm
  | .var name, x => by
      constructor
      · rintro (_ | _ | ⟨⟨⟩⟩)
        rfl
      · rintro ⟨⟩
        exact .var rfl
  | .unary .neg e, x => by
      simp only [means_neg, value?_neg, means_iff_value? v e]
  | .binary (.arith op) l r, x => by
      simp only [means_arith, value?_arith, means_iff_value? v l, means_iff_value? v r]
      rfl
  | .call name args, x => by
      simp only [means_call, value?_call, allMean_iff_values? v args]
      rfl
  | .bool _, _ => by simp [value?]; rintro ⟨⟩
  | .unary .not _, _ => by simp [value?]; rintro ⟨⟩
  | .binary (.logic _) _ _, _ => by simp [value?]; rintro ⟨⟩
  | .binary (.compare _) _ _, _ => by simp [value?]; rintro ⟨⟩

theorem allMean_iff_values? (v : String → K) : ∀ (es : List (Expr (Extended K))) {xs : List K},
    AllMean (assign v) es xs ↔ values? v es = some xs
  | [], xs => by
      constructor
      · rintro ⟨⟩
        rfl
      · rintro ⟨⟩
        exact .nil
  | e :: es, xs => by
      simp only [values?_cons, ← means_iff_value? v e, ← allMean_iff_values? v es]
      constructor
      · rintro (_ | ⟨first, others⟩)
        exact ⟨_, _, first, others, rfl⟩
      · rintro ⟨x, rest, first, others, rfl⟩
        exact .cons first others

end

/-- A formula without names is simplified to the literal of its value. -/
theorem simplify_eq_num (v : String → K) (e : Expr (Extended K)) {x : K} (closed : e.names = [])
    (h : e.value? v = some x) : e.simplify = num (finite x) :=
  simplify_eq_num_of_means e closed ((means_iff_value? v e).mpr h)

end Expr

end HybridAutomata
