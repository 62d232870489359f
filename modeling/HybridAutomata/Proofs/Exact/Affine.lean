import HybridAutomata.Proofs.Exact.Polynomials
import HybridAutomata.Proofs.Exact.SimplifiedValues

/-!
# Affine formulas

The value of a formula that is a polynomial in a name changes, where the linear coefficient of that
name is found, by the coefficient times the change of the name.
-/

namespace HybridAutomata

open Extended

namespace Expr

variable {K : Type} [Field K] [LinearOrder K] [FloorRing K] [Functions K]

/-- The formulas that are polynomials in a name. What does not mention the name is a number. -/
inductive PolynomialIn (u : String) : Expr (Extended K) → Prop where
  | free {e : Expr (Extended K)} : e.mentions u = false → PolynomialIn u e
  | var : PolynomialIn u (.var u)
  | neg {e : Expr (Extended K)} : PolynomialIn u e → PolynomialIn u (neg e)
  | add {l r : Expr (Extended K)} :
      PolynomialIn u l → PolynomialIn u r → PolynomialIn u (add l r)
  | sub {l r : Expr (Extended K)} :
      PolynomialIn u l → PolynomialIn u r → PolynomialIn u (sub l r)
  | mul {l r : Expr (Extended K)} :
      PolynomialIn u l → PolynomialIn u r → PolynomialIn u (mul l r)
  | div {l r : Expr (Extended K)} :
      PolynomialIn u l → r.mentions u = false → PolynomialIn u (div l r)
  | pow {l r : Expr (Extended K)} (n : ℕ) : PolynomialIn u l → r.names = [] →
      r.value? (fun _ => 0) = some (n : K) → PolynomialIn u (pow l r)

variable [IntegerPowers K] {v : String → K} {u : String} {e : Expr (Extended K)} {x : K}

/-- An exponent with a natural value is simplified to it. -/
theorem PolynomialIn.isPolynomialIn (h : e.PolynomialIn u) : e.IsPolynomialIn u := by
  induction h with
  | free free => exact .free free
  | var => exact .var
  | neg _ operand => exact .neg operand
  | add _ _ left right => exact .add left right
  | sub _ _ left right => exact .sub left right
  | mul _ _ left right => exact .mul left right
  | div _ free left => exact .div left free
  | pow n _ closed exponent base => exact .pow n base closed (simplify_eq_num _ _ closed exponent)

/-- A coefficient that is found is a number, and the value of the formula is affine in the name with
that slope. -/
theorem PolynomialIn.affine [IsStrictOrderedRing K] (h : PolynomialIn u e)
    (hx : e.value? v = some x) {coefficient : Extended K}
    (found : e.linearCoefficient? u = some coefficient) :
    ∃ c, coefficient = finite c ∧
      ∀ δ, e.value? (Function.update v u (v u + δ)) = some (x + c * δ) := by
  have : CharZero K := IsStrictOrderedRing.toCharZero
  obtain ⟨c, rfl, affine⟩ :=
    h.isPolynomialIn.affine_of_linearCoefficient found rfl ((means_iff_value? v e).mpr hx)
  refine ⟨c, rfl, fun δ => ?_⟩
  rw [← means_iff_value?, assign_update]
  have moved := affine (v u + δ)
  rwa [add_sub_cancel_left] at moved

end Expr

end HybridAutomata
