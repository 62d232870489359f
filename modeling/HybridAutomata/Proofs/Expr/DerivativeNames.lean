import HybridAutomata.Expr.Derivative
import HybridAutomata.Proofs.Expr.SimplifiedNames
import HybridAutomata.Proofs.Success

/-!
# The names in a derivative

Differentiation brings in no names: a derivative is put together from parts of the formula. Along a
flow, the names of the rates come in beside them.
-/

namespace HybridAutomata

namespace Expr

open Success

variable {α : Type} [Scalar α] {ns : List String} {name : String}

theorem names_outerDerivative? {function : String} {u outer : Expr α} (h : u.names ⊆ ns)
    (found : outerDerivative? function u = some outer) : outer.names ⊆ ns := by
  unfold outerDerivative? at found
  split at found <;> cases found <;> simpa [names, argNames] using h

theorem names_rawDerivative {e d : Expr α} (h : e.names ⊆ ns)
    (success : rawDerivative name e = .ok d) : d.names ⊆ ns := by
  fun_induction rawDerivative name e generalizing d with
  | case1 | case11 => cases success
  | case2 | case3 =>
      cases success
      exact List.nil_subset ns
  | case4 u _ _ ih =>
      simp only [bind_eq_ok_iff, pure_eq_ok_iff] at success
      obtain ⟨du, hu, rfl⟩ := success
      exact ih (d := du) h hu
  | case5 u v _ _ ihu ihv | case6 u v _ _ ihu ihv | case7 u v _ _ ihu ihv
  | case8 u v _ _ ihu ihv =>
      simp only [bind_eq_ok_iff, pure_eq_ok_iff] at success
      obtain ⟨du, hu, dv, hv, rfl⟩ := success
      obtain ⟨left, right⟩ := List.append_subset.mp h
      simp [names, left, right, ihu left hu, ihv right hv]
  | case9 u v _ _ ihu ihv =>
      simp only [bind_eq_ok_iff] at success
      obtain ⟨du, hu, success⟩ := success
      obtain ⟨left, right⟩ := List.append_subset.mp h
      split at success
      · simp only [bind_eq_ok_iff, pure_eq_ok_iff] at success
        obtain ⟨dv, hv, rfl⟩ := success
        simp [names, argNames, left, right, ihu left hu, ihv right hv]
      · cases success
        simp [names, left, right, ihu left hu]
  | case10 function u _ _ ih =>
      simp only [bind_eq_ok_iff] at success
      obtain ⟨du, hu, success⟩ := success
      have argument : u.names ⊆ ns := by simpa [names, argNames] using h
      split at success
      · next outer found =>
          cases success
          exact List.append_subset.mpr ⟨names_outerDerivative? argument found, ih argument hu⟩
      · cases success

theorem names_derivative {e d : Expr α} (h : e.names ⊆ ns)
    (success : e.derivative name = .ok d) : d.names ⊆ ns := by
  obtain ⟨raw, made, rfl⟩ := map_eq_ok_iff.mp success
  exact names_simplify raw (names_rawDerivative h made)

theorem names_lieTerms {e : Expr α} {flows : List (String × Expr α)} {terms : List (Expr α)}
    (h : e.names ⊆ ns) (rates : ∀ entry ∈ flows, entry.2.names ⊆ ns)
    (success : e.lieTerms flows = .ok terms) : ∀ term ∈ terms, term.names ⊆ ns := by
  induction flows generalizing terms with
  | nil =>
      cases success
      exact List.forall_mem_nil _
  | cons entry flows ih =>
      obtain ⟨rate, rates⟩ := List.forall_mem_cons.mp rates
      rw [lieTerms] at success
      split at success
      · simp only [bind_eq_ok_iff, pure_eq_ok_iff] at success
        obtain ⟨d, hd, others, hothers, rfl⟩ := success
        refine List.forall_mem_cons.mpr ⟨?_, ih rates hothers⟩
        exact List.append_subset.mpr ⟨names_derivative h hd, rate⟩
      · exact ih rates success

theorem names_sum {terms : List (Expr α)} (h : ∀ term ∈ terms, term.names ⊆ ns) :
    (sum terms).names ⊆ ns := by
  cases terms with
  | nil => exact List.nil_subset ns
  | cons first rest =>
      obtain ⟨first', rest'⟩ := List.forall_mem_cons.mp h
      clear h
      induction rest generalizing first with
      | nil => exact first'
      | cons second rest ih =>
          obtain ⟨second', rest'⟩ := List.forall_mem_cons.mp rest'
          exact ih (first.add second) (List.append_subset.mpr ⟨first', second'⟩) rest'

/-- The rate at which a formula changes mentions names of the formula and of the flow only. -/
theorem names_lieDerivative {e d : Expr α} {flows : List (String × Expr α)} (h : e.names ⊆ ns)
    (rates : ∀ entry ∈ flows, entry.2.names ⊆ ns) (success : e.lieDerivative flows = .ok d) :
    d.names ⊆ ns := by
  simp only [lieDerivative, bind_eq_ok_iff, pure_eq_ok_iff] at success
  obtain ⟨terms, made, rfl⟩ := success
  exact names_simplify _ (names_sum (names_lieTerms h rates made))

end Expr

end HybridAutomata
