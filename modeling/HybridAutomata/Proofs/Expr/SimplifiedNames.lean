import HybridAutomata.Expr.Simplify
import HybridAutomata.Proofs.Expr.Names

/-!
# The names in a simplified formula

Simplification brings in no names: what the names of the operands are among, the names of the
simplified formula are among as well.
-/

namespace HybridAutomata

namespace Expr

section

variable {α : Type} {e l r : Expr α} {ns : List String}

theorem names_simplifyNot (h : e.names ⊆ ns) : (simplifyNot e).names ⊆ ns := by
  unfold simplifyNot
  split <;> exact h

theorem names_simplifyAnd (hl : l.names ⊆ ns) (hr : r.names ⊆ ns) :
    (simplifyAnd l r).names ⊆ ns := by
  unfold simplifyAnd
  split
  · exact List.nil_subset ns
  · exact names_and hl hr

theorem names_simplifyOr (hl : l.names ⊆ ns) (hr : r.names ⊆ ns) :
    (simplifyOr l r).names ⊆ ns := by
  unfold simplifyOr
  split
  · exact List.nil_subset ns
  · exact names_or hl hr

variable [Scalar α]

theorem names_of_negativeProduct? {c : α} {f : Expr α} (found : e.negativeProduct? = some (c, f))
    (h : e.names ⊆ ns) : f.names ⊆ ns := by
  unfold negativeProduct? at found
  split at found
  · split at found
    · cases found
      exact h
    · cases found
  · cases found

theorem names_simplifyNeg (h : e.names ⊆ ns) : (simplifyNeg e).names ⊆ ns := by
  unfold simplifyNeg
  split <;> exact h

theorem names_simplifyAdd (hl : l.names ⊆ ns) (hr : r.names ⊆ ns) :
    (simplifyAdd l r).names ⊆ ns := by
  have both : l.names ++ r.names ⊆ ns := List.append_subset.mpr ⟨hl, hr⟩
  unfold simplifyAdd
  split
  · exact hr
  split
  · exact hl
  split
  · split <;> exact both
  · exact both
  · split
    · next found =>
        have factor := names_of_negativeProduct? found hr
        exact List.append_subset.mpr ⟨hl, factor⟩
    · exact both

theorem names_simplifySub (hl : l.names ⊆ ns) (hr : r.names ⊆ ns) :
    (simplifySub l r).names ⊆ ns := by
  have both : l.names ++ r.names ⊆ ns := List.append_subset.mpr ⟨hl, hr⟩
  unfold simplifySub
  split
  · exact hl
  split
  · exact names_simplifyNeg hr
  split
  · split <;> exact both
  · exact both
  · split
    · next found =>
        have factor := names_of_negativeProduct? found hr
        exact List.append_subset.mpr ⟨hl, factor⟩
    · exact both

theorem names_simplifyMul (hl : l.names ⊆ ns) (hr : r.names ⊆ ns) :
    (simplifyMul l r).names ⊆ ns := by
  have both : l.names ++ r.names ⊆ ns := List.append_subset.mpr ⟨hl, hr⟩
  unfold simplifyMul
  split
  · exact List.nil_subset ns
  split
  · exact hr
  split
  · exact hl
  split
  · exact names_simplifyNeg hr
  split
  · exact names_simplifyNeg hl
  split
  · exact hr
  · exact hl
  · exact both
  · exact both

theorem names_simplifyDiv (hl : l.names ⊆ ns) (hr : r.names ⊆ ns) :
    (simplifyDiv l r).names ⊆ ns := by
  unfold simplifyDiv
  split
  · exact hl
  split
  · exact List.nil_subset ns
  · exact List.append_subset.mpr ⟨hl, hr⟩

theorem names_simplifyPow (hl : l.names ⊆ ns) (hr : r.names ⊆ ns) :
    (simplifyPow l r).names ⊆ ns := by
  unfold simplifyPow
  split
  · exact List.nil_subset ns
  split
  · exact hl
  · exact List.append_subset.mpr ⟨hl, hr⟩

theorem names_simplifyArith (op : ArithOp) (hl : l.names ⊆ ns) (hr : r.names ⊆ ns) :
    (simplifyArith op l r).names ⊆ ns := by
  cases op with
  | add => exact names_simplifyAdd hl hr
  | sub => exact names_simplifySub hl hr
  | mul => exact names_simplifyMul hl hr
  | div => exact names_simplifyDiv hl hr
  | pow => exact names_simplifyPow hl hr

/-- A fold that is made gives the result of the operator, which is finite. -/
theorem eq_of_foldArith {op : ArithOp} {c d : α} (h : foldArith op c d = some e) :
    e = .num (op.apply c d) ∧ Scalar.isFinite (op.apply c d) = true := by
  simp only [foldArith] at h
  split at h
  · cases h
  · split at h
    · next finite =>
        cases h
        exact ⟨rfl, finite⟩
    · cases h

theorem names_simplifyUnary (op : UnaryOp) (h : e.names ⊆ ns) :
    (simplifyUnary op e).names ⊆ ns := by
  cases op with
  | neg => exact names_simplifyNeg h
  | not => exact names_simplifyNot h

theorem names_simplifyBinary (op : BinaryOp) (hl : l.names ⊆ ns) (hr : r.names ⊆ ns) :
    (simplifyBinary op l r).names ⊆ ns := by
  match op with
  | .arith op =>
      simp only [simplifyBinary]
      split
      · next c d =>
          cases folded : foldArith op c d with
          | none => exact names_simplifyArith op hl hr
          | some f =>
              rw [Option.getD_some, (eq_of_foldArith folded).1]
              exact List.nil_subset ns
      · exact names_simplifyArith op hl hr
  | .compare op =>
      simp only [simplifyBinary]
      split
      · exact List.nil_subset ns
      · exact List.append_subset.mpr ⟨hl, hr⟩
  | .logic .and => exact names_simplifyAnd hl hr
  | .logic .or => exact names_simplifyOr hl hr

theorem names_simplifyCall {name : String} {args : List (Expr α)} (h : argNames args ⊆ ns) :
    (simplifyCall name args).names ⊆ ns := by
  unfold simplifyCall
  split
  · split
    · exact List.nil_subset ns
    · exact h
  · exact h

end

section

variable {α : Type} [Scalar α] {ns : List String}

mutual

theorem names_simplify : ∀ e : Expr α, e.names ⊆ ns → e.simplify.names ⊆ ns
  | .num _, h | .bool _, h | .var _, h => h
  | .unary op e, h => names_simplifyUnary op (names_simplify e h)
  | .binary op l r, h => by
      obtain ⟨hl, hr⟩ := List.append_subset.mp h
      exact names_simplifyBinary op (names_simplify l hl) (names_simplify r hr)
  | .call _ args, h => names_simplifyCall (argNames_simplifyArgs args h)

theorem argNames_simplifyArgs :
    ∀ es : List (Expr α), argNames es ⊆ ns → argNames (simplifyArgs es) ⊆ ns
  | [], h => h
  | e :: es, h => by
      obtain ⟨first, others⟩ := List.append_subset.mp h
      exact List.append_subset.mpr ⟨names_simplify e first, argNames_simplifyArgs es others⟩

end

/-- A simplified formula mentions no name that the formula does not mention. -/
theorem mentions_of_simplify {e : Expr α} {name : String}
    (h : e.simplify.mentions name = true) : e.mentions name = true := by
  rw [mentions_iff] at h ⊢
  exact names_simplify e (List.Subset.refl _) h

end

end Expr

end HybridAutomata
