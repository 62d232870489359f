import HybridAutomata.Expr.Eval
import HybridAutomata.Proofs.Expr.Names
import HybridAutomata.Proofs.Success

/-!
# The truth of conditions that are put together

Conjunctions and disjunctions are built with care for their written form: neutral conditions
disappear and chains lean to the left. None of it shows when they are evaluated. A conjunction of
several conditions looks at them one after the other until one fails to hold, and a disjunction
until one holds, errors included.
-/

namespace HybridAutomata

open Success

namespace Expr

variable {α : Type} [Scalar α] (env : String → Option α)

attribute [local simp] holds

/-- A conjunction holds as if it were written as it was built. -/
theorem holds_and (l r : Expr α) :
    (l.and r).holds env = (Expr.binary (.logic .and) l r).holds env := by
  fun_induction Expr.and l r with
  | case1 r₁ r₂ => rfl
  | case2 r₁ r₂ l _ front whole =>
      rw [whole, holds, front, holds, holds, holds]
      cases l.holds env with
      | error => rfl
      | ok b => cases b <;> rfl
  | case3 l =>
      rw [holds, holds]
      cases l.holds env with
      | error => rfl
      | ok b => cases b <;> rfl
  | case4 => rfl
  | case5 => rfl

/-- A disjunction holds as if it were written as it was built. -/
theorem holds_or (l r : Expr α) :
    (l.or r).holds env = (Expr.binary (.logic .or) l r).holds env := by
  fun_induction Expr.or l r with
  | case1 r₁ r₂ => rfl
  | case2 r₁ r₂ l _ front whole =>
      rw [whole, holds, front, holds, holds, holds]
      cases l.holds env with
      | error => rfl
      | ok b => cases b <;> rfl
  | case3 l =>
      rw [holds, holds]
      cases l.holds env with
      | error => rfl
      | ok b => cases b <;> rfl
  | case4 => rfl
  | case5 => rfl

theorem holds_foldl_and (l : Expr α) (items : List (Expr α)) :
    (items.foldl Expr.and l).holds env =
      (do if ← l.holds env then items.allM (·.holds env) else return false) := by
  induction items generalizing l with
  | nil =>
      simp only [List.foldl_nil, List.allM]
      cases l.holds env with
      | error => rfl
      | ok b => cases b <;> rfl
  | cons item rest ih =>
      rw [List.foldl_cons, ih, holds_and, holds, List.allM]
      cases l.holds env with
      | error => rfl
      | ok b =>
          cases b with
          | false => rfl
          | true =>
              change (item.holds env >>= _) = (item.holds env >>= _)
              congr 1
              funext b
              cases b <;> rfl

theorem holds_foldl_or (l : Expr α) (items : List (Expr α)) :
    (items.foldl Expr.or l).holds env =
      (do if ← l.holds env then return true else items.anyM (·.holds env)) := by
  induction items generalizing l with
  | nil =>
      simp only [List.foldl_nil, List.anyM]
      cases l.holds env with
      | error => rfl
      | ok b => cases b <;> rfl
  | cons item rest ih =>
      rw [List.foldl_cons, ih, holds_or, holds, List.anyM]
      cases l.holds env with
      | error => rfl
      | ok b =>
          cases b with
          | true => rfl
          | false =>
              change (item.holds env >>= _) = (item.holds env >>= _)
              congr 1
              funext b
              cases b <;> rfl

/-- The conjunction of several conditions asks them in turn, until one fails to hold. -/
theorem holds_andAll (items : List (Expr α)) :
    (andAll items).holds env = items.allM (·.holds env) := by
  rw [andAll, holds_foldl_and, holds]
  rfl

/-- The disjunction of several conditions asks them in turn, until one holds. -/
theorem holds_orAll (items : List (Expr α)) :
    (orAll items).holds env = items.anyM (·.holds env) := by
  rw [orAll, holds_foldl_or, holds]
  rfl

theorem andAll_holds_iff (items : List (Expr α)) :
    (andAll items).holds env = .ok true ↔ ∀ e ∈ items, e.holds env = .ok true := by
  rw [holds_andAll]
  induction items with
  | nil => simp [List.allM, pure, Except.pure]
  | cons item rest ih =>
      rw [List.forall_mem_cons, ← ih, List.allM, bind_eq_ok_iff]
      constructor
      · rintro ⟨b, hb, others⟩
        cases b with
        | true => exact ⟨hb, others⟩
        | false => cases others
      · rintro ⟨hitem, others⟩
        exact ⟨true, hitem, others⟩

/-! ## Conjuncts -/

/-- A condition holds exactly if its conjuncts do. -/
theorem conjuncts_hold_iff (e : Expr α) :
    (∀ item ∈ e.conjuncts, item.holds env = .ok true) ↔ e.holds env = .ok true := by
  unfold conjuncts
  fun_induction chain .and e with
  | case1 l r left right =>
      rw [List.forall_mem_append, left, right, holds, bind_eq_ok_iff]
      constructor
      · rintro ⟨first, second⟩
        exact ⟨true, first, second⟩
      · rintro ⟨b, first, second⟩
        cases b with
        | true => exact ⟨first, second⟩
        | false => cases second
  | case2 => exact List.forall_mem_singleton
  | case3 => exact List.forall_mem_singleton

/-! ## Disjuncts -/

/-- If its disjuncts are true or false, a condition is, and it is true exactly if one of them is. -/
theorem exists_holds_of_disjuncts {e : Expr α}
    (decided : ∀ item ∈ e.disjuncts, ∃ b, item.holds env = .ok b) :
    ∃ b, e.holds env = .ok b ∧ (b = true ↔ ∃ item ∈ e.disjuncts, item.holds env = .ok true) := by
  unfold disjuncts at decided ⊢
  fun_induction chain .or e with
  | case1 l r left right =>
      obtain ⟨before, behind⟩ := List.forall_mem_append.mp decided
      obtain ⟨b, first, left⟩ := left before
      obtain ⟨c, second, right⟩ := right behind
      refine ⟨b || c, ?_, ?_⟩
      · rw [holds, first]
        cases b with
        | true => rfl
        | false => exact second
      · simp only [Bool.or_eq_true, left, right, List.mem_append, or_and_right, exists_or]
  | case2 o l r other =>
      obtain ⟨b, value⟩ := decided _ (List.mem_singleton_self _)
      exact ⟨b, value, by simp [value]⟩
  | case3 e other =>
      obtain ⟨b, value⟩ := decided _ (List.mem_singleton_self _)
      exact ⟨b, value, by simp [value]⟩

omit [Scalar α] in
/-- The operands of a chain are not chains of the same connective. -/
theorem ne_of_mem_chain {op : LogicOp} {e item : Expr α} (mem : item ∈ e.chain op)
    (l r : Expr α) : item ≠ .binary (.logic op) l r := by
  fun_induction chain op e with
  | case1 l' r' left right =>
      obtain before | behind := List.mem_append.mp mem
      · exact left before
      · exact right behind
  | case2 o l' r' other =>
      rw [List.mem_singleton.mp mem]
      intro same
      cases same
      exact other rfl
  | case3 e other =>
      rw [List.mem_singleton.mp mem]
      exact other op l r

omit [Scalar α] in
/-- So they are not taken apart any further. -/
theorem chain_of_mem_chain {op : LogicOp} {e item : Expr α} (mem : item ∈ e.chain op) :
    item.chain op = [item] := by
  have other := ne_of_mem_chain mem
  fun_cases chain op item with
  | case1 l r => exact absurd rfl (other l r)
  | case2 => rfl
  | case3 => rfl

/-! ## Dropped conjuncts -/

/-- Dropping conjuncts makes a condition weaker. -/
theorem holds_withoutConjunctsMentioning {e : Expr α} (name : String)
    (h : e.holds env = .ok true) : (e.withoutConjunctsMentioning name).holds env = .ok true := by
  rw [withoutConjunctsMentioning, andAll_holds_iff]
  intro item mem
  exact (conjuncts_hold_iff env e).mpr h item (List.mem_of_mem_filter mem)

end Expr

end HybridAutomata
