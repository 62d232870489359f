import HybridAutomata.Proofs.Success

/-!
# Answers without a fault

A fault is a broken precondition, and a caller that keeps the preconditions never meets one. What it
meets is an answer of some kind, or a failure that says what is wrong with the model. The lemmas
below carry both through a chain of steps: a step that may rely on the answers before it, and whose
own answer the later steps may rely on.
-/

namespace HybridAutomata

/-- Which of the errors are faults. -/
class HasFaults (ε : Type) where
  IsFault : ε → Prop

section

variable {α : Type}

instance : HasFaults (Fault α) := ⟨fun _ => True⟩

instance : HasFaults (EvalError α) := ⟨fun _ => False⟩

instance : HasFaults (ParameterError α) := ⟨fun _ => False⟩

instance : HasFaults (RangeError α) where
  IsFault
    | .fault _ => True
    | .undefined _ => False

instance : HasFaults (Failure α) where
  IsFault
    | .fault _ => True
    | _ => False

end

/-- There is no fault, and if there is an answer, it has a property. -/
def Faultless {ε β : Type} [HasFaults ε] (P : β → Prop) : Except ε β → Prop
  | .ok answer => P answer
  | .error e => ¬HasFaults.IsFault e

/-- There is no fault, whatever is answered. -/
abbrev NoFault {ε β : Type} [HasFaults ε] (x : Except ε β) : Prop := Faultless (fun _ => True) x

namespace Faultless

variable {ε ε' α β γ : Type} [HasFaults ε] [HasFaults ε'] {P : β → Prop} {Q : γ → Prop}
  {x : Except ε β}

theorem of_exists (h : ∃ answer, x = .ok answer ∧ P answer) : Faultless P x := by
  obtain ⟨answer, rfl, property⟩ := h
  exact property

theorem answer (h : Faultless P x) {answer : β} (made : x = .ok answer) : P answer := by
  rw [made] at h
  exact h

/-- Where every error is a fault, there is an answer. -/
theorem exists_ok {x : Except (Fault α) β} (h : Faultless P x) : ∃ answer, x = .ok answer ∧ P answer := by
  cases x with
  | ok answer => exact ⟨answer, rfl, h⟩
  | error => exact absurd trivial h

theorem mono {P' : β → Prop} (h : Faultless P x)
    (implies : ∀ answer, x = .ok answer → P answer → P' answer) : Faultless P' x := by
  cases x with
  | ok answer => exact implies answer rfl h
  | error e => exact h

/-- A step that relies on the answer before it. -/
theorem bind (h : Faultless P x) {f : β → Except ε γ}
    (next : ∀ answer, x = .ok answer → P answer → Faultless Q (f answer)) :
    Faultless Q (x >>= f) := by
  cases x with
  | ok answer => exact next answer rfl h
  | error e => exact h

theorem map {f : β → γ} (h : Faultless (fun answer => Q (f answer)) x) : Faultless Q (f <$> x) := by
  cases x with
  | ok answer => exact h
  | error e => exact h

/-- A traversal relates the items to the answers for them. -/
theorem mapM {R : α → β → Prop} {f : α → Except ε β} {xs : List α}
    (h : ∀ x ∈ xs, Faultless (R x) (f x)) : Faultless (List.Forall₂ R xs) (xs.mapM f) := by
  induction xs with
  | nil => exact .nil
  | cons x xs ih =>
      obtain ⟨first, others⟩ := List.forall_mem_cons.mp h
      rw [List.mapM_cons]
      refine first.bind fun y _ related => ?_
      refine (ih others).bind fun ys _ rest => ?_
      exact .cons related rest

theorem forall_mapM {f : α → Except ε β} {xs : List α} (h : ∀ x ∈ xs, Faultless P (f x)) :
    Faultless (fun ys => ∀ y ∈ ys, P y) (xs.mapM f) := by
  refine (mapM (R := fun _ => P) h).mono fun ys _ related y mem => ?_
  obtain ⟨_, _, property⟩ := Success.exists_of_forall₂_right related mem
  exact property

theorem forM {f : α → Except ε PUnit} {xs : List α}
    (h : ∀ x ∈ xs, NoFault (f x)) : NoFault (xs.forM f) := by
  induction xs with
  | nil => trivial
  | cons x xs ih =>
      obtain ⟨first, others⟩ := List.forall_mem_cons.mp h
      exact first.bind fun _ _ _ => ih others

/-- Another error is a fault only if the error was one. -/
theorem mapError {f : ε → ε'} (keeps : ∀ e, HasFaults.IsFault (f e) → HasFaults.IsFault e)
    (h : Faultless P x) : Faultless P (x.mapError f) := by
  cases x with
  | ok answer => exact h
  | error e => exact fun isFault => h (keeps e isFault)

/-! ## Failures -/

theorem lift {x : Except (Fault α) β} (h : Faultless P x) :
    Faultless P (liftM x : Except (Failure α) β) :=
  h.mapError (f := Failure.fault) fun _ _ => trivial

theorem liftToRange {x : Except (Fault α) β} (h : Faultless P x) :
    Faultless P (liftM x : Except (RangeError α) β) :=
  h.mapError (f := RangeError.fault) fun _ _ => trivial

theorem liftRange {x : Except (RangeError α) β} (h : Faultless P x) :
    Faultless P (liftM x : Except (Failure α) β) := by
  refine h.mapError (f := Failure.ofRangeError) fun e isFault => ?_
  cases e with
  | undefined => exact isFault
  | fault => trivial

theorem liftEval {x : Except (EvalError α) β} (h : ∀ answer, x = .ok answer → P answer) :
    Faultless P (liftM x : Except (Failure α) β) := by
  have faultless : Faultless P x := by
    cases x with
    | ok answer => exact h answer rfl
    | error e => exact id
  exact faultless.mapError (f := Failure.eval) fun _ => id

theorem ofPass {pass : String} {x : Except (ParameterError α) β}
    (h : ∀ answer, x = .ok answer → P answer) : Faultless P (Failure.ofPass pass x) := by
  cases x with
  | ok answer => exact h answer rfl
  | error e => exact id

end Faultless

end HybridAutomata
