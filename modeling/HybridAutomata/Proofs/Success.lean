import Mathlib.Data.List.Forall2
import HybridAutomata.Failure

/-!
# What a success says

Operations on models are chains of steps that may fail. The lemmas below open such a chain from its
success: every step of it succeeded, with the results that the later steps were given. They are
stated once here, so that no proof about an operation unfolds the monad.

A traversal of a list succeeds pointwise; `Forall₂` keeps the order, which later shows in the order
of modes and transitions.
-/

namespace HybridAutomata

namespace Success

variable {ε ε' α β : Type}

@[simp] theorem bind_eq_ok_iff {x : Except ε α} {f : α → Except ε β} {b : β} :
    (x >>= f) = .ok b ↔ ∃ a, x = .ok a ∧ f a = .ok b := by
  cases x <;> simp [bind, Except.bind]

@[simp] theorem pure_eq_ok_iff {a b : α} : (pure a : Except ε α) = .ok b ↔ a = b := by
  simp [pure, Except.pure]

@[simp] theorem map_eq_ok_iff {x : Except ε α} {f : α → β} {b : β} :
    (f <$> x) = .ok b ↔ ∃ a, x = .ok a ∧ f a = b := by
  cases x <;> simp [Functor.map, Except.map]

theorem toOption_eq_some_iff {x : Except ε α} {a : α} : x.toOption = some a ↔ x = .ok a := by
  cases x <;> simp [Except.toOption]

theorem exists_ok_of_any {x : Except ε α} {p : α → Bool}
    (h : x.toOption.any p = true) : ∃ a, x = .ok a ∧ p a = true := by
  cases x with
  | error e => cases h
  | ok a => exact ⟨a, rfl, h⟩

/-- Another cause of failure does not change a success. -/
@[simp] theorem mapError_eq_ok_iff {x : Except ε α} {f : ε → ε'} {a : α} :
    x.mapError f = .ok a ↔ x = .ok a := by
  cases x <;> simp [Except.mapError]

@[simp] theorem liftFault_eq_ok_iff {x : Except (Fault β) α} {a : α} :
    (liftM x : Except (Failure β) α) = .ok a ↔ x = .ok a := by
  change x.mapError Failure.fault = .ok a ↔ _
  exact mapError_eq_ok_iff

@[simp] theorem liftFaultRange_eq_ok_iff {x : Except (Fault β) α} {a : α} :
    (liftM x : Except (RangeError β) α) = .ok a ↔ x = .ok a := by
  change x.mapError RangeError.fault = .ok a ↔ _
  exact mapError_eq_ok_iff

@[simp] theorem liftEval_eq_ok_iff {x : Except (EvalError β) α} {a : α} :
    (liftM x : Except (Failure β) α) = .ok a ↔ x = .ok a := by
  change x.mapError Failure.eval = .ok a ↔ _
  exact mapError_eq_ok_iff

@[simp] theorem liftRange_eq_ok_iff {x : Except (RangeError β) α} {a : α} :
    (liftM x : Except (Failure β) α) = .ok a ↔ x = .ok a := by
  change x.mapError Failure.ofRangeError = .ok a ↔ _
  exact mapError_eq_ok_iff

@[simp] theorem ofPass_eq_ok_iff {pass : String} {x : Except (ParameterError β) α} {a : α} :
    Failure.ofPass pass x = .ok a ↔ x = .ok a :=
  mapError_eq_ok_iff

/-- A traversal succeeds exactly if its step succeeds on every item. -/
theorem mapM_eq_ok_iff {f : α → Except ε β} {xs : List α} {ys : List β} :
    xs.mapM f = .ok ys ↔ List.Forall₂ (fun x y => f x = .ok y) xs ys := by
  induction xs generalizing ys with
  | nil =>
      rw [List.mapM_nil, pure_eq_ok_iff, List.forall₂_nil_left_iff, eq_comm]
  | cons x xs ih =>
      simp only [List.mapM_cons, bind_eq_ok_iff, pure_eq_ok_iff, ih]
      constructor
      · rintro ⟨y, hy, rest, hrest, rfl⟩
        exact .cons hy hrest
      · rintro (_ | ⟨hy, hrest⟩)
        exact ⟨_, hy, _, hrest, rfl⟩

/-- A traversal that may find nothing finds something for every item, or nothing. -/
theorem mapM_eq_some_iff {f : α → Option β} {xs : List α} {ys : List β} :
    xs.mapM f = some ys ↔ (∀ x ∈ xs, (f x).isSome = true) ∧ xs.filterMap f = ys := by
  induction xs generalizing ys with
  | nil => simp
  | cons x xs ih =>
      rw [List.mapM_cons, List.forall_mem_cons, List.filterMap_cons]
      cases f x with
      | none => simp
      | some y => simp [Option.bind_eq_some_iff, ih, and_assoc]

theorem length_of_mapM {f : α → Except ε β} {xs : List α} {ys : List β}
    (h : xs.mapM f = .ok ys) : ys.length = xs.length :=
  (mapM_eq_ok_iff.mp h).length_eq.symm

/-- The results of a traversal are the results on the items. -/
theorem mem_of_mapM {f : α → Except ε β} {xs : List α} {ys : List β} (h : xs.mapM f = .ok ys)
    {y : β} : y ∈ ys ↔ ∃ x ∈ xs, f x = .ok y := by
  have pointwise := mapM_eq_ok_iff.mp h
  clear h
  induction pointwise with
  | nil => simp
  | cons first _ ih => simp [ih, first, eq_comm]

/-- What every step keeps, a traversal keeps in order. -/
theorem map_eq_of_mapM {γ : Type} {f : α → Except ε β} (before : α → γ) (after : β → γ)
    (keeps : ∀ x y, f x = .ok y → after y = before x) {xs : List α} {ys : List β}
    (h : xs.mapM f = .ok ys) : ys.map after = xs.map before := by
  have pointwise := mapM_eq_ok_iff.mp h
  clear h
  induction pointwise with
  | nil => rfl
  | cons first _ ih => rw [List.map_cons, List.map_cons, keeps _ _ first, ih]

theorem exists_of_mapM {f : α → Except ε β} {xs : List α} {ys : List β} (h : xs.mapM f = .ok ys)
    {x : α} (mem : x ∈ xs) : ∃ y ∈ ys, f x = .ok y := by
  have pointwise := mapM_eq_ok_iff.mp h
  clear h
  induction pointwise with
  | nil => cases mem
  | cons first _ ih =>
      obtain rfl | mem := List.mem_cons.mp mem
      · exact ⟨_, List.mem_cons_self, first⟩
      · obtain ⟨y, hy, success⟩ := ih mem
        exact ⟨y, List.mem_cons_of_mem _ hy, success⟩

/-- Lists that are related item by item have a partner for each item. -/
theorem exists_of_forall₂_left {R : α → β → Prop} {xs : List α} {ys : List β}
    (h : List.Forall₂ R xs ys) {x : α} (mem : x ∈ xs) : ∃ y ∈ ys, R x y := by
  induction h with
  | nil => cases mem
  | cons first _ ih =>
      obtain rfl | mem := List.mem_cons.mp mem
      · exact ⟨_, List.mem_cons_self, first⟩
      · obtain ⟨y, hy, related⟩ := ih mem
        exact ⟨y, List.mem_cons_of_mem _ hy, related⟩

theorem exists_of_forall₂_right {R : α → β → Prop} {xs : List α} {ys : List β}
    (h : List.Forall₂ R xs ys) {y : β} (mem : y ∈ ys) : ∃ x ∈ xs, R x y :=
  exists_of_forall₂_left h.flip mem

/-- Relations that agree on the items of the first list. -/
theorem forall₂_congr_of_mem {R S : α → β → Prop} {xs : List α} {ys : List β}
    (h : ∀ x ∈ xs, ∀ y, R x y ↔ S x y) : List.Forall₂ R xs ys ↔ List.Forall₂ S xs ys := by
  induction xs generalizing ys with
  | nil => simp
  | cons x xs ih =>
      obtain ⟨first, others⟩ := List.forall_mem_cons.mp h
      simp only [List.forall₂_cons_left_iff, first, ih others]

/-- A relation that follows from another one on the items of the first list. -/
theorem forall₂_imp_of_mem {R S : α → β → Prop} {xs : List α} {ys : List β}
    (h : List.Forall₂ R xs ys) (imp : ∀ x ∈ xs, ∀ y, R x y → S x y) : List.Forall₂ S xs ys := by
  have both : List.Forall₂ (fun x y => R x y ∧ S x y) xs ys :=
    (forall₂_congr_of_mem fun x mem y => ⟨fun r => ⟨r, imp x mem y r⟩, And.left⟩).mp h
  exact both.imp fun _ _ => And.right

/-- Lists that are related item by item to a third list are related through it. -/
theorem forall₂_comp {γ : Type} {R : α → β → Prop} {S : β → γ → Prop} {xs : List α} {ys : List β}
    {zs : List γ} (h : List.Forall₂ R xs ys) (h' : List.Forall₂ S ys zs) :
    List.Forall₂ (fun x z => ∃ y, R x y ∧ S y z) xs zs := by
  induction h generalizing zs with
  | nil =>
      cases h'
      exact .nil
  | cons first _ ih =>
      obtain _ | ⟨first', others'⟩ := h'
      exact .cons ⟨_, first, first'⟩ (ih others')

theorem eq_map_of_forall₂ {f : α → β} {xs : List α} {ys : List β}
    (h : List.Forall₂ (fun x y => y = f x) xs ys) : ys = xs.map f := by
  induction h with
  | nil => rfl
  | cons first _ ih => rw [first, ih, List.map_cons]

theorem forall₂_zip {γ δ : Type} {R : α → β → Prop} {S : γ → δ → Prop} {xs : List α} {ys : List β}
    {xs' : List γ} {ys' : List δ} (h : List.Forall₂ R xs ys) (h' : List.Forall₂ S xs' ys') :
    List.Forall₂ (fun x y => R x.1 y.1 ∧ S x.2 y.2) (xs.zip xs') (ys.zip ys') := by
  induction h generalizing xs' ys' with
  | nil => exact .nil
  | cons first _ ih =>
      obtain _ | ⟨first', others'⟩ := h'
      · exact .nil
      · exact .cons ⟨first, first'⟩ (ih others')

theorem forall₂_zipIdx {R : α → β → Prop} {xs : List α} {ys : List β} (h : List.Forall₂ R xs ys)
    (start : Nat) :
    List.Forall₂ (fun x y => R x.1 y.1 ∧ x.2 = y.2) (xs.zipIdx start) (ys.zipIdx start) := by
  induction h generalizing start with
  | nil => exact .nil
  | cons first _ ih => exact .cons ⟨first, rfl⟩ (ih (start + 1))

/-- Lists of one length whose items are related at every position. -/
theorem forall₂_of_getElem? {R : α → β → Prop} {xs : List α} {ys : List β}
    (length : xs.length = ys.length)
    (h : ∀ (i : Nat) x y, xs[i]? = some x → ys[i]? = some y → R x y) : List.Forall₂ R xs ys := by
  rw [List.forall₂_iff_get]
  exact ⟨length, fun i hx hy =>
    h i _ _ (List.getElem?_eq_getElem hx) (List.getElem?_eq_getElem hy)⟩

theorem exists_getElem?_of_forall₂ {R : α → β → Prop} {xs : List α} {ys : List β}
    (h : List.Forall₂ R xs ys) {i : Nat} {x : α} (place : xs[i]? = some x) :
    ∃ y, ys[i]? = some y ∧ R x y := by
  induction h generalizing i with
  | nil => cases place
  | cons first _ ih =>
      cases i with
      | zero =>
          cases place
          exact ⟨_, rfl, first⟩
      | succ i => exact ih place

/-- Another item in one place that is related to the item there. -/
theorem forall₂_set {R : α → β → Prop} {xs : List α} {ys : List β} (h : List.Forall₂ R xs ys)
    {i : Nat} {x : α} {y : β} (place : xs[i]? = some x) (related : R x y) :
    List.Forall₂ R xs (ys.set i y) := by
  induction h generalizing i with
  | nil => cases place
  | cons first others ih =>
      cases i with
      | zero =>
          cases place
          exact .cons related others
      | succ i => exact .cons first (ih place)

/-- Two traversals of related lists whose steps give related results. -/
theorem forall₂_of_mapM {γ δ : Type} {f : α → Except ε β} {g : γ → Except ε δ} {R : α → γ → Prop}
    {S : β → δ → Prop} {xs : List α} {xs' : List γ} {ys : List β} {ys' : List δ}
    (inputs : List.Forall₂ R xs xs') (h : xs.mapM f = .ok ys) (h' : xs'.mapM g = .ok ys')
    (steps : ∀ x x' y y', R x x' → f x = .ok y → g x' = .ok y' → S y y') :
    List.Forall₂ S ys ys' := by
  have results := forall₂_comp (forall₂_comp (mapM_eq_ok_iff.mp h).flip inputs)
    (mapM_eq_ok_iff.mp h')
  refine results.imp ?_
  rintro y y' ⟨x', ⟨x, made, related⟩, made'⟩
  exact steps x x' y y' related made made'

/-- A traversal that may fail and one that may find nothing, over the same items. -/
theorem forall₂_of_mapM_some {γ : Type} {f : α → Except ε β} {g : α → Option γ} {R : β → γ → Prop}
    {xs : List α} {ys : List β} {zs : List γ} (h : xs.mapM f = .ok ys) (h' : xs.mapM g = some zs)
    (steps : ∀ x y z, f x = .ok y → g x = some z → R y z) : List.Forall₂ R ys zs := by
  induction xs generalizing ys zs with
  | nil =>
      cases h
      cases h'
      exact .nil
  | cons x xs ih =>
      simp only [List.mapM_cons, bind_eq_ok_iff, pure_eq_ok_iff] at h
      simp only [List.mapM_cons, Option.bind_eq_bind, Option.bind_eq_some_iff, Option.pure_def,
        Option.some.injEq] at h'
      obtain ⟨y, first, ys, others, rfl⟩ := h
      obtain ⟨z, first', zs, others', rfl⟩ := h'
      exact .cons (steps x y z first first') (ih others others')

/-- The items of a traversal with their results. -/
theorem mem_zip_of_mapM {f : α → Except ε β} {xs : List α} {ys : List β} (h : xs.mapM f = .ok ys)
    {x : α} {y : β} : (x, y) ∈ xs.zip ys ↔ x ∈ xs ∧ f x = .ok y := by
  have pointwise := mapM_eq_ok_iff.mp h
  clear h
  induction pointwise with
  | nil => simp
  | @cons x' y' xs ys first _ ih =>
      simp only [List.zip_cons_cons, List.mem_cons, Prod.mk.injEq, ih]
      constructor
      · rintro (⟨rfl, rfl⟩ | ⟨mem, made⟩)
        · exact ⟨.inl rfl, first⟩
        · exact ⟨.inr mem, made⟩
      · rintro ⟨rfl | mem, made⟩
        · exact .inl ⟨rfl, Except.ok.inj (made.symm.trans first)⟩
        · exact .inr ⟨mem, made⟩

/-- A check of every item succeeds exactly if all items pass. -/
theorem forM_eq_ok_iff {f : α → Except ε Unit} {xs : List α} :
    xs.forM f = .ok () ↔ ∀ x ∈ xs, f x = .ok () := by
  induction xs with
  | nil => simp [List.forM, pure, Except.pure]
  | cons x xs ih =>
      rw [List.forall_mem_cons, ← ih]
      change (f x >>= fun _ => xs.forM f) = .ok () ↔ _
      rw [bind_eq_ok_iff]
      exact ⟨fun ⟨_, hx, hrest⟩ => ⟨hx, hrest⟩, fun ⟨hx, hrest⟩ => ⟨_, hx, hrest⟩⟩

/-! ## What a failure says -/

/-- A chain fails in its first step, or after it. -/
theorem bind_eq_error_iff {x : Except ε α} {f : α → Except ε β} {e : ε} :
    (x >>= f) = .error e ↔ x = .error e ∨ ∃ a, x = .ok a ∧ f a = .error e := by
  cases x <;> simp [bind, Except.bind]

/-- A traversal fails on one of its items. -/
theorem exists_of_mapM_eq_error {f : α → Except ε β} {xs : List α} {e : ε}
    (h : xs.mapM f = .error e) : ∃ x ∈ xs, f x = .error e := by
  induction xs with
  | nil => cases h
  | cons x xs ih =>
      simp only [List.mapM_cons, bind_eq_error_iff] at h
      obtain first | ⟨_, _, rest | ⟨_, _, ⟨⟩⟩⟩ := h
      · exact ⟨x, List.mem_cons_self, first⟩
      · obtain ⟨y, mem, fails⟩ := ih rest
        exact ⟨y, List.mem_cons_of_mem _ mem, fails⟩

/-- A traversal succeeds if its step has a result for every item. -/
theorem exists_ok_of_mapM {f : α → Except ε β} {xs : List α} (h : ∀ x ∈ xs, ∃ y, f x = .ok y) :
    ∃ ys, xs.mapM f = .ok ys := by
  cases made : xs.mapM f with
  | ok ys => exact ⟨ys, rfl⟩
  | error e =>
      obtain ⟨x, mem, fails⟩ := exists_of_mapM_eq_error made
      obtain ⟨y, succeeds⟩ := h x mem
      cases fails.symm.trans succeeds

theorem liftFault_eq_error_iff {x : Except (Fault β) α} {e : Failure β} :
    (liftM x : Except (Failure β) α) = .error e ↔ ∃ cause, x = .error cause ∧ .fault cause = e := by
  change x.mapError Failure.fault = _ ↔ _
  cases x <;> simp [Except.mapError]

theorem liftEval_eq_error_iff {x : Except (EvalError β) α} {e : Failure β} :
    (liftM x : Except (Failure β) α) = .error e ↔ ∃ cause, x = .error cause ∧ .eval cause = e := by
  change x.mapError Failure.eval = _ ↔ _
  cases x <;> simp [Except.mapError]

/-- A fault is no failure of evaluation. -/
theorem liftFaultRange_ne_undefined {x : Except (Fault β) α} {cause : EvalError β} :
    (liftM x : Except (RangeError β) α) ≠ .error (.undefined cause) := by
  change x.mapError RangeError.fault ≠ _
  cases x <;> simp [Except.mapError]

/-! ## Related options -/

section

variable {R : α → β → Prop} {a? : Option α} {b? : Option β}

theorem exists_of_rel_left {a : α} (h : Option.Rel R (some a) b?) : ∃ b, b? = some b ∧ R a b := by
  cases h with
  | some related => exact ⟨_, rfl, related⟩

theorem exists_of_rel_right {b : β} (h : Option.Rel R a? (some b)) : ∃ a, a? = some a ∧ R a b := by
  cases h with
  | some related => exact ⟨_, rfl, related⟩

theorem eq_none_of_rel_right (h : Option.Rel R a? none) : a? = none := by
  cases h with
  | none => rfl

theorem rel_flip {S : β → α → Prop} (h : Option.Rel R a? b?) (imp : ∀ a b, R a b → S b a) :
    Option.Rel S b? a? := by
  cases h with
  | none => exact .none
  | some related => exact .some (imp _ _ related)

theorem rel_imp {S : α → β → Prop} (h : Option.Rel R a? b?)
    (imp : ∀ a b, a? = some a → R a b → S a b) : Option.Rel S a? b? := by
  cases h with
  | none => exact .none
  | some related => exact .some (imp _ _ rfl related)

theorem rel_bind {γ δ : Type} {S : γ → δ → Prop} {f : α → Option γ} {g : β → Option δ}
    (h : Option.Rel R a? b?) (steps : ∀ a b, R a b → Option.Rel S (f a) (g b)) :
    Option.Rel S (a?.bind f) (b?.bind g) := by
  cases h with
  | none => exact .none
  | some related => exact steps _ _ related

theorem rel_map {γ δ : Type} {S : γ → δ → Prop} {f : α → γ} {g : β → δ}
    (h : Option.Rel R a? b?) (steps : ∀ a b, R a b → S (f a) (g b)) :
    Option.Rel S (a?.map f) (b?.map g) := by
  cases h with
  | none => exact .none
  | some related => exact .some (steps _ _ related)

end

end Success

end HybridAutomata
