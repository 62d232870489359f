import HybridAutomata.Expr.Eval
import HybridAutomata.Proofs.Expr.Names
import HybridAutomata.Proofs.Success

/-!
# Substitution

What a formula mentions and stands for after names in it have been replaced by formulas. It mentions
what the replacements mention, and it stands for what it stood for when each name took the value of
its replacement. Renaming is the case in which every name is replaced by a name, and the
substitution of one name the case in which the others stay.
-/

namespace HybridAutomata

open Success

namespace Expr

/-! ## Names -/

section

variable {α : Type} {σ : String → Option (Expr α)} {name : String}

mutual

/-- A name of a formula after substitution is one of what stands for a name of the formula. -/
theorem mem_names_substituteWith : ∀ e : Expr α, name ∈ (e.substituteWith σ).names ↔
    ∃ x ∈ e.names, name ∈ ((σ x).getD (.var x)).names
  | .num _ | .bool _ => by simp [substituteWith, names]
  | .var x => by simp [substituteWith, names]
  | .unary _ e => mem_names_substituteWith e
  | .binary _ l r => by
      simp only [substituteWith, names, List.mem_append, mem_names_substituteWith l,
        mem_names_substituteWith r, or_and_right, exists_or]
  | .call _ args => mem_argNames_substituteArgs args

theorem mem_argNames_substituteArgs : ∀ es : List (Expr α),
    name ∈ argNames (substituteArgs σ es) ↔
      ∃ x ∈ argNames es, name ∈ ((σ x).getD (.var x)).names
  | [] => by simp [substituteArgs, argNames]
  | e :: es => by
      simp only [substituteArgs, argNames, List.mem_append, mem_names_substituteWith e,
        mem_argNames_substituteArgs es, or_and_right, exists_or]

end

/-- With one name replaced, the other names stay and those of the replacement come in. -/
theorem mem_names_substitute {e replacement : Expr α} {replaced : String} :
    name ∈ (e.substitute replaced replacement).names ↔
      (name ∈ e.names ∧ name ≠ replaced) ∨ (replaced ∈ e.names ∧ name ∈ replacement.names) := by
  rw [substitute, mem_names_substituteWith]
  constructor
  · rintro ⟨x, mem, inside⟩
    by_cases h : x = replaced
    · subst h
      rw [if_pos (beq_self_eq_true x)] at inside
      exact .inr ⟨mem, inside⟩
    · rw [if_neg (by simpa using h)] at inside
      obtain rfl := List.mem_singleton.mp inside
      exact .inl ⟨mem, h⟩
  · rintro (⟨mem, ne⟩ | ⟨mem, inside⟩)
    · refine ⟨name, mem, ?_⟩
      rw [if_neg (by simpa using ne)]
      exact List.mem_singleton_self name
    · refine ⟨replaced, mem, ?_⟩
      rwa [if_pos (beq_self_eq_true replaced)]

end

/-! ## Values -/

section

variable {α : Type} [Scalar α]

mutual

/-- Evaluation looks up the names that occur and nothing else. -/
theorem eval_congr {env env' : String → Option α} :
    ∀ e : Expr α, (∀ name ∈ e.names, env name = env' name) → e.eval env = e.eval env'
  | .num _, _ => rfl
  | .var name, h => by rw [eval, eval, h name (by simp [names])]
  | .unary .neg e, h => by rw [eval, eval, eval_congr e h]
  | .binary (.arith op) l r, h => by
      simp only [names, List.mem_append, or_imp, forall_and] at h
      rw [eval, eval, eval_congr l h.1, eval_congr r h.2]
  | .call name args, h => by rw [eval, eval, evalArgs_congr args h]
  | .bool _, _ => rfl
  | .unary .not _, _ => rfl
  | .binary (.logic _) _ _, _ => rfl
  | .binary (.compare _) _ _, _ => rfl

theorem evalArgs_congr {env env' : String → Option α} :
    ∀ es : List (Expr α), (∀ name ∈ argNames es, env name = env' name) →
      evalArgs env es = evalArgs env' es
  | [], _ => rfl
  | e :: es, h => by
      simp only [argNames, List.mem_append, or_imp, forall_and] at h
      rw [evalArgs, evalArgs, eval_congr e h.1, evalArgs_congr es h.2]

end

/-- So does the question whether a condition holds. -/
theorem holds_congr {env env' : String → Option α} :
    ∀ e : Expr α, (∀ name ∈ e.names, env name = env' name) → e.holds env = e.holds env'
  | .bool _, _ => rfl
  | .unary .not e, h => by rw [holds, holds, holds_congr e h]
  | .binary (.logic .and) l r, h => by
      simp only [names, List.mem_append, or_imp, forall_and] at h
      rw [holds, holds, holds_congr l h.1, holds_congr r h.2]
  | .binary (.logic .or) l r, h => by
      simp only [names, List.mem_append, or_imp, forall_and] at h
      rw [holds, holds, holds_congr l h.1, holds_congr r h.2]
  | .binary (.compare _) l r, h => by
      simp only [names, List.mem_append, or_imp, forall_and] at h
      rw [holds, holds, eval_congr l h.1, eval_congr r h.2]
  | .num _, _ | .var _, _ => rfl
  | .unary .neg _, _ => rfl
  | .binary (.arith _) _ _, _ => rfl
  | .call _ _, _ => rfl

/-- The assignment under which every name has the value of what stands for it. -/
def valuesOf (σ : String → Option (Expr α)) (env : String → Option α) (name : String) : Option α :=
  match σ name with
  | some replacement => (replacement.eval env).toOption
  | none => env name

section

variable {σ : String → Option (Expr α)} (env : String → Option α)

mutual

/-- After substitution, a formula has the value that it has when names take the values of their
replacements. -/
theorem eval_substituteWith : ∀ (e : Expr α) (a : α),
    (e.substituteWith σ).eval env = .ok a ↔ e.eval (valuesOf σ env) = .ok a
  | .num _, _ | .bool _, _ => Iff.rfl
  | .var name, a => by
      have read (x : String) (env : String → Option α) :
          (var x).eval env = .ok a ↔ env x = some a := by
        rw [eval]
        cases env x <;> simp
      rw [substituteWith, read, valuesOf]
      cases σ name with
      | none => exact read name env
      | some replacement => exact toOption_eq_some_iff.symm
  | .unary .neg e, a => by
      simp only [substituteWith, eval, bind_eq_ok_iff, eval_substituteWith e]
  | .binary (.arith op) l r, a => by
      simp only [substituteWith, eval, bind_eq_ok_iff, eval_substituteWith l,
        eval_substituteWith r]
  | .call name args, a => by
      rw [substituteWith, eval, eval, bind_eq_ok_iff, bind_eq_ok_iff]
      refine exists_congr fun values => and_congr (evalArgs_substituteArgs args values) ?_
      cases applyFunction name values <;> simp [throw, throwThe, MonadExceptOf.throw]
  | .unary .not _, _ => by simp [substituteWith, eval]
  | .binary (.logic _) _ _, _ => by simp [substituteWith, eval]
  | .binary (.compare _) _ _, _ => by simp [substituteWith, eval]

theorem evalArgs_substituteArgs : ∀ (es : List (Expr α)) (as : List α),
    evalArgs env (substituteArgs σ es) = .ok as ↔ evalArgs (valuesOf σ env) es = .ok as
  | [], _ => Iff.rfl
  | e :: es, as => by
      simp only [substituteArgs, evalArgs, bind_eq_ok_iff, eval_substituteWith e,
        evalArgs_substituteArgs es]

end

/-- What is no condition does not hold, nor fail to. -/
theorem isCondition_of_holds {e : Expr α} {b : Bool} (h : e.holds env = .ok b) :
    e.isCondition = true := by
  unfold holds at h
  split at h
  · rfl
  · rfl
  · rfl
  · rfl
  · rfl
  · cases h

/-- After a substitution of numbers, a condition holds where it holds when names take the values of
their replacements. A condition may not replace a name, as a name alone is no condition. -/
theorem holds_substituteWith
    (numeric : ∀ name replacement, σ name = some replacement → replacement.isCondition = false) :
    ∀ (e : Expr α) (b : Bool),
      (e.substituteWith σ).holds env = .ok b ↔ e.holds (valuesOf σ env) = .ok b
  | .bool _, _ => Iff.rfl
  | .unary .not e, b => by
      simp only [substituteWith, holds, bind_eq_ok_iff, holds_substituteWith numeric e]
  | .binary (.logic .and) l r, b => by
      simp only [substituteWith, holds, bind_eq_ok_iff, holds_substituteWith numeric l]
      refine exists_congr fun c => and_congr_right fun _ => ?_
      cases c
      · rfl
      · exact holds_substituteWith numeric r b
  | .binary (.logic .or) l r, b => by
      simp only [substituteWith, holds, bind_eq_ok_iff, holds_substituteWith numeric l]
      refine exists_congr fun c => and_congr_right fun _ => ?_
      cases c
      · exact holds_substituteWith numeric r b
      · rfl
  | .binary (.compare op) l r, b => by
      simp only [substituteWith, holds, bind_eq_ok_iff, eval_substituteWith env l,
        eval_substituteWith env r]
  | .var name, b => by
      rw [substituteWith]
      refine iff_of_false ?_ (by simp [holds])
      intro h
      have condition := isCondition_of_holds env h
      cases found : σ name with
      | none =>
          rw [found] at condition
          cases condition
      | some replacement =>
          rw [found, Option.getD_some, numeric name replacement found] at condition
          cases condition
  | .num _, _ => by simp [substituteWith, holds]
  | .unary .neg _, _ => by simp [substituteWith, holds]
  | .binary (.arith _) _ _, _ => by simp [substituteWith, holds]
  | .call _ _, _ => by simp [substituteWith, holds]

end

/-! ## Renaming -/

section

variable (env : String → Option α) (f : String → String)

theorem valuesOf_rename : valuesOf (fun name => some (.var (f name))) env = env ∘ f := by
  funext name
  simp only [valuesOf, eval, Function.comp_apply]
  cases env (f name) <;> rfl

/-- A renamed condition holds where the condition does under the renamed assignment. -/
theorem holds_rename (e : Expr α) (b : Bool) :
    (e.rename f).holds env = .ok b ↔ e.holds (env ∘ f) = .ok b := by
  rw [rename, holds_substituteWith, valuesOf_rename]
  rintro name _ ⟨⟩
  rfl

end

/-! ## One name -/

/-- The values of names when one of them is replaced. -/
theorem valuesOf_substitute {env : String → Option α} {replaced : String} {replacement : Expr α}
    {value : α} (h : replacement.eval env = .ok value) :
    valuesOf (fun other => if other == replaced then some replacement else none) env =
      Function.update env replaced (some value) := by
  funext name
  by_cases same : name = replaced
  · subst same
    simp [valuesOf, h, Except.toOption]
  · simp [valuesOf, same]

/-- With a formula in the place of a name, the value is the one for its value. -/
theorem eval_substitute {env : String → Option α} {replaced : String} {replacement : Expr α}
    {value : α} (h : replacement.eval env = .ok value) (e : Expr α) (a : α) :
    (e.substitute replaced replacement).eval env = .ok a ↔
      e.eval (Function.update env replaced (some value)) = .ok a := by
  rw [substitute, eval_substituteWith, valuesOf_substitute h]

end

end Expr

end HybridAutomata
