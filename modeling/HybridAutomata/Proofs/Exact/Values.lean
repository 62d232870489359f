import HybridAutomata.Expr.Eval
import HybridAutomata.Proofs.Exact.Fields
import HybridAutomata.Proofs.Success

/-!
# Values of formulas

The value of a formula in exact arithmetic, where it has one: no operation in it may give an
infinity or an undefined number, so that no division by zero hides behind another one. A value is
what evaluation answers, and it depends on nothing but the names that occur.
-/

namespace HybridAutomata

open Extended Success

variable {K : Type} [Field K] [LinearOrder K] [FloorRing K] [Functions K]

namespace Extended

omit [Field K] [LinearOrder K] [FloorRing K] [Functions K] in
/-- The number, unless it is infinite or undefined. -/
def number? : Extended K → Option K
  | finite x => some x
  | _ => none

omit [Field K] [LinearOrder K] [FloorRing K] [Functions K] in
@[simp] theorem number?_eq_some_iff {a : Extended K} {x : K} :
    a.number? = some x ↔ a = finite x := by
  cases a <;> simp [number?]

end Extended

namespace Expr

/-- Numbers for names, as an assignment. -/
def assign (v : String → K) (name : String) : Option (Extended K) := some (finite (v name))

omit [Field K] [LinearOrder K] [FloorRing K] [Functions K] in
theorem assign_update (v : String → K) (name : String) (x : K) :
    assign (Function.update v name x) = Function.update (assign v) name (some (finite x)) := by
  funext other
  exact Function.apply_update (fun _ x => some (finite x)) v name x other

mutual

/-- The value of a formula in which everything is defined. -/
def value? (v : String → K) : Expr (Extended K) → Option K
  | .num value => value.number?
  | .var name => some (v name)
  | .unary .neg e => do return -(← value? v e)
  | .binary (.arith op) l r => do
      let a ← value? v l
      let b ← value? v r
      (op.apply (finite a) (finite b)).number?
  | .call name args => do
      let values ← values? v args
      (← applyFunction name (values.map finite)).number?
  | _ => none

@[inherit_doc value?]
def values? (v : String → K) : List (Expr (Extended K)) → Option (List K)
  | [] => some []
  | e :: es => do return (← value? v e) :: (← values? v es)

end

attribute [local simp] value? values?

/-! ## Reading a value -/

section

variable {v : String → K} {e l r : Expr (Extended K)} {x : K}

theorem value?_neg : (neg e).value? v = some x ↔ ∃ a, e.value? v = some a ∧ x = -a := by
  simp only [value?, Option.bind_eq_bind, Option.bind_eq_some_iff, Option.pure_def,
    Option.some.injEq]
  exact exists_congr fun a => and_congr_right fun _ => eq_comm

theorem value?_arith {op : ArithOp} :
    (binary (.arith op) l r).value? v = some x ↔ ∃ a b, l.value? v = some a ∧
      r.value? v = some b ∧ op.apply (finite a) (finite b) = finite x := by
  simp [Option.bind_eq_some_iff]

theorem value?_call {name : String} {args : List (Expr (Extended K))} :
    (call name args).value? v = some x ↔ ∃ values, values? v args = some values ∧
      applyFunction name (values.map finite) = some (finite x) := by
  simp [Option.bind_eq_some_iff]

theorem values?_cons {es : List (Expr (Extended K))} {values : List K} :
    values? v (e :: es) = some values ↔
      ∃ a rest, e.value? v = some a ∧ values? v es = some rest ∧ values = a :: rest := by
  simp only [values?, Option.bind_eq_bind, Option.bind_eq_some_iff, Option.pure_def,
    Option.some.injEq, eq_comm (a := values), exists_and_left]

theorem values?_one {values : List K} :
    values? v [e] = some values ↔ ∃ a, e.value? v = some a ∧ values = [a] := by
  rw [values?_cons]
  constructor
  · rintro ⟨a, _, ha, none, rfl⟩
    cases none
    exact ⟨a, ha, rfl⟩
  · rintro ⟨a, ha, rfl⟩
    exact ⟨a, [], ha, rfl, rfl⟩

theorem values?_two {values : List K} : values? v [l, r] = some values ↔
    ∃ a b, l.value? v = some a ∧ r.value? v = some b ∧ values = [a, b] := by
  rw [values?_cons]
  constructor
  · rintro ⟨a, _, ha, hrest, rfl⟩
    obtain ⟨b, hb, rfl⟩ := values?_one.mp hrest
    exact ⟨a, b, ha, hb, rfl⟩
  · rintro ⟨a, b, ha, hb, rfl⟩
    exact ⟨a, [b], ha, values?_one.mpr ⟨b, hb, rfl⟩, rfl⟩

theorem value?_add : (add l r).value? v = some x ↔
    ∃ a b, l.value? v = some a ∧ r.value? v = some b ∧ x = a + b := by
  rw [value?_arith]
  simp [ArithOp.apply, eq_comm]

theorem value?_sub : (sub l r).value? v = some x ↔
    ∃ a b, l.value? v = some a ∧ r.value? v = some b ∧ x = a - b := by
  rw [value?_arith]
  simp [ArithOp.apply, eq_comm]

theorem value?_mul : (mul l r).value? v = some x ↔
    ∃ a b, l.value? v = some a ∧ r.value? v = some b ∧ x = a * b := by
  rw [value?_arith]
  simp [ArithOp.apply, eq_comm]

/-- A quotient has a value exactly if the divisor is not zero. -/
theorem value?_div : (div l r).value? v = some x ↔
    ∃ a b, l.value? v = some a ∧ r.value? v = some b ∧ b ≠ 0 ∧ x = a / b := by
  rw [value?_arith]
  refine exists₂_congr fun a b => and_congr_right fun _ => and_congr_right fun _ => ?_
  change finite a / finite b = finite x ↔ _
  by_cases h : b = 0
  · have quotient : finite a / finite b = towards (SignType.sign a) := if_pos h
    rw [quotient]
    cases SignType.sign a <;> simp [towards, h]
  · rw [finite_div h]
    simp [h, eq_comm]

theorem value?_abs :
    (call "abs" [e]).value? v = some x ↔ ∃ a, e.value? v = some a ∧ x = |a| := by
  have result (a : K) : applyFunction "abs" [finite a] = some (finite |a|) := rfl
  rw [value?_call]
  constructor
  · rintro ⟨values, hvalues, applied⟩
    obtain ⟨a, ha, rfl⟩ := values?_one.mp hvalues
    exact ⟨a, ha, by simpa [result, eq_comm] using applied⟩
  · rintro ⟨a, ha, rfl⟩
    exact ⟨[a], values?_one.mpr ⟨a, ha, rfl⟩, result a⟩

theorem value?_min : (call "min" [l, r]).value? v = some x ↔
    ∃ a b, l.value? v = some a ∧ r.value? v = some b ∧ x = min a b := by
  have result (a b : K) : applyFunction "min" [finite a, finite b] = some (finite (min a b)) :=
    congrArg some (lesser_finite a b)
  rw [value?_call]
  constructor
  · rintro ⟨values, hvalues, applied⟩
    obtain ⟨a, b, ha, hb, rfl⟩ := values?_two.mp hvalues
    exact ⟨a, b, ha, hb, by simpa [result, eq_comm] using applied⟩
  · rintro ⟨a, b, ha, hb, rfl⟩
    exact ⟨[a, b], values?_two.mpr ⟨a, b, ha, hb, rfl⟩, result a b⟩

theorem value?_max : (call "max" [l, r]).value? v = some x ↔
    ∃ a b, l.value? v = some a ∧ r.value? v = some b ∧ x = max a b := by
  have result (a b : K) : applyFunction "max" [finite a, finite b] = some (finite (max a b)) :=
    congrArg some (greater_finite a b)
  rw [value?_call]
  constructor
  · rintro ⟨values, hvalues, applied⟩
    obtain ⟨a, b, ha, hb, rfl⟩ := values?_two.mp hvalues
    exact ⟨a, b, ha, hb, by simpa [result, eq_comm] using applied⟩
  · rintro ⟨a, b, ha, hb, rfl⟩
    exact ⟨[a, b], values?_two.mpr ⟨a, b, ha, hb, rfl⟩, result a b⟩

theorem value?_pow_intCast [IntegerPowers K] {n : ℤ} (hr : r.value? v = some (n : K)) :
    (pow l r).value? v = some x ↔
      ∃ a, l.value? v = some a ∧ ¬(a = 0 ∧ n < 0) ∧ x = a ^ n := by
  rw [value?_arith, hr]
  simp only [Option.some.injEq, exists_and_left, exists_eq_left']
  refine exists_congr fun a => and_congr_right fun _ => ?_
  change ofOption (Functions.pow a n) = finite x ↔ _
  rw [IntegerPowers.pow_intCast]
  split
  · next undefined => simp [ofOption, undefined]
  · next defined => simp [ofOption, defined, eq_comm]

end

mutual

/-- Evaluation answers with the value. -/
theorem eval_of_value? (v : String → K) :
    ∀ (e : Expr (Extended K)) {x : K}, e.value? v = some x →
      e.eval (assign v) = .ok (finite x)
  | .num _, _, h => congrArg Except.ok (number?_eq_some_iff.mp h)
  | .var _, _, h => by
      cases h
      rfl
  | .unary .neg e, _, h => by
      obtain ⟨a, ha, rfl⟩ := value?_neg.mp h
      rw [eval, eval_of_value? v e ha]
      rfl
  | .binary (.arith op) l r, _, h => by
      obtain ⟨a, b, ha, hb, result⟩ := value?_arith.mp h
      rw [eval, eval_of_value? v l ha, eval_of_value? v r hb, ← result]
      rfl
  | .call name args, _, h => by
      obtain ⟨values, hvalues, result⟩ := value?_call.mp h
      rw [eval, evalArgs_of_values? v args hvalues]
      simp [bind, Except.bind, result, pure, Except.pure]
  | .bool _, _, h => by cases h
  | .unary .not _, _, h => by cases h
  | .binary (.logic _) _ _, _, h => by cases h
  | .binary (.compare _) _ _, _, h => by cases h

theorem evalArgs_of_values? (v : String → K) :
    ∀ (es : List (Expr (Extended K))) {xs : List K}, values? v es = some xs →
      evalArgs (assign v) es = .ok (xs.map finite)
  | [], _, h => by
      cases h
      rfl
  | e :: es, _, h => by
      simp only [values?, Option.bind_eq_bind, Option.bind_eq_some_iff, Option.pure_def,
        Option.some.injEq] at h
      obtain ⟨x, hx, xs, hxs, rfl⟩ := h
      rw [evalArgs, eval_of_value? v e hx, evalArgs_of_values? v es hxs]
      rfl

end

mutual

/-- A value depends only on the names that occur. -/
theorem value?_congr {v w : String → K} :
    ∀ e : Expr (Extended K), (∀ name ∈ e.names, v name = w name) → e.value? v = e.value? w
  | .num _, _ => rfl
  | .var name, h => congrArg some (h name (by simp [names]))
  | .unary .neg e, h => by
      rw [value?, value?, value?_congr e h]
  | .binary (.arith op) l r, h => by
      simp only [names, List.mem_append, or_imp, forall_and] at h
      rw [value?, value?, value?_congr l h.1, value?_congr r h.2]
  | .call name args, h => by
      rw [value?, value?, values?_congr args h]
  | .bool _, _ => rfl
  | .unary .not _, _ => rfl
  | .binary (.logic _) _ _, _ => rfl
  | .binary (.compare _) _ _, _ => rfl

theorem values?_congr {v w : String → K} :
    ∀ es : List (Expr (Extended K)), (∀ name ∈ argNames es, v name = w name) →
      values? v es = values? w es
  | [], _ => rfl
  | e :: es, h => by
      simp only [argNames, List.mem_append, or_imp, forall_and] at h
      rw [values?, values?, value?_congr e h.1, values?_congr es h.2]

end

/-- Changing a name that does not occur changes nothing. -/
theorem value?_update {e : Expr (Extended K)} {name : String} (h : e.mentions name = false)
    (v : String → K) (x : K) : e.value? (Function.update v name x) = e.value? v := by
  refine value?_congr e fun other mem => Function.update_of_ne ?_ _ _
  rintro rfl
  rw [(mentions_iff other e).mpr mem] at h
  cases h

end Expr

end HybridAutomata
