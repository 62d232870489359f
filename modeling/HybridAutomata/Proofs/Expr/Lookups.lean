import HybridAutomata.Expr.Range
import HybridAutomata.Proofs.Success

/-!
# Names that are looked up in vain

A formula fails for lack of a name only at a name that it mentions and that the assignment does not
know. Evaluation to numbers, to truth values and to ranges are three traversals of their own; each
of them stops early at times, and none looks up anything but the names of the formula.
-/

namespace HybridAutomata

open Success

variable {α β : Type}

/-- An evaluation that does not fail for lack of a name. -/
def Resolves (x : Except (EvalError α) β) : Prop := ∀ name, x ≠ .error (.unknownVariable name)

/-- The same for an evaluation over intervals. -/
def RangeResolves (x : Except (RangeError α) β) : Prop :=
  ∀ name, x ≠ .error (.undefined (.unknownVariable name))

namespace Expr

variable [Scalar α] {missing : String}

section

variable {env : String → Option α}

mutual

theorem eval_unknownVariable : ∀ e : Expr α,
    e.eval env = .error (.unknownVariable missing) → missing ∈ e.names ∧ env missing = none
  | .num _, h => by simp [eval] at h
  | .bool _, h => by simp [eval] at h
  | .var name, h => by
      rw [eval] at h
      split at h
      · cases h
      · next absent =>
          cases h
          exact ⟨List.mem_singleton_self _, absent⟩
  | .unary .neg e, h => by
      rw [eval, bind_eq_error_iff] at h
      obtain inside | ⟨_, _, ⟨⟩⟩ := h
      exact eval_unknownVariable e inside
  | .unary .not _, h => by simp [eval] at h
  | .binary (.arith op) l r, h => by
      simp only [eval, bind_eq_error_iff] at h
      rw [names, List.mem_append]
      obtain left | ⟨_, _, right | ⟨_, _, ⟨⟩⟩⟩ := h
      · exact (eval_unknownVariable l left).imp_left .inl
      · exact (eval_unknownVariable r right).imp_left .inr
  | .binary (.logic _) _ _, h => by simp [eval] at h
  | .binary (.compare _) _ _, h => by simp [eval] at h
  | .call name args, h => by
      rw [eval, bind_eq_error_iff] at h
      obtain inside | ⟨values, _, applied⟩ := h
      · exact evalArgs_unknownVariable args inside
      · cases found : applyFunction name values <;> rw [found] at applied <;> cases applied

theorem evalArgs_unknownVariable : ∀ es : List (Expr α),
    evalArgs env es = .error (.unknownVariable missing) →
      missing ∈ argNames es ∧ env missing = none
  | [], h => by cases h
  | e :: es, h => by
      simp only [evalArgs, bind_eq_error_iff] at h
      rw [argNames, List.mem_append]
      obtain first | ⟨_, _, rest | ⟨_, _, ⟨⟩⟩⟩ := h
      · exact (eval_unknownVariable e first).imp_left .inl
      · exact (evalArgs_unknownVariable es rest).imp_left .inr

end

theorem holds_unknownVariable : ∀ e : Expr α,
    e.holds env = .error (.unknownVariable missing) → missing ∈ e.names ∧ env missing = none
  | .bool _, h => by cases h
  | .unary .not e, h => by
      rw [holds, bind_eq_error_iff] at h
      obtain inside | ⟨_, _, ⟨⟩⟩ := h
      exact holds_unknownVariable e inside
  | .binary (.logic .and) l r, h => by
      rw [holds, bind_eq_error_iff] at h
      rw [names, List.mem_append]
      obtain left | ⟨b, _, right⟩ := h
      · exact (holds_unknownVariable l left).imp_left .inl
      · cases b with
        | true => exact (holds_unknownVariable r right).imp_left .inr
        | false => cases right
  | .binary (.logic .or) l r, h => by
      rw [holds, bind_eq_error_iff] at h
      rw [names, List.mem_append]
      obtain left | ⟨b, _, right⟩ := h
      · exact (holds_unknownVariable l left).imp_left .inl
      · cases b with
        | true => cases right
        | false => exact (holds_unknownVariable r right).imp_left .inr
  | .binary (.compare op) l r, h => by
      simp only [holds, bind_eq_error_iff] at h
      rw [names, List.mem_append]
      obtain left | ⟨_, _, right | ⟨_, _, ⟨⟩⟩⟩ := h
      · exact (eval_unknownVariable l left).imp_left .inl
      · exact (eval_unknownVariable r right).imp_left .inr
  | .num _, h => by simp [holds] at h
  | .var _, h => by simp [holds] at h
  | .unary .neg _, h => by simp [holds] at h
  | .binary (.arith _) _ _, h => by simp [holds] at h
  | .call _ _, h => by simp [holds] at h

end

section

variable {env : String → Option (Interval α)}

mutual

theorem range_unknownVariable : ∀ e : Expr α,
    e.range env = .error (.undefined (.unknownVariable missing)) →
      missing ∈ e.names ∧ env missing = none
  | .num _, h => absurd h liftFaultRange_ne_undefined
  | .bool _, h => by simp [range] at h
  | .var name, h => by
      rw [range] at h
      split at h
      · cases h
      · next absent =>
          cases h
          exact ⟨List.mem_singleton_self _, absent⟩
  | .unary .neg e, h => by
      rw [range, bind_eq_error_iff] at h
      obtain inside | ⟨_, _, negated⟩ := h
      · exact range_unknownVariable e inside
      · exact absurd negated liftFaultRange_ne_undefined
  | .unary .not _, h => by simp [range] at h
  | .binary (.arith op) l r, h => by
      simp only [range, bind_eq_error_iff] at h
      rw [names, List.mem_append]
      obtain left | ⟨_, _, right | ⟨_, _, applied⟩⟩ := h
      · exact (range_unknownVariable l left).imp_left .inl
      · exact (range_unknownVariable r right).imp_left .inr
      · exact absurd applied liftFaultRange_ne_undefined
  | .binary (.logic _) _ _, h => by simp [range] at h
  | .binary (.compare _) _ _, h => by simp [range] at h
  | .call name args, h => by
      simp only [range, bind_eq_error_iff] at h
      obtain inside | ⟨_, _, applied | ⟨found, _, answer⟩⟩ := h
      · exact rangeArgs_unknownVariable args inside
      · exact absurd applied liftFaultRange_ne_undefined
      · cases found <;> cases answer

theorem rangeArgs_unknownVariable : ∀ es : List (Expr α),
    rangeArgs env es = .error (.undefined (.unknownVariable missing)) →
      missing ∈ argNames es ∧ env missing = none
  | [], h => by cases h
  | e :: es, h => by
      simp only [rangeArgs, bind_eq_error_iff] at h
      rw [argNames, List.mem_append]
      obtain first | ⟨_, _, rest | ⟨_, _, ⟨⟩⟩⟩ := h
      · exact (range_unknownVariable e first).imp_left .inl
      · exact (rangeArgs_unknownVariable es rest).imp_left .inr

end

end

section

variable {env : String → Option (Interval α)}

mutual

/-- All names of a formula with a range have an interval. -/
theorem known_of_range : ∀ (e : Expr α) {i : Interval α}, e.range env = .ok i →
    ∀ name ∈ e.names, env name ≠ none
  | .num _, _, _, _, mem => by cases mem
  | .bool _, _, h, _, _ => by cases h
  | .var name, _, h, other, mem => by
      obtain rfl := List.mem_singleton.mp mem
      intro absent
      rw [range, absent] at h
      cases h
  | .unary .neg e, _, h, name, mem => by
      rw [range, bind_eq_ok_iff] at h
      obtain ⟨_, operand, _⟩ := h
      exact known_of_range e operand name mem
  | .unary .not _, _, h, _, _ => by cases h
  | .binary (.arith op) l r, _, h, name, mem => by
      simp only [range, bind_eq_ok_iff] at h
      obtain ⟨_, left, _, right, _⟩ := h
      obtain mem | mem := List.mem_append.mp mem
      · exact known_of_range l left name mem
      · exact known_of_range r right name mem
  | .binary (.logic _) _ _, _, h, _, _ => by cases h
  | .binary (.compare _) _ _, _, h, _, _ => by cases h
  | .call _ args, _, h, name, mem => by
      rw [range, bind_eq_ok_iff] at h
      obtain ⟨_, arguments, _⟩ := h
      exact known_of_rangeArgs args arguments name mem

theorem known_of_rangeArgs : ∀ (es : List (Expr α)) {is : List (Interval α)},
    rangeArgs env es = .ok is → ∀ name ∈ argNames es, env name ≠ none
  | [], _, _, _, mem => by cases mem
  | e :: es, _, h, name, mem => by
      simp only [rangeArgs, bind_eq_ok_iff] at h
      obtain ⟨_, first, _, others, _⟩ := h
      obtain mem | mem := List.mem_append.mp mem
      · exact known_of_range e first name mem
      · exact known_of_rangeArgs es others name mem

end

end

section

variable {env : String → Option α}

mutual

/-- All names of a formula with a value have one. -/
theorem known_of_eval : ∀ (e : Expr α) {a : α}, e.eval env = .ok a →
    ∀ name ∈ e.names, env name ≠ none
  | .num _, _, _, _, mem => by cases mem
  | .bool _, _, h, _, _ => by cases h
  | .var name, _, h, other, mem => by
      obtain rfl := List.mem_singleton.mp mem
      intro absent
      rw [eval, absent] at h
      cases h
  | .unary .neg e, _, h, name, mem => by
      rw [eval, bind_eq_ok_iff] at h
      obtain ⟨_, operand, _⟩ := h
      exact known_of_eval e operand name mem
  | .unary .not _, _, h, _, _ => by cases h
  | .binary (.arith op) l r, _, h, name, mem => by
      simp only [eval, bind_eq_ok_iff] at h
      obtain ⟨_, left, _, right, _⟩ := h
      obtain mem | mem := List.mem_append.mp mem
      · exact known_of_eval l left name mem
      · exact known_of_eval r right name mem
  | .binary (.logic _) _ _, _, h, _, _ => by cases h
  | .binary (.compare _) _ _, _, h, _, _ => by cases h
  | .call _ args, _, h, name, mem => by
      rw [eval, bind_eq_ok_iff] at h
      obtain ⟨_, arguments, _⟩ := h
      exact known_of_evalArgs args arguments name mem

theorem known_of_evalArgs : ∀ (es : List (Expr α)) {as : List α},
    evalArgs env es = .ok as → ∀ name ∈ argNames es, env name ≠ none
  | [], _, _, _, mem => by cases mem
  | e :: es, _, h, name, mem => by
      simp only [evalArgs, bind_eq_ok_iff] at h
      obtain ⟨_, first, _, others, _⟩ := h
      obtain mem | mem := List.mem_append.mp mem
      · exact known_of_eval e first name mem
      · exact known_of_evalArgs es others name mem

end

end

/-! ## Known names -/

variable {e : Expr α}

theorem resolves_eval {env : String → Option α} (known : ∀ name ∈ e.names, env name ≠ none) :
    Resolves (e.eval env) := fun name fails => by
  obtain ⟨mem, absent⟩ := eval_unknownVariable e fails
  exact known name mem absent

theorem resolves_holds {env : String → Option α} (known : ∀ name ∈ e.names, env name ≠ none) :
    Resolves (e.holds env) := fun name fails => by
  obtain ⟨mem, absent⟩ := holds_unknownVariable e fails
  exact known name mem absent

theorem resolves_range {env : String → Option (Interval α)}
    (known : ∀ name ∈ e.names, env name ≠ none) : RangeResolves (e.range env) :=
  fun name fails => by
    obtain ⟨mem, absent⟩ := range_unknownVariable e fails
    exact known name mem absent

end Expr

end HybridAutomata
