import HybridAutomata.Dynamics.Trajectory
import HybridAutomata.Proofs.Automaton.Coordinates
import HybridAutomata.Proofs.Expr.Lookups

/-!
# Rates and their names

A field of an automaton that keeps the rules looks up nothing that a state does not have, at a state
and at all states that an integration step visits on its way: each of them has a coordinate for
every variable again.
-/

namespace HybridAutomata

open Success

variable {α : Type}

namespace VectorField

/-! ## Fields of modes -/

/-- Modes in which time passes have a field, and it is made of their rates. -/
theorem ofMode_eq_ok_iff {a : Automaton α} {name : String} {f : VectorField α} :
    ofMode a name = .ok f ↔
      ∃ mode flow, a.mode? name = some mode ∧ mode.flow = some flow ∧ ⟨a.toScope, flow⟩ = f := by
  rw [ofMode]
  cases a.mode? name with
  | none => simp
  | some mode => cases flow : mode.flow <;> simp [flow]

/-- The rates belong to variables and mention declared names. -/
def WellFormed (f : VectorField α) : Prop := ∀ entry ∈ f.flow.entries, f.scope.Assigns entry

theorem wellFormed_ofMode {a : Automaton α} (h : a.WellFormed) {name : String} {f : VectorField α}
    (field : ofMode a name = .ok f) : f.WellFormed := by
  obtain ⟨mode, flow, found, flows, rfl⟩ := ofMode_eq_ok_iff.mp field
  intro entry mem
  have stored : mode ∈ a.modes.values :=
    List.mem_map_of_mem (NameMap.find?_eq_some_iff.mp found)
  have given : entry ∈ mode.flows := by
    rw [Mode.flows, flows]
    exact mem
  exact (h.modes mode stored).flows entry given

theorem WellFormed.assigns {f : VectorField α} (h : f.WellFormed) {name : String} {e : Expr α}
    (rate : f.rate? name = some e) : name ∈ f.vars ∧ f.scope.Closes e := by
  obtain ⟨value, found, rfl⟩ := Option.map_eq_some_iff.mp rate
  have assigns := h _ (NameMap.find?_eq_some_iff.mp found)
  exact ⟨assigns.target, assigns.value⟩

variable [Scalar α] {f : VectorField α} {e : Expr α} {state : List α}

/-! ## Dimensions -/

theorem length_derivative {rates : List α} (h : f.derivative state = .ok rates) :
    rates.length = f.dimension :=
  length_of_mapM h

theorem length_moved {rates : List α} (length : state.length = f.dimension)
    (rated : rates.length = f.dimension) (time : α) :
    (moved state rates time).length = f.dimension := by
  rw [moved, List.length_zipWith, length, rated, Nat.min_self]

/-- The weighted means, as an application to one list of samples after the other. -/
theorem weightedAll_eq_zipWith (step : α) : ∀ xs ks₁ ks₂ ks₃ ks₄ : List α,
    weightedAll step xs ks₁ ks₂ ks₃ ks₄ =
      List.zipWith (· ·) (List.zipWith (· ·) (List.zipWith (· ·)
        (List.zipWith (weighted step) xs ks₁) ks₂) ks₃) ks₄
  | x :: xs, k₁ :: ks₁, k₂ :: ks₂, k₃ :: ks₃, k₄ :: ks₄ => by
      simp only [weightedAll, List.zipWith_cons_cons, weightedAll_eq_zipWith step xs]
  | [], _, _, _, _ | _, [], _, _, _ | _, _, [], _, _ | _, _, _, [], _ | _, _, _, _, [] => by
      simp [weightedAll]

theorem length_weightedAll {n : Nat} {step : α} {xs ks₁ ks₂ ks₃ ks₄ : List α} (h : xs.length = n)
    (h₁ : ks₁.length = n) (h₂ : ks₂.length = n) (h₃ : ks₃.length = n) (h₄ : ks₄.length = n) :
    (weightedAll step xs ks₁ ks₂ ks₃ ks₄).length = n := by
  simp only [weightedAll_eq_zipWith, List.length_zipWith, h, h₁, h₂, h₃, h₄, Nat.min_self]

/-- After a step there is a coordinate per variable again. -/
theorem length_advance {state' : List α} {step : α} (length : state.length = f.dimension)
    (made : f.advance state step = .ok state') : state'.length = f.dimension := by
  simp only [advance, bind_eq_ok_iff, pure_eq_ok_iff] at made
  obtain ⟨k₁, first, k₂, second, k₃, third, k₄, fourth, rfl⟩ := made
  exact length_weightedAll length (length_derivative first) (length_derivative second)
    (length_derivative third) (length_derivative fourth)

/-! ## Names that are found -/

theorem resolves_eval (closed : f.scope.Closes e) (length : state.length = f.dimension) :
    Resolves (f.eval e state) :=
  Expr.resolves_eval fun name mem => Scope.valuation_ne_none (closed name mem) length

theorem resolves_range {box : List (Interval α)} (closed : f.scope.Closes e)
    (length : box.length = f.dimension) : RangeResolves (f.range e box) :=
  Expr.resolves_range fun name mem => Scope.ranging_ne_none (closed name mem) length

theorem WellFormed.resolves_derivative (h : f.WellFormed) (length : state.length = f.dimension) :
    Resolves (f.derivative state) := by
  intro missing fails
  obtain ⟨name, _, fails⟩ := exists_of_mapM_eq_error fails
  cases rate : f.rate? name with
  | none => simp [rate] at fails
  | some e =>
      simp only [rate] at fails
      exact resolves_eval (h.assigns rate).2 length missing fails

theorem WellFormed.resolves_derivativeRange (h : f.WellFormed) {box : List (Interval α)}
    (length : box.length = f.dimension) : RangeResolves (f.derivativeRange box) := by
  intro missing fails
  obtain ⟨name, _, fails⟩ := exists_of_mapM_eq_error fails
  cases rate : f.rate? name with
  | none => simp [rate] at fails
  | some e =>
      simp only [rate] at fails
      exact resolves_range (h.assigns rate).2 length missing fails

/-- Also the states in which a step samples the rates have a coordinate per variable. -/
theorem WellFormed.resolves_advance (h : f.WellFormed) (length : state.length = f.dimension)
    (step : α) : Resolves (f.advance state step) := by
  intro missing fails
  simp only [advance, bind_eq_error_iff] at fails
  obtain fails | ⟨k₁, first, fails | ⟨k₂, second, fails | ⟨k₃, third, fails | ⟨_, _, ⟨⟩⟩⟩⟩⟩ := fails
  · exact h.resolves_derivative length missing fails
  · exact h.resolves_derivative (length_moved length (length_derivative first) _) missing fails
  · exact h.resolves_derivative (length_moved length (length_derivative second) _) missing fails
  · exact h.resolves_derivative (length_moved length (length_derivative third) _) missing fails

end VectorField

end HybridAutomata
