import HybridAutomata.Proofs.Doubles.Tubes
import HybridAutomata.Proofs.Estimation.EulerPolygon

/-!
# Orderly estimators

An estimator is orderly if it never faults and its answers have their bounds in order. A simulation
with a positive step is orderly for every model: it makes intervals around finite values only. An
interval propagation makes intervals of everything it meets. For doubles, it is orderly where the
ranges of the rates never clash over finite boxes, the start point is finite and the grid ascends.
-/

namespace HybridAutomata

open Success

theorem Model.automaton_noFault {α : Type} (m : Model α) : NoFault m.automaton := by
  rw [automaton]
  split
  · trivial
  · exact id

namespace Estimator

section

variable {α : Type} [Scalar α]

/-- An estimator answers a question without a fault, by intervals with their bounds in order. -/
def Orderly (e : Estimator α) (m : Model α) (name : String) (start : StartState α)
    (windows : List (Interval α)) : Prop :=
  Faultless (fun ranges => ∀ range ∈ ranges, range.Ordered) (e.estimate m name start windows)

/-- A script of ranges in order. -/
theorem orderly_scripted {title : String} {answer : Nat → List (Interval α)}
    (ordered : ∀ count, ∀ range ∈ answer count, range.Ordered) (m : Model α) (name : String)
    (start : StartState α) (windows : List (Interval α)) :
    (scripted title answer).Orderly m name start windows :=
  ordered windows.length

theorem orderly_unavailable {reason : String} (m : Model α) (name : String) (start : StartState α)
    (windows : List (Interval α)) : (unavailable reason).Orderly m name start windows :=
  id

variable {m : Model α} {name : String} {start : StartState α} {windows : List (Interval α)}
  {step : α}

/-! ## Steps that all estimators share -/

theorem checkWindows_noFault (windows : List (Interval α)) : NoFault (checkWindows windows) := by
  rw [checkWindows]
  split
  · exact id
  · trivial

omit [Scalar α] in
theorem setting_noFault (m : Model α) (name : String) (start : StartState α) :
    NoFault (setting m name start) := by
  refine m.automaton_noFault.bind fun a _ _ => ?_
  have field : NoFault (VectorField.ofMode a start.mode) := by
    rw [VectorField.ofMode]
    split
    · exact id
    · split
      · exact id
      · trivial
  refine field.bind fun f _ _ => ?_
  split
  · trivial
  · exact id

theorem windowGrid_noFault (positive : 0 < step) : NoFault (windowGrid windows step) :=
  .of_exists ⟨_, timeGrid_eq_ok_iff.mpr ⟨positive, rfl⟩, trivial⟩

/-! ## Simulation -/

theorem observe_noFault (f : VectorField α) (rate : Expr α) (name : String) (s : Sample α) :
    NoFault (observe f rate name s) := by
  refine (Faultless.liftEval (P := fun _ => True) fun _ _ => trivial).bind fun value _ _ => ?_
  split
  · trivial
  · exact id

theorem trajectory_noFault (f : VectorField α) (start grid : List α) :
    NoFault (reportFailure (f.trajectory start grid).failure) := by
  cases broken : (f.trajectory start grid).failure with
  | none => trivial
  | some failure =>
      obtain ⟨_, rfl⟩ | ⟨_, rfl⟩ | rfl := VectorField.failure_of_trajectory broken
      all_goals exact id

variable [LawfulComparisons α]

theorem observedRange_faultless {f : VectorField α} {rate : Expr α} {samples : List (Sample α)}
    {observed : List (α × α)} (h : samples.mapM (observe f rate name) = .ok observed)
    (w : Interval α) : Faultless Interval.Ordered (observedRange observed w) := by
  by_cases none : (observed.filter fun o => w.contains o.1).map Prod.snd = []
  · rw [observedRange, none]
    exact id
  · obtain ⟨range, enclosing, encloses⟩ := exists_enclosing_observed h none
    exact .of_exists ⟨range, observedRange_eq_ok_iff.mpr enclosing,
      encloses.least.2 encloses.greatest.1⟩

theorem orderly_simulation (positive : 0 < step) (m : Model α) (name : String)
    (start : StartState α) (windows : List (Interval α)) :
    (simulation step).Orderly m name start windows := by
  rw [Orderly, simulation]
  refine (checkWindows_noFault windows).bind fun _ _ _ => ?_
  refine (setting_noFault m name start).bind ?_
  rintro ⟨f, rate⟩ _ _
  dsimp only
  split
  · exact List.forall_mem_nil _
  refine (windowGrid_noFault positive).lift.bind fun grid _ _ => ?_
  refine (Faultless.mapM fun s _ => observe_noFault f rate name s).bind fun observed made _ => ?_
  refine (trajectory_noFault f start.point grid).bind fun _ _ _ => ?_
  exact .forall_mapM fun w _ => observedRange_faultless made w

end

end Estimator

/-! ## Interval propagation -/

namespace Estimator

theorem rangeOver_faultless {f : VectorField Float} {rate : Expr Float} (h : f.Calm)
    (formula : ∀ env, f.scope.Ranges env → ¬rate.Clashes env) {s : Segment Float}
    (finite : FiniteBox s.box) :
    Faultless (fun pair => pair.2.Ordered) (rangeOver f rate s) :=
  (h.range finite formula).bind fun _ _ ordered => ordered

theorem metRange_faultless {α : Type} [Scalar α] [LawfulComparisons α]
    {met : List (Interval α × Interval α)} (ordered : ∀ pair ∈ met, pair.2.Ordered)
    (w : Interval α) : Faultless Interval.Ordered (metRange met w) := by
  rw [metRange]
  split
  · next hull =>
      cases kept : (met.filter fun r => r.1.meets w).map Prod.snd with
      | nil =>
          rw [kept] at hull
          cases hull
      | cons first rest =>
          rw [kept] at hull
          have mem : first ∈ (met.filter fun r => r.1.meets w).map Prod.snd :=
            kept ▸ List.mem_cons_self
          obtain ⟨pair, given, same⟩ := List.mem_map.mp mem
          have inOrder := ordered pair (List.mem_of_mem_filter given)
          exact Option.some.inj hull ▸ (same ▸ inOrder).foldl_hull rest
  · exact id

/-- An interval propagation of doubles with a positive step is orderly where the ranges of the rates
never clash, the start point is finite and the grid ascends. -/
theorem orderly_intervalPropagation {step : Float} (positive : 0 < step) {m : Model Float}
    {name : String} {start : StartState Float}
    (calm : ∀ f rate, setting m name start = .ok (f, rate) → f.Calm)
    (finite : ∀ x ∈ start.point, Scalar.isFinite x = true) {windows : List (Interval Float)}
    (ascends : ∀ grid, windowGrid windows step = .ok grid → VectorField.Ascends grid) :
    (intervalPropagation step).Orderly m name start windows := by
  rw [Orderly, intervalPropagation]
  refine (checkWindows_noFault windows).bind fun _ accepted _ => ?_
  refine (setting_noFault m name start).bind ?_
  rintro ⟨f, rate⟩ set _
  have h := calm f rate set
  obtain ⟨_, _, _, rated⟩ := setting_eq_ok_iff.mp set
  have starts : NoFault (f.checkStart start.point) := by
    rw [VectorField.checkStart]
    split
    · trivial
    · exact id
  refine starts.bind fun _ _ _ => ?_
  split
  · exact List.forall_mem_nil _
  refine (windowGrid_noFault positive).lift.bind fun grid made _ => ?_
  have made := liftFault_eq_ok_iff.mp made
  obtain ⟨_, rfl⟩ := timeGrid_eq_ok_iff.mp made
  refine (h.tube start.mode finite (ascends _ made)).lift.bind ?_
  rintro tube _ ⟨unbroken, segments⟩
  have ranges := Faultless.forall_mapM fun s mem =>
    rangeOver_faultless h (h.rates name rate rated) (segments s mem)
  refine ranges.liftRange.bind fun met _ ordered => ?_
  refine unbroken.bind fun _ _ _ => ?_
  exact .forall_mapM fun w _ => metRange_faultless ordered w

end Estimator

end HybridAutomata
