import HybridAutomata.Proofs.Continuization.EventTriggered
import HybridAutomata.Proofs.Estimation.Observer
import HybridAutomata.Proofs.Estimation.Orderly

/-!
# Reliable estimators

A continuization asks its estimator about the modes that give way to windows, with the clock in
place and, for values, with an observer. A reliable estimator answers these questions without a
fault and by ranges with their bounds in order; joining the answers keeps that. Most estimators are
reliable for every model. An interval propagation of doubles has to range over the rates, so it is
reliable for those models in which that can be done.
-/

namespace HybridAutomata

open Success

section

variable {α : Type} [Scalar α]

/-! ## Start points -/

theorem Limits.range_noFault (limits : Limits α) (region : Expr α) (name : String) :
    NoFault (limits.range region name) := by
  rw [Limits.range]
  split
  · split
    · trivial
    · exact id
  · trivial
  · exact id

theorem Model.regionPoints_noFault (s : Scope α) (blowup : Bool) (region : Expr α) :
    NoFault (regionPoints s blowup region) := by
  have box : NoFault (s.regionBox region) :=
    (Faultless.forall_mapM (P := fun _ => True) fun name _ =>
      Limits.range_noFault _ region name).mono fun _ _ _ => trivial
  exact box.bind fun _ _ _ => trivial

theorem Model.startPoints_noFault (m : Model α) (a : Automaton α) (mode : String)
    (blowup : Bool) : NoFault (m.startPoints a mode blowup) := by
  rw [startPoints]
  split
  · exact regionPoints_noFault a.toScope blowup _
  · split
    · refine (regionPoints_noFault a.toScope blowup _).bind fun _ _ _ => ?_
      exact .liftEval fun _ _ => trivial
    · exact id

theorem Continuization.starts_noFault (c : Continuization α) (m : Model α) (a : Automaton α)
    (modes : List String) : NoFault (c.starts m a modes) := by
  refine (Faultless.forall_mapM (P := fun _ => True) fun mode _ => ?_).bind fun _ _ _ => trivial
  exact (m.startPoints_noFault a mode c.blowup).bind fun _ _ _ => trivial

/-! ## Joined ranges -/

namespace Continuization

/-- The ranges that were found have their bounds in order. -/
def OrderedRanges (found : NameMap (List (Interval α))) : Prop :=
  ∀ mode ranges, found.find? mode = some ranges → ∀ range ∈ ranges, range.Ordered

theorem ordered_zipWith_hull [LawfulComparisons α] (known ranges : List (Interval α))
    (h : ∀ i ∈ known, i.Ordered) (_ : ∀ i ∈ ranges, i.Ordered) :
    ∀ i ∈ List.zipWith Interval.hull known ranges, i.Ordered := by
  intro i mem
  obtain ⟨index, found⟩ := List.mem_iff_getElem?.mp mem
  obtain ⟨earlier, answer, given, _, rfl⟩ := List.getElem?_zipWith_eq_some.mp found
  exact (h earlier (List.mem_of_getElem? given)).hull

/-- If the answers are orderly, then so are the ranges joined from them. -/
theorem modeRanges_faultless [LawfulComparisons α] {c : Continuization α} {ctx : Context α}
    {m : Model α} {a : Automaton α} {modes : List String}
    (answers : Faultless (fun starts => Faultless
        (fun answers => ∀ ranges ∈ answers, ∀ range ∈ ranges, range.Ordered)
        (c.estimateAll ctx m a starts)) (c.starts m a modes)) :
    Faultless OrderedRanges (c.modeRanges ctx m a modes) := by
  refine answers.bind fun starts _ answered => ?_
  refine answered.bind fun answers _ ordered => ?_
  have counted : NoFault (answers.forM (checkCount ctx c.windows.length)) := by
    refine .forM fun ranges _ => ?_
    rw [checkCount]
    split
    · trivial
    · exact id
  refine counted.bind fun _ _ _ => ?_
  refine forall_foldl_joinRanges (P := fun ranges => ∀ range ∈ ranges, range.Ordered)
    ordered_zipWith_hull (fun pair mem => ordered pair.2 (List.of_mem_zip mem).2) ?_
  intro name known found
  cases found

end Continuization

end

/-! ## Fields with a clock -/

theorem Expr.not_clashes_one (env : String → Option (Interval Float)) :
    ¬(Expr.num 1 : Expr Float).Clashes env := by
  rintro ⟨undefined⟩
  exact absurd undefined (by decide)

theorem VectorField.Calm.withObserver {f : VectorField Float} (h : f.Calm)
    (observer sampled : String) : (f.withObserver observer sampled).Calm where
  constants := h.constants
  rates name e rate env ranges := by
    rw [rate?_withObserver] at rate
    split at rate
    · cases rate
      nofun
    · exact h.rates name e rate env ranges

namespace Continuization

variable {c : Continuization Float} {m : Model Float} {a : Automaton Float} {step : Float}

/-- An interval propagation can range over the continuized modes: constants have their bounds in
order, the ranges of the rates never clash over finite boxes, the start points are finite, and the
grid ascends. -/
structure CanRange (c : Continuization Float) (m : Model Float) (a : Automaton Float)
    (step : Float) : Prop where
  constants : ∀ name i, a.constants.find? name = some i → i.Ordered
  rates : ∀ name mode, a.mode? name = some mode → a.continuizes c.sampled name = true →
    ∀ y rate, mode.flowOf? y = some rate →
      ∀ env, a.toScope.Ranges env → ¬rate.expr.Clashes env
  starts : ∀ pass source, c.clockSource a pass = .ok source →
    ∀ name, a.continuizes c.sampled name = true → ∀ points,
      (m.withClock a source).startPoints (a.withClock source) name c.blowup = .ok points →
        ∀ point ∈ points, ∀ x ∈ point, Scalar.isFinite x = true
  grid : ∀ grid, Estimator.windowGrid c.windows step = .ok grid → VectorField.Ascends grid

/-- The estimators with which a continuization finds its ranges without a fault: any that is always
orderly, the one that is switched off, simulations, and interval propagations that can range over
the modes. -/
inductive Reliable (c : Continuization Float) (m : Model Float) (a : Automaton Float) :
    Estimator Float → Prop
  | answering {e : Estimator Float}
      (orderly : ∀ m name start windows, e.Orderly m name start windows) : Reliable c m a e
  | unavailable (reason : String) : Reliable c m a (.unavailable reason)
  | simulation {step : Float} (positive : 0 < step) : Reliable c m a (.simulation step)
  | intervalPropagation {step : Float} (positive : 0 < step) (canRange : c.CanRange m a step) :
      Reliable c m a (.intervalPropagation step)

/-- A continuized mode with the clock in place has a field that can be ranged over. -/
theorem CanRange.exists_field (h : c.CanRange m a step) (source : ClockSource) {name : String}
    (continuized : a.continuizes c.sampled name = true) :
    ∃ f, VectorField.ofMode (a.withClock source) name = .ok f ∧ f.Calm := by
  obtain ⟨mode, found, _, rated⟩ := Automaton.continuizes_iff.mp continuized
  have clocked : (a.withClock source).mode? name = some (mode.withClock source) := by
    rw [Automaton.mode?_withClock, found, Option.map_some]
  have flows : (mode.withClock source).hasFlow = true := by
    rw [Mode.withClock_hasFlow]
    cases flow : mode.flow with
    | none => simp [Mode.flowOf?, flow] at rated
    | some _ => rw [Mode.hasFlow, flow]; rfl
  have constants : (a.withClock source).constants = a.constants := by cases source <;> rfl
  obtain ⟨flow, hflow⟩ := Option.isSome_iff_exists.mp flows
  refine ⟨_, VectorField.ofMode_eq_ok_iff.mpr ⟨_, flow, clocked, hflow, rfl⟩, ?_, ?_⟩
  · exact constants ▸ h.constants
  · intro y e rate env ranges
    obtain ⟨value, given, rfl⟩ := Option.map_eq_some_iff.mp rate
    have entry : (mode.withClock source).flowOf? y = some value := by
      rw [Mode.flowOf?, hflow]
      exact given
    obtain original | rfl := Mode.flowOf?_of_withClock entry
    · refine h.rates name mode found continuized y value original env fun x i known => ?_
      exact constants ▸ ranges x i known
    · exact Expr.not_clashes_one env

namespace Reliable

/-- Reliable estimators are orderly where an interval propagation would be. -/
theorem orderly {e : Estimator Float} (h : c.Reliable m a e) {asked : Model Float} {name : String}
    {start : StartState Float}
    (field : ∀ {step}, c.CanRange m a step →
      ∀ f rate, Estimator.setting asked name start = .ok (f, rate) → f.Calm)
    (point : ∀ {step}, c.CanRange m a step → ∀ x ∈ start.point, Scalar.isFinite x = true) :
    e.Orderly asked name start c.windows := by
  cases h with
  | answering orderly => exact orderly asked name start c.windows
  | unavailable => exact Estimator.orderly_unavailable asked name start c.windows
  | simulation positive => exact Estimator.orderly_simulation positive asked name start c.windows
  | intervalPropagation positive canRange =>
      exact Estimator.orderly_intervalPropagation positive (field canRange) (point canRange)
        canRange.grid

/-- Start states in continuized modes are answered in order, for rates and for values. -/
theorem estimateAll_faultless {ctx : Context Float} (h : c.Reliable m a ctx.estimator)
    (flat : m.automaton = .ok a) (source : ClockSource) {starts : List (StartState Float)}
    (continuized : ∀ start ∈ starts, a.continuizes c.sampled start.mode = true)
    (finite : ∀ {step}, c.CanRange m a step →
      ∀ start ∈ starts, ∀ x ∈ start.point, Scalar.isFinite x = true) :
    Faultless (fun answers => ∀ ranges ∈ answers, ∀ range ∈ ranges, range.Ordered)
      (c.estimateAll ctx (m.withClock a source) (a.withClock source) starts) := by
  have clocked := Model.automaton_withClock flat source
  rw [estimateAll]
  split
  -- a rate is asked of the field of the mode, a value of the same field with an observer
  · refine .forall_mapM fun start mem => ?_
    refine h.orderly (fun canRange f rate set => ?_) fun canRange => finite canRange start mem
    obtain ⟨f', field, calm⟩ := canRange.exists_field source (continuized start mem)
    obtain ⟨a', flat', field', _⟩ := Estimator.setting_eq_ok_iff.mp set
    obtain rfl := Except.ok.inj (clocked.symm.trans flat')
    obtain rfl := Except.ok.inj (field.symm.trans field')
    exact calm
  · refine .forall_mapM fun start mem => ?_
    refine h.orderly (fun canRange f rate set => ?_) fun canRange => ?_
    · obtain ⟨f', field, calm⟩ := canRange.exists_field source (continuized start mem)
      have observed := Estimator.setting_withObserver (m.withClock a source) c.sampled
        (start.point ++ [0]) field
      obtain ⟨rfl, _⟩ := Prod.mk.inj (Except.ok.inj (observed.symm.trans set))
      exact calm.withObserver _ c.sampled
    · refine List.forall_mem_append.mpr ⟨finite canRange start mem, ?_⟩
      exact List.forall_mem_singleton.mpr (by decide)

/-- A reliable estimator leads to ranges in order. -/
theorem modeRanges_faultless {ctx : Context Float} (h : c.Reliable m a ctx.estimator)
    (flat : m.automaton = .ok a) {pass : String} {source : ClockSource}
    (hsource : c.clockSource a pass = .ok source) {modes : List String}
    (continuized : ∀ name ∈ modes, a.continuizes c.sampled name = true) :
    Faultless OrderedRanges
      (c.modeRanges ctx (m.withClock a source) (a.withClock source) modes) := by
  apply Continuization.modeRanges_faultless
  refine (c.starts_noFault (m.withClock a source) _ modes).mono fun starts found _ => ?_
  have asked (start) (mem : start ∈ starts) : a.continuizes c.sampled start.mode = true :=
    continuized _ ((mem_starts found).mp mem).1
  refine h.estimateAll_faultless flat source asked fun canRange start mem => ?_
  obtain ⟨_, points, made, listed⟩ := (mem_starts found).mp mem
  exact canRange.starts pass source hsource start.mode (asked start mem) points made start.point
    listed

end Reliable

end Continuization

end HybridAutomata
