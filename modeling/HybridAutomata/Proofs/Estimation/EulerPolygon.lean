import HybridAutomata.Proofs.Estimation.Simulation
import HybridAutomata.Proofs.Exact.Boxes
import HybridAutomata.Proofs.Exact.Grids

/-!
# Interval propagation encloses the polygon of Euler

The polygon of Euler starts in the start state and goes on, from each time of a grid to the next
one, with the rates that it has at the earlier one. In exact arithmetic the boxes of a tube hold it,
at the times of the grid and between them. The induction is on the grid: the box at a time holds the
polygon, so the rough box around it does, so the rates over the rough box hold the rates of the
polygon, and so the box of the span and the box at its end hold the polygon again.

A time of a window lies in a span that meets the window. Hence the answer for the window holds the
value that a rate has on the polygon at that time.
-/

namespace HybridAutomata

open Extended Success

variable {K : Type} [Field K] [LinearOrder K] [FloorRing K] [Functions K]

/-! ## The polygon -/

/-- A segment is around a state at a time. -/
structure Segment.Covers (s : Segment (Extended K)) (t : K) (x : List K) : Prop where
  span : s.span.Holds t
  box : BoxHolds s.box x

namespace VectorField

/-- The state at the time `t` of the polygon that goes on from a state at a time along later times.
There is none if a rate is undefined at a time of the grid before `t`, or if the grid ends. -/
def polygon (f : VectorField (Extended K)) (constants : String → K) (t time : K) (x : List K) :
    List K → Option (List K)
  | [] => if t = time then some x else none
  | stop :: stops => do
      let rates ← f.ratesAt? constants x
      if t ≤ stop then return carriedState x rates (t - time)
      else polygon f constants t stop (carriedState x rates (stop - time)) stops

section

variable {f : VectorField (Extended K)} {constants : String → K} {mode : String}
  {box box' ranges : List (Interval (Extended K))} {x y rates : List K} {time stop t : K}
  {s : Segment (Extended K)} {reached : List (Segment (Extended K))} {stops : List K}

/-- A segment that is made goes forward, and its rates are those over a rough box. -/
theorem segment_eq_ok {start stop : Extended K}
    (made : f.segment mode box start stop = .ok (s, ranges)) :
    ∃ elapsed, Interval.make 0 (stop - start) = .ok elapsed ∧
      f.ratesDuring elapsed box = .ok ranges ∧ carried elapsed box ranges = .ok s.box ∧
      Interval.make start stop = .ok s.span := by
  simp only [segment, bind_eq_ok_iff, liftFault_eq_ok_iff] at made
  obtain ⟨elapsed, forward, ranges', rated, enclosure, carries, made⟩ := made
  split at made
  · simp only [bind_eq_ok_iff, liftFault_eq_ok_iff, pure_eq_ok_iff] at made
    obtain ⟨span, spans, same⟩ := made
    obtain ⟨rfl, rfl⟩ := Prod.mk.inj same
    exact ⟨elapsed, forward, rated, carries, spans⟩
  · cases made

variable [IsStrictOrderedRing K] [IntegerPowers K]

/-- The ranges of the rates during a span hold the rates at its start. -/
theorem ratesDuring_holds (admits : f.scope.Admits constants)
    (arithmetic : ∀ name e, f.rate? name = some e → f.IsArithmetic constants e)
    {elapsed : Interval (Extended K)} (now : elapsed.Holds 0) (hx : BoxHolds box x)
    (length : x.length = f.dimension) (made : f.ratesDuring elapsed box = .ok ranges)
    (defined : f.ratesAt? constants x = some rates) : BoxHolds ranges rates := by
  simp only [ratesDuring, bind_eq_ok_iff, liftFault_eq_ok_iff, liftRange_eq_ok_iff] at made
  obtain ⟨first, firstMade, rough, roughMade, made⟩ := made
  have hfirst := derivativeRange_holds admits arithmetic hx firstMade defined
  have enough : x.length ≤ rates.length := by
    rw [length, length_ratesAt defined]
  obtain ⟨rough', roughMade', hrough⟩ := exists_rough now hx hfirst enough
  obtain rfl := Except.ok.inj (roughMade.symm.trans roughMade')
  exact derivativeRange_holds admits arithmetic hrough made defined

/-- One span: the segment covers the polygon from the start of the span to its end, and the ranges
of the rates hold those of the polygon. -/
theorem segment_covers (admits : f.scope.Admits constants)
    (arithmetic : ∀ name e, f.rate? name = some e → f.IsArithmetic constants e)
    (hx : BoxHolds box x) (length : x.length = f.dimension)
    (defined : f.ratesAt? constants x = some rates)
    (made : f.segment mode box (finite time) (finite stop) = .ok (s, ranges)) :
    time ≤ stop ∧ BoxHolds ranges rates ∧
      ∀ t, time ≤ t → t ≤ stop → s.Covers t (carriedState x rates (t - time)) := by
  obtain ⟨elapsed, forward, rated, carries, spans⟩ := segment_eq_ok made
  rw [finite_sub, zero_eq, Interval.make_eq_ok_iff] at forward
  obtain ⟨ahead, rfl⟩ := forward
  obtain ⟨_, span⟩ := Interval.make_eq_ok_iff.mp spans
  have ordered : time ≤ stop := sub_nonneg.mp ahead
  have now : Interval.Holds ⟨finite 0, finite (stop - time)⟩ (0 : K) :=
    ⟨finite_le_finite.mpr le_rfl, ahead⟩
  have hr := ratesDuring_holds admits arithmetic now hx length rated defined
  refine ⟨ordered, hr, ?_⟩
  intro t begun before
  have during : Interval.Holds ⟨finite 0, finite (stop - time)⟩ (t - time) :=
    ⟨sub_nonneg.mpr begun, sub_le_sub_right before time⟩
  constructor
  · rw [span]
    exact ⟨finite_le_finite.mpr begun, finite_le_finite.mpr before⟩
  · exact carried_holds carries during hx hr

end

/-- What is reached stays reached. -/
theorem mem_followBox {α : Type} [Scalar α] {f : VectorField α} {mode : String} {s : Segment α}
    {reached : List (Segment α)} (mem : s ∈ reached) (box : List (Interval α)) (time : α)
    (stops : List α) : s ∈ (f.followBox mode reached box time stops).segments := by
  induction stops generalizing reached box time with
  | nil => exact List.mem_reverse.mpr mem
  | cons stop stops ih =>
      rw [followBox]
      split
      · exact List.mem_reverse.mpr mem
      · split
        · exact List.mem_reverse.mpr (.tail _ mem)
        · exact ih (.tail _ mem) _ _

section

variable [IsStrictOrderedRing K] [IntegerPowers K] {f : VectorField (Extended K)}
  {constants : String → K} {mode : String} {box : List (Interval (Extended K))} {x y : List K}
  {time t : K} {reached : List (Segment (Extended K))} {stops : List K}

/-- A tube that does not break off covers the polygon. The segment that was reached last covers the
latest state, which is where the polygon goes on. -/
theorem exists_segment_of_polygon (admits : f.scope.Admits constants)
    (arithmetic : ∀ name e, f.rate? name = some e → f.IsArithmetic constants e)
    (unbroken : (f.followBox mode reached box (finite time) (stops.map finite)).failure = none)
    (hx : BoxHolds box x) (length : x.length = f.dimension)
    (latest : ∃ s ∈ reached, s.Covers time x) (begun : time ≤ t)
    (state : f.polygon constants t time x stops = some y) :
    ∃ s ∈ (f.followBox mode reached box (finite time) (stops.map finite)).segments,
      s.Covers t y := by
  induction stops generalizing reached box time x with
  | nil =>
      rw [polygon] at state
      split at state
      · next same =>
          obtain rfl := Option.some.inj state
          obtain ⟨s, mem, covers⟩ := latest
          exact ⟨s, mem_followBox mem _ _ _, same ▸ covers⟩
      · cases state
  | cons stop stops ih =>
      rw [polygon, Option.bind_eq_bind, Option.bind_eq_some_iff] at state
      obtain ⟨rates, defined, state⟩ := state
      rw [List.map_cons, followBox] at unbroken ⊢
      split at unbroken
      · cases unbroken
      next s ranges made =>
      split at unbroken
      · cases unbroken
      next box' after =>
      obtain ⟨ordered, hr, covers⟩ := segment_covers admits arithmetic hx length defined made
      split at state
      · next before =>
          obtain rfl := Option.some.inj state
          exact ⟨s, mem_followBox (.head _) _ _ _, covers t begun before⟩
      · next beyond =>
          rw [boxAfter, finite_sub, Interval.point_finite] at after
          have hx' : BoxHolds box' (carriedState x rates (stop - time)) :=
            carried_holds after (Interval.holds_point.mpr rfl) hx hr
          have same : x.length = rates.length := by
            rw [length, length_ratesAt defined]
          refine ih unbroken hx' ?_ ⟨s, .head _, covers stop ordered le_rfl⟩
            (le_of_not_ge beyond) state
          rw [length_carriedState same, length]

omit [IsStrictOrderedRing K] [IntegerPowers K] in
/-- A tube begins with the start state, in a box of points. -/
theorem exists_followBox_of_tube {start : List K} {tube : Tube (Extended K)}
    (made : f.tube mode (start.map finite) ((0 :: stops).map finite) = .ok tube) :
    ∃ s box, s.Covers 0 start ∧ BoxHolds box start ∧
      tube = f.followBox mode [s] box (finite 0) (stops.map finite) := by
  simp only [VectorField.tube, bind_eq_ok_iff, pure_eq_ok_iff] at made
  obtain ⟨box, points, origin, atZero, rfl⟩ := made
  rw [zero_eq, Interval.point_finite] at atZero
  obtain rfl := Except.ok.inj atZero
  have hx : BoxHolds box start := by
    have pairs := List.forall₂_map_left_iff.mp (mapM_eq_ok_iff.mp points)
    refine (pairs.imp fun x i made => ?_).flip
    rw [Interval.point_finite] at made
    obtain rfl := Except.ok.inj made
    exact Interval.holds_point.mpr rfl
  exact ⟨_, box, ⟨Interval.holds_point.mpr rfl, hx⟩, hx, rfl⟩

end

end VectorField

/-! ## The answers -/

namespace Estimator

section

variable {α : Type} [Scalar α] {m : Model α} {name : String} {start : StartState α}
  {windows ranges : List (Interval α)} {step : α} {f : VectorField α} {rate : Expr α}

theorem exists_setting_of_intervalPropagation
    (estimated : (intervalPropagation step).estimate m name start windows = .ok ranges) :
    ∃ f rate, setting m name start = .ok (f, rate) := by
  simp only [intervalPropagation, bind_eq_ok_iff] at estimated
  obtain ⟨_, _, ⟨f, rate⟩, set, _⟩ := estimated
  exact ⟨f, rate, set⟩

/-- Without windows there is no answer. -/
theorem intervalPropagation_nil
    (estimated : (intervalPropagation step).estimate m name start [] = .ok ranges) :
    ranges = [] := by
  simp only [intervalPropagation, bind_eq_ok_iff, List.isEmpty_nil, if_pos] at estimated
  obtain ⟨_, _, _, _, _, _, same⟩ := estimated
  exact (pure_eq_ok_iff.mp same).symm

/-- An interval propagation that answers went through its steps, and the tube does not break off. -/
theorem intervalPropagation_eq_ok_iff (nonempty : windows ≠ []) :
    (intervalPropagation step).estimate m name start windows = .ok ranges ↔
      checkWindows windows = .ok () ∧ ∃ f rate grid tube met,
        setting m name start = .ok (f, rate) ∧ f.checkStart start.point = .ok () ∧
        windowGrid windows step = .ok grid ∧ f.tube start.mode start.point grid = .ok tube ∧
        tube.failure = none ∧ tube.segments.mapM (rangeOver f rate) = .ok met ∧
        windows.mapM (metRange met) = .ok ranges := by
  have notEmpty : ¬windows.isEmpty = true := by simpa using nonempty
  simp only [intervalPropagation, bind_eq_ok_iff, if_neg notEmpty, liftFault_eq_ok_iff,
    liftRange_eq_ok_iff, reportFailure_eq_ok_iff]
  constructor
  · rintro ⟨_, accepted, ⟨f, rate⟩, set, _, dimension, grid, made, tube, tubed, met, ranged, _,
      unbroken, answers⟩
    exact ⟨accepted, f, rate, grid, tube, met, set, dimension, made, tubed, unbroken, ranged,
      answers⟩
  · rintro ⟨accepted, f, rate, grid, tube, met, set, dimension, made, tubed, unbroken, ranged,
      answers⟩
    exact ⟨(), accepted, (f, rate), set, (), dimension, grid, made, tube, tubed, met, ranged, (),
      unbroken, answers⟩

end

variable [IsStrictOrderedRing K] [IntegerPowers K] {f : VectorField (Extended K)}
  {constants : String → K} {rate : Expr (Extended K)}

/-- The answer for a window holds the value of a formula in a state that a segment covers at a time
of the window. -/
theorem metRange_holds (admits : f.scope.Admits constants)
    (arithmetic : f.IsArithmetic constants rate) {segments : List (Segment (Extended K))}
    {met : List (Interval (Extended K) × Interval (Extended K))}
    (ranged : segments.mapM (rangeOver f rate) = .ok met) {w range : Interval (Extended K)}
    (answer : metRange met w = .ok range) {s : Segment (Extended K)} (mem : s ∈ segments) {t : K}
    {x : List K} (covers : s.Covers t x) (inside : w.Holds t) {y : K}
    (value : f.valueAt? constants x rate = some y) : range.Holds y := by
  obtain ⟨pair, found, made⟩ := exists_of_mapM ranged mem
  rw [rangeOver, bind_eq_ok_iff] at made
  obtain ⟨i, hi, same⟩ := made
  obtain rfl := pure_eq_ok_iff.mp same
  rw [metRange] at answer
  split at answer
  · next hull =>
      obtain rfl := Except.ok.inj answer
      refine (VectorField.range_holds admits arithmetic covers.box hi value).of_hullAll hull ?_
      refine List.mem_map_of_mem (f := Prod.snd) (List.mem_filter.mpr ⟨found, ?_⟩)
      exact covers.span.meets inside
  · cases answer

/-- Where the rates of a mode are formulas of arithmetic and constants have values inside their
intervals, an interval propagation that answers encloses the polygon of Euler: for each window and
each time in it, the answer contains the value of the rate in the state of the polygon. -/
theorem intervalPropagation_encloses_polygon {m : Model (Extended K)} {a : Automaton (Extended K)}
    (flat : m.automaton = .ok a) {mode name : String}
    (field : VectorField.ofMode a mode = .ok f) (admits : a.toScope.Admits constants)
    (arithmetic : ∀ name e, f.rate? name = some e → f.IsArithmetic constants e) {start : List K}
    {step : Extended K} (positive : 0 < step) {windows ranges : List (Interval (Extended K))}
    (accepted : checkWindows windows = .ok ())
    (estimated : (intervalPropagation step).estimate m name ⟨mode, start.map finite⟩ windows =
      .ok ranges) :
    ∃ rate times, f.rate? name = some rate ∧
      windowGrid windows step = .ok ((0 :: times).map finite) ∧
      List.IsChain (· ≤ ·) (0 :: times) ∧
      (∀ w ∈ windows, ∀ t, w.contains (finite t) = true → ∃ s ∈ 0 :: times, t ≤ s) ∧
      List.Forall₂ (fun w range => ∀ t x y, w.contains (finite t) = true →
        f.polygon constants t 0 start times = some x → f.valueAt? constants x rate = some y →
          range.contains (finite y) = true) windows ranges := by
  obtain ⟨times, made, chain⟩ := exists_windowGrid accepted positive
  have known : f.scope = a.toScope := by
    obtain ⟨_, _, _, _, rfl⟩ := VectorField.ofMode_eq_ok_iff.mp field
    rfl
  rw [← known] at admits
  obtain ⟨f', rate, set⟩ := exists_setting_of_intervalPropagation estimated
  obtain ⟨a', flat', field', rated⟩ := setting_eq_ok_iff.mp set
  obtain rfl : a = a' := Except.ok.inj (flat.symm.trans flat')
  obtain rfl : f = f' := Except.ok.inj (field.symm.trans field')
  have reaches : ∀ w ∈ windows, ∀ t, w.contains (finite t) = true → ∃ s ∈ 0 :: times, t ≤ s :=
    fun w mem t inside => exists_time_ge accepted made mem (Interval.contains_iff.mp inside)
  refine ⟨rate, times, rated, made, chain, reaches, ?_⟩
  by_cases nonempty : windows = []
  · subst nonempty
    obtain rfl := intervalPropagation_nil estimated
    exact .nil
  obtain ⟨_, _, _, grid, tube, met, set', dimension, made', tubed, unbroken, ranged, answers⟩ :=
    (intervalPropagation_eq_ok_iff nonempty).mp estimated
  obtain ⟨rfl, rfl⟩ := Prod.mk.inj (Except.ok.inj (set.symm.trans set'))
  obtain rfl := Except.ok.inj (made.symm.trans made')
  obtain ⟨origin, box, covers, hx, rfl⟩ := VectorField.exists_followBox_of_tube tubed
  rw [VectorField.checkStart_eq_ok_iff, List.length_map] at dimension
  refine List.forall₂_iff_zip.mpr ⟨(length_of_mapM answers).symm, ?_⟩
  intro w range pair t x y inside state value
  obtain ⟨mem, answer⟩ := (mem_zip_of_mapM answers).mp pair
  have holds := Interval.contains_iff.mp inside
  have begun : 0 ≤ t := nonneg_of_accepted accepted mem holds
  obtain ⟨s, segment, covered⟩ := VectorField.exists_segment_of_polygon admits arithmetic unbroken
    hx dimension ⟨origin, .head _, covers⟩ begun state
  exact Interval.contains_iff.mpr
    (metRange_holds admits (arithmetic name rate rated) ranged answer segment covered holds value)

end Estimator

/-! ## A saturating quantity -/

/-- It grows at a constant rate and shrinks with its square, by a factor known up to an interval. -/
def saturating : Automaton (Extended ℚ) where
  vars := .ofList ["x"]
  constants := .ofList [("c", ⟨finite (1 / 2), finite (3 / 2)⟩)]
  modes := .ofList [("on", {
    name := "on"
    flow := some (.ofList
      [("x", .exact (.sub (.num 2) (.mul (.var "c") (.pow (.var "x") (.num 2)))))]) })]

def saturatingModel : Model (Extended ℚ) where
  root := .flat saturating
  settings := .initial

def saturatingField : VectorField (Extended ℚ) where
  scope := saturating.toScope
  flow := .ofList [("x", .exact (.sub (.num 2) (.mul (.var "c") (.pow (.var "x") (.num 2)))))]

def saturatingWindows : List (Interval (Extended ℚ)) := [⟨0, 0.5⟩, ⟨0.5, 1⟩]

/-- The grid with a step of a half. -/
def saturatingGrid : List (Extended ℚ) :=
  0 :: TimeGrid.after 0 0.5
    ((saturatingWindows.flatMap fun w => [w.min, w.max]).filter fun t => decide (0 < t)).eraseReps

theorem saturating_grid : Estimator.windowGrid saturatingWindows 0.5 = .ok saturatingGrid := by
  have inOrder : ((saturatingWindows.flatMap fun w => [w.min, w.max]).filter fun t =>
      decide (0 < t)).Pairwise fun a b => decide (a ≤ b) = true := by
    decide +kernel
  refine timeGrid_eq_ok_iff.mpr ⟨by decide +kernel, ?_⟩
  exact congrArg (0 :: TimeGrid.after 0 0.5 ·) (TimeGrid.ordered_of_pairwise inOrder)

theorem saturating_accepted : Estimator.checkWindows saturatingWindows = .ok () := by
  rw [Estimator.checkWindows_eq_ok_iff]
  decide +kernel

theorem saturating_arithmetic (constants : String → ℚ) (name : String) (e : Expr (Extended ℚ))
    (rate : saturatingField.rate? name = some e) : saturatingField.IsArithmetic constants e := by
  obtain ⟨value, found, rfl⟩ := Option.map_eq_some_iff.mp rate
  have entry : (name, value) =
      ("x", .exact (.sub (.num 2) (.mul (.var "c") (.pow (.var "x") (.num 2))))) :=
    List.mem_singleton.mp (NameMap.find?_eq_some_iff.mp found)
  obtain ⟨rfl, rfl⟩ := Prod.mk.inj entry
  intro box x hx
  have two : (2 : Extended ℚ) = finite ((2 : ℤ) : ℚ) := by
    rw [ofNat_eq]
    rfl
  rw [two]
  exact .sub (.num _) (.mul (.var "c") (.pow_intCast (.var "x") (by decide)))

/-- The tube does not break off, and its segments meet both windows. -/
theorem saturating_estimate : ∃ ranges, (Estimator.intervalPropagation 0.5).estimate
    saturatingModel "x" ⟨"on", [1].map finite⟩ saturatingWindows = .ok ranges := by
  have set : Estimator.setting saturatingModel "x" ⟨"on", [1].map finite⟩ =
      .ok (saturatingField, .sub (.num 2) (.mul (.var "c") (.pow (.var "x") (.num 2)))) := rfl
  obtain ⟨tube, tubed, whole⟩ : ∃ tube,
      saturatingField.tube "on" [finite 1] saturatingGrid = .ok tube ∧
        (tube.failure.isNone &&
          (tube.segments.mapM (Estimator.rangeOver saturatingField
            (.sub (.num 2) (.mul (.var "c") (.pow (.var "x") (.num 2)))))).toOption.any
              fun met => (saturatingWindows.mapM (Estimator.metRange met)).toOption.any
                fun _ => true) = true :=
    exists_ok_of_any (by decide +kernel)
  rw [Bool.and_eq_true] at whole
  obtain ⟨met, ranged, answered⟩ := exists_ok_of_any whole.2
  obtain ⟨ranges, answers, _⟩ := exists_ok_of_any answered
  refine ⟨ranges, (Estimator.intervalPropagation_eq_ok_iff (by decide)).mpr
    ⟨saturating_accepted, ?_⟩⟩
  exact ⟨_, _, _, tube, met, set, rfl, saturating_grid, tubed,
    Option.isNone_iff_eq_none.mp whole.1, ranged, answers⟩

/-- From one, with the factor one, the polygon is at `23 / 16` at the time `3 / 4`. It shrinks there
at a rate that the answer for the second window contains. -/
theorem saturating_encloses_polygon :
    ∃ ranges, (Estimator.intervalPropagation 0.5).estimate saturatingModel "x"
        ⟨"on", [1].map finite⟩ saturatingWindows = .ok ranges ∧
      saturatingField.polygon (fun _ => 1) (3 / 4) 0 [1] [1 / 2, 1] = some [23 / 16] ∧
      ∃ range, ranges[1]? = some range ∧ range.contains (finite (-17 / 256)) = true := by
  obtain ⟨ranges, estimated⟩ := saturating_estimate
  have admits : saturating.toScope.Admits fun _ => (1 : ℚ) := by
    intro name i found
    have entry : (name, i) = ("c", ⟨finite (1 / 2), finite (3 / 2)⟩) :=
      List.mem_singleton.mp (NameMap.find?_eq_some_iff.mp found)
    obtain ⟨rfl, rfl⟩ := Prod.mk.inj entry
    exact Interval.contains_iff.mp (by decide +kernel)
  have state : saturatingField.polygon (fun _ => (1 : ℚ)) (3 / 4) 0 [1] [1 / 2, 1] =
      some [23 / 16] := by
    decide +kernel
  have value : saturatingField.valueAt? (fun _ => (1 : ℚ)) [23 / 16]
      (.sub (.num 2) (.mul (.var "c") (.pow (.var "x") (.num 2)))) = some (-17 / 256) := by
    decide +kernel
  have positive : (0 : Extended ℚ) < 0.5 := by decide +kernel
  have flat : saturatingModel.automaton = .ok saturating := rfl
  have field : VectorField.ofMode saturating "on" = .ok saturatingField := rfl
  obtain ⟨rate, times, rated, made, _, _, encloses⟩ :=
    Estimator.intervalPropagation_encloses_polygon flat field admits (saturating_arithmetic _)
      positive saturating_accepted estimated
  obtain rfl := Option.some.inj (show some _ = some rate from rated)
  obtain rfl : times = [1 / 2, 1] := by
    have numbers : saturatingGrid.map number? = [some 0, some (1 / 2), some 1] := by decide +kernel
    rw [Except.ok.inj (saturating_grid.symm.trans made), List.map_map] at numbers
    have same : (0 :: times).map some = [0, 1 / 2, 1].map some := numbers
    exact (List.cons.inj (List.map_injective_iff.mpr (Option.some_injective ℚ) same)).2
  obtain _ | ⟨_, second⟩ := encloses
  obtain _ | ⟨holds, _⟩ := second
  have inside : Interval.contains ⟨0.5, 1⟩ (finite (3 / 4 : ℚ)) = true := by decide +kernel
  exact ⟨_, estimated, state, _, rfl, holds (3 / 4) [23 / 16] (-17 / 256) inside state value⟩

end HybridAutomata
