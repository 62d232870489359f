import HybridAutomata.Dynamics.TimeGrid
import HybridAutomata.Dynamics.Tube
import HybridAutomata.Estimation.Estimator
import HybridAutomata.Proofs.Automaton.Coordinates
import HybridAutomata.Proofs.Doubles.Ranges

/-!
# Tubes of doubles

A tube goes on from box to box. If every interval of a box holds a finite number, then so do those
of the box behind the next span: over the span the box is moved by multiples that zero belongs to,
and at its end it is inside the bounded box of the span. So a tube from a finite start along an
ascending grid does not break off by a fault, unless the ranges of the rates do.
-/

namespace HybridAutomata

open Double

namespace Double

theorem zero_le : (0 : Float) ≤ 0 := by decide

theorem isFinite_of_add {x y : Float} (h : Scalar.isFinite (x + y) = true) :
    Scalar.isFinite x = true ∧ Scalar.isFinite y = true := by
  simp only [isFinite_iff_value, value_add] at h ⊢
  obtain ⟨q, sum⟩ := h
  -- what is not finite is not rounded, and it does not become finite by a summand
  generalize value x = a, value y = b at sum
  cases a <;> cases b <;> first
    | exact ⟨⟨_, rfl⟩, _, rfl⟩
    | cases sum

end Double

namespace Interval

variable {i j k : Interval Float}

/-! ## Sums inside bounded ones -/

/-- The products with the upper bound are among those with the whole interval. -/
theorem mul_upper (hi : i.Ordered) (hj : j.Ordered) (product : i.mul j = .ok k) :
    Faultless (fun k' => k'.Ordered ∧ k.min ≤ k'.min ∧ k'.max ≤ k.max)
      (mul ⟨i.max, i.max⟩ j) := by
  have upper : Ordered (⟨i.max, i.max⟩ : Interval Float) := (LawfulComparisons.defined_of_le hi).2
  obtain ⟨_, around⟩ := (mul_faultless hi hj).answer product
  refine (mul_faultless upper hj).mono fun k' made ⟨ordered, _⟩ => ⟨ordered, ?_⟩
  obtain ⟨_, rfl⟩ := make_eq_ok_iff.mp made
  have within (c : Float) (mem : c ∈ [mulBound i.max j.min, mulBound i.max j.max,
      mulBound i.max j.min, mulBound i.max j.max]) : k.min ≤ c ∧ c ≤ k.max := by
    refine around c ?_
    simp only [List.mem_cons, List.not_mem_nil, or_false] at mem ⊢
    tauto
  obtain ⟨lower, upper⟩ := within _ List.mem_cons_self
  constructor
  · refine Scalar.le_foldl_lesser ?_ fun c mem => (within c mem).1
    exact le_infinity (LawfulComparisons.defined_of_le lower).1
  · refine Scalar.foldl_greater_le ?_ fun c mem => (within c mem).2
    exact neg_infinity_le (LawfulComparisons.defined_of_le upper).2

/-- What is moved by the upper bound of some times stays inside a bounded interval that goes around
all times. -/
theorem Ordered.add_mul_upper {times x rate : Interval Float} (ht : times.Ordered) (hr : rate.Ordered)
    (hx : x.Ordered) {drift around : Interval Float} (product : times.mul rate = .ok drift)
    (sum : x.add drift = .ok around) (bounded : around.isBounded = true) :
    Faultless HoldsFinite (do x.add (← mul ⟨times.max, times.max⟩ rate)) := by
  refine (mul_upper ht hr product).bind fun move _ ⟨ordered, lower, upper⟩ => ?_
  obtain ⟨_, rfl⟩ := make_eq_ok_iff.mp sum
  obtain ⟨least, greatest⟩ := Bool.and_eq_true_iff.mp bounded
  obtain ⟨xMin, driftMin⟩ := isFinite_of_add least
  obtain ⟨xMax, driftMax⟩ := isFinite_of_add greatest
  have moveMin := isFinite_of_between driftMin driftMax lower (LawfulComparisons.le_trans ordered upper)
  have moveMax := isFinite_of_between driftMin driftMax (LawfulComparisons.le_trans lower ordered) upper
  have defined {a b : Float} (ha : Scalar.isFinite a = true) (hb : Scalar.isFinite b = true) :
      a + b ≤ a + b := defined_add_of_isFinite (Scalar.defined_of_isFinite ha) hb
  have sums := add_le_add hx ordered (defined xMin moveMin) (defined xMax moveMax)
  have reachesLower := add_le_add (Scalar.defined_of_isFinite xMin) lower (defined xMin driftMin)
    (defined xMin moveMin)
  have reachesUpper := add_le_add (Scalar.defined_of_isFinite xMax) upper (defined xMax moveMax)
    (defined xMax driftMax)
  have finite := isFinite_of_between least greatest reachesLower
    (LawfulComparisons.le_trans sums reachesUpper)
  exact .of_exists ⟨_, if_pos sums, _, finite, Scalar.defined_of_isFinite finite, sums⟩

/-! ## Room -/

theorem zero_le_room (h : i.HoldsZero) : (0 : Float) ≤ 1e-9 + 0.1 * i.width := by
  have width : 0 ≤ i.width := by
    rw [Interval.width, le_iff, value_sub_eq, ← le_iff]
    exact add_nonneg h.2 (neg_nonneg h.1)
  have tenth : (0 : Float) ≤ 0.1 := by decide
  have product : Scalar.isDefined (0.1 * i.width) = true :=
    isDefined_mul (by decide) (by decide)
      (Scalar.isDefined_iff.mpr (LawfulComparisons.defined_of_le width).2)
  exact add_nonneg (by decide) (mul_nonneg tenth width (Scalar.isDefined_iff.mp product))

end Interval

/-! ## Fields that can be ranged over -/

/-- Every interval of the box holds a finite number. -/
def FiniteBox (box : List (Interval Float)) : Prop := ∀ i ∈ box, i.HoldsFinite

/-- What names range over while a tube is followed: constants over their intervals, and variables
over intervals that hold a finite number. -/
def Scope.Ranges (s : Scope Float) (env : String → Option (Interval Float)) : Prop :=
  ∀ name i, env name = some i → i.HoldsFinite ∨ s.constants.find? name = some i

theorem FiniteBox.ranges {box : List (Interval Float)} (h : FiniteBox box) (s : Scope Float) :
    s.Ranges (s.ranging box) := by
  intro name i found
  rw [Scope.ranging] at found
  split at found
  · next value coordinate =>
      exact .inl (Option.some.inj found ▸ h value (Scope.mem_of_coordinate coordinate))
  · exact .inr found

namespace VectorField

variable {f : VectorField Float} {e : Expr Float} {box ranges : List (Interval Float)}
  {time stop : Float}

/-- The constants have their bounds in order, and no rate clashes while a tube is followed. -/
structure Calm (f : VectorField Float) : Prop where
  constants : ∀ name i, f.scope.constants.find? name = some i → i.Ordered
  rates : ∀ name e, f.rate? name = some e → ∀ env, f.scope.Ranges env → ¬e.Clashes env

theorem Calm.range (h : f.Calm) (hbox : FiniteBox box)
    (formula : ∀ env, f.scope.Ranges env → ¬e.Clashes env) :
    Faultless Interval.Ordered (f.range e box) := by
  have ranges := hbox.ranges f.scope
  refine Expr.range_faultless (fun name i found => ?_) e (formula _ ranges)
  exact (ranges name i found).elim Interval.HoldsFinite.ordered (h.constants name i)

theorem Calm.derivativeRange (h : f.Calm) (hbox : FiniteBox box) :
    Faultless (fun ranges => ∀ i ∈ ranges, i.Ordered) (f.derivativeRange box) := by
  refine Faultless.forall_mapM fun name _ => ?_
  split
  · next e rate => exact h.range hbox (h.rates name e rate)
  · exact Interval.HoldsZero.ordered ⟨zero_le, zero_le⟩

/-! ## Steps of a tube -/

theorem roughly_faultless {elapsed x rate : Interval Float} (now : elapsed.HoldsZero)
    (hx : x.HoldsFinite) (hr : rate.Ordered) :
    Faultless Interval.HoldsFinite (roughly elapsed x rate) := by
  refine (now.mul hr).bind fun drift _ zero => ?_
  refine (hx.add zero).bind fun reached _ _ => ?_
  exact (hx.hull_left reached).bloat (Interval.zero_le_room zero)

theorem carried_faultless {elapsed : Interval Float} (now : elapsed.HoldsZero)
    (hbox : FiniteBox box) (ordered : ∀ i ∈ ranges, i.Ordered) :
    Faultless FiniteBox (carried elapsed box ranges) := by
  refine Faultless.forall_mapM ?_
  rintro ⟨x, rate⟩ mem
  obtain ⟨hx, hr⟩ := List.of_mem_zip mem
  refine (now.mul (ordered rate hr)).bind fun drift _ zero => ?_
  exact (hbox x hx).add zero

theorem Calm.ratesDuring (h : f.Calm) {elapsed : Interval Float} (now : elapsed.HoldsZero)
    (hbox : FiniteBox box) :
    Faultless (fun ranges => ∀ i ∈ ranges, i.Ordered) (f.ratesDuring elapsed box) := by
  refine (h.derivativeRange hbox).liftRange.bind fun rates _ ordered => ?_
  have rough : Faultless FiniteBox
      ((box.zip rates).mapM fun pair => roughly elapsed pair.1 pair.2) := by
    refine Faultless.forall_mapM ?_
    rintro ⟨x, rate⟩ mem
    obtain ⟨hx, hr⟩ := List.of_mem_zip mem
    exact roughly_faultless now (hbox x hx) (ordered rate hr)
  exact rough.lift.bind fun rough _ finite => (h.derivativeRange finite).liftRange

/-- At its end, a box is inside the bounded box of the span. -/
theorem boxAfter_faultless {elapsed : Float} (nonneg : 0 ≤ elapsed) (hbox : FiniteBox box)
    (ordered : ∀ i ∈ ranges, i.Ordered) {enclosure : List (Interval Float)}
    (made : carried ⟨0, elapsed⟩ box ranges = .ok enclosure)
    (bounded : enclosure.all Interval.isBounded = true) :
    Faultless FiniteBox (boxAfter box ranges elapsed) := by
  have pointed : Interval.point elapsed = .ok ⟨elapsed, elapsed⟩ :=
    Interval.make_eq_ok_iff.mpr ⟨(LawfulComparisons.defined_of_le nonneg).2, rfl⟩
  rw [boxAfter, pointed]
  refine Faultless.forall_mapM ?_
  rintro ⟨x, rate⟩ mem
  obtain ⟨hx, hr⟩ := List.of_mem_zip mem
  obtain ⟨around, listed, sum⟩ := Success.exists_of_mapM made mem
  obtain ⟨drift, product, sum⟩ := Success.bind_eq_ok_iff.mp sum
  have times : Interval.Ordered ⟨0, elapsed⟩ := nonneg
  exact times.add_mul_upper (ordered rate hr) (hbox x hx).ordered product sum
    (List.all_eq_true.mp bounded around listed)

/-- One span: its segment, and the box behind it. -/
theorem Calm.segment (h : f.Calm) (mode : String) (hbox : FiniteBox box)
    (finite : Scalar.isFinite time = true) (le : time ≤ stop) :
    Faultless (fun made => FiniteBox made.1.box ∧
      Faultless FiniteBox (boxAfter box made.2 (stop - time))) (f.segment mode box time stop) := by
  have ahead : 0 ≤ stop - time := sub_nonneg finite le
  have now : Interval.HoldsZero ⟨0, stop - time⟩ := ⟨zero_le, ahead⟩
  have elapses : Faultless (· = ⟨0, stop - time⟩) (Interval.make 0 (stop - time)) :=
    .of_exists ⟨_, if_pos ahead, rfl⟩
  have spans : Interval.make time stop = .ok ⟨time, stop⟩ := if_pos le
  refine elapses.lift.bind fun elapsed _ same => ?_
  rw [same]
  refine (h.ratesDuring now hbox).bind fun rates _ ordered => ?_
  refine (carried_faultless now hbox ordered).lift.bind fun enclosure made holds => ?_
  split
  · next bounded =>
      rw [spans]
      refine ⟨holds, boxAfter_faultless ahead hbox ordered ?_ bounded⟩
      exact Success.liftFault_eq_ok_iff.mp made
  · exact id

/-! ## Tubes -/

/-- The times are finite, and none is before an earlier one. -/
structure Ascends (grid : List Float) : Prop where
  finite : ∀ t ∈ grid, Scalar.isFinite t = true
  chain : List.IsChain (· ≤ ·) grid

/-- A tube that goes on from a finite box does not break off by a fault. -/
theorem Calm.followBox (h : f.Calm) (mode : String) {stops : List Float}
    (ascends : Ascends (time :: stops)) (hbox : FiniteBox box) {reached : List (Segment Float)}
    (latest : ∀ s ∈ reached, FiniteBox s.box) :
    let tube := f.followBox mode reached box time stops
    NoFault (Estimator.reportFailure tube.failure) ∧ ∀ s ∈ tube.segments, FiniteBox s.box := by
  induction stops generalizing reached box time with
  | nil => exact ⟨trivial, fun s mem => latest s (List.mem_reverse.mp mem)⟩
  | cons stop stops ih =>
      obtain ⟨finite, finiteLater⟩ := List.forall_mem_cons.mp ascends.finite
      obtain ⟨le, later⟩ := List.isChain_cons_cons.mp ascends.chain
      rw [VectorField.followBox]
      have segment := h.segment mode hbox finite le
      split
      · next failure failed =>
          rw [failed] at segment
          exact ⟨segment, fun s mem => latest s (List.mem_reverse.mp mem)⟩
      · next s ranges made =>
          obtain ⟨holds, behind⟩ := segment.answer made
          obtain ⟨box', after, hbox'⟩ := behind.exists_ok
          rw [after]
          exact ih ⟨finiteLater, later⟩ hbox' (List.forall_mem_cons.mpr ⟨holds, latest⟩)

theorem Calm.tube (h : f.Calm) (mode : String) {start : List Float}
    (finite : ∀ x ∈ start, Scalar.isFinite x = true) {stops : List Float}
    (ascends : Ascends (0 :: stops)) :
    Faultless (fun tube => NoFault (Estimator.reportFailure tube.failure) ∧
      ∀ s ∈ tube.segments, FiniteBox s.box) (f.tube mode start (0 :: stops)) := by
  have points : Faultless FiniteBox (start.mapM Interval.point) := by
    refine Faultless.forall_mapM fun x mem => ?_
    have defined := Scalar.defined_of_isFinite (finite x mem)
    exact .of_exists ⟨_, if_pos defined, x, finite x mem, defined, defined⟩
  refine points.bind fun box _ hbox => ?_
  have origin : NoFault (Interval.point (0 : Float)) :=
    .of_exists ⟨_, Interval.make_eq_ok_iff.mpr ⟨by decide, rfl⟩, trivial⟩
  refine origin.bind fun _ _ _ => ?_
  exact h.followBox mode ascends hbox (List.forall_mem_singleton.mpr hbox)

end VectorField

end HybridAutomata
