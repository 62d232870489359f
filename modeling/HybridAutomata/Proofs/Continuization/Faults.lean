import HybridAutomata.Proofs.Continuization.Integrity
import HybridAutomata.Proofs.Continuization.ReliableEstimators
import HybridAutomata.Proofs.Continuization.Structure

/-!
# Faults of a continuization

The numbers here are doubles: sums and products overflow, and infinities lead to undefined numbers.
With ranges in order, the windows are made of operations that have no fault, except for one: a rate
is widened by its coefficient times the deviation, and the coefficient is the value of a formula.
Where that value is undefined there is no such multiple. With an interval propagation, moreover,
the ranges themselves are sums and quotients that may not exist. No other fault comes out of a
continuization, and a model with an undefined coefficient is never continuized.
-/

namespace HybridAutomata

open Success

namespace Continuization

variable {c : Continuization Float}

/-! ## Rates that cannot be widened -/

/-- A rate that depends on the sampled variable and may have no sum with a multiple of a deviation:
its coefficient is undefined, or its noise holds no finite number. -/
def Unwidenable (c : Continuization Float) (rate : Perturbed Float) : Prop :=
  rate.expr.mentions c.sampled = true ∧
    ∃ coefficient, rate.expr.linearCoefficient? c.sampled = some coefficient ∧
      (Scalar.isDefined coefficient = false ∨
        ∃ noise, rate.noise = some noise ∧ ¬noise.HoldsFinite)

theorem not_unwidenable_one : ¬c.Unwidenable (.exact (.num 1)) := by
  rintro ⟨mentions, _⟩
  cases mentions

theorem of_not_unwidenable {rate : Perturbed Float} {coefficient : Float}
    (widenable : ¬c.Unwidenable rate) (mentions : rate.expr.mentions c.sampled = true)
    (affine : rate.expr.linearCoefficient? c.sampled = some coefficient) :
    Scalar.isDefined coefficient = true ∧ rate.noiseOrZero.HoldsFinite := by
  constructor
  · rw [← Bool.not_eq_false]
    exact fun undefined => widenable ⟨mentions, _, affine, .inl undefined⟩
  · rw [Perturbed.noiseOrZero]
    cases noise : rate.noise with
    | none => exact ⟨0, by decide, Double.zero_le, Double.zero_le⟩
    | some i =>
        by_contra empty
        exact widenable ⟨mentions, _, affine, .inr ⟨i, noise, empty⟩⟩

theorem widenRate_noFault {mode y : String} {deviation : Interval Float} {rate : Perturbed Float}
    (zero : deviation.HoldsZero) (widenable : ¬c.Unwidenable rate) :
    NoFault (c.widenRate mode deviation (y, rate)) := by
  cases mentions : rate.expr.mentions c.sampled with
  | false => exact .of_exists ⟨_, widenRate_of_not_mentions mentions, trivial⟩
  | true =>
      cases affine : rate.expr.linearCoefficient? c.sampled with
      | none =>
          simp only [widenRate, mentions, affine, ↓reduceIte]
          exact id
      | some coefficient =>
          obtain ⟨defined, finite⟩ := of_not_unwidenable widenable mentions affine
          obtain ⟨extra, scaled, nothing⟩ := (zero.scale (Scalar.isDefined_iff.mp defined)).exists_ok
          obtain ⟨noise, added, _⟩ := (finite.add nothing).exists_ok
          exact .of_exists ⟨_, (widenRate_eq_ok_iff_of_mentions mentions).mpr
            ⟨coefficient, extra, noise, affine, scaled, added, rfl⟩, trivial⟩

/-- There is no multiple by an undefined coefficient. -/
theorem widenRate_ne_ok {mode y : String} {deviation : Interval Float} {rate rate' : Perturbed Float}
    {coefficient : Float} (mentions : rate.expr.mentions c.sampled = true)
    (affine : rate.expr.linearCoefficient? c.sampled = some coefficient)
    (undefined : Scalar.isDefined coefficient = false) :
    c.widenRate mode deviation (y, rate) ≠ .ok (y, rate') := by
  rw [Ne, widenRate_eq_ok_iff_of_mentions mentions]
  rintro ⟨_, _, _, found, scaled, _⟩
  obtain rfl := Option.some.inj (affine.symm.trans found)
  obtain ⟨_, pointed, _⟩ := bind_eq_ok_iff.mp scaled
  have defined := Scalar.isDefined_iff.mpr (Interval.make_eq_ok_iff.mp pointed).1
  exact Bool.false_ne_true (undefined.symm.trans defined)

/-! ## Windows -/

/-- The period is positive, so that there are deviations, zero among them. -/
theorem Accepted.deviation_faultless (h : c.Accepted) {bloated : Interval Float}
    (ordered : bloated.Ordered) : Faultless Interval.HoldsZero (c.deviation bloated) := by
  obtain ⟨_, positive⟩ := Bool.and_eq_true_iff.mp h.period
  have nonneg : 0 ≤ c.period := (LawfulComparisons.lt_iff.mp (of_decide_eq_true positive)).1
  have before : -c.period ≤ 0 := Double.neg_nonpos nonneg
  have times : Faultless Interval.HoldsZero (Interval.make (-c.period) 0) :=
    .of_exists ⟨_, if_pos before, before, Double.zero_le⟩
  exact times.bind fun _ _ zero => zero.mul ordered

theorem planWindow_faultless (h : c.Accepted) (a : Automaton Float) (mode : String) (index : Nat)
    (window : Interval Float) {range : Interval Float} (ordered : range.Ordered) {bloat : Float}
    (mem : bloat ∈ c.bloats) :
    Faultless (fun plan => plan.deviation.HoldsZero)
      (c.planWindow a mode index window range bloat) := by
  have names : NoFault (checkNames a mode (windowName mode index)) := by
    rw [checkNames]
    split
    · exact id
    · trivial
  refine names.bind fun _ _ _ => ?_
  refine (Interval.bloat_faultless ordered (h.nonNegative bloat mem)).lift.bind ?_
  intro bloated _ inOrder
  exact (h.deviation_faultless inOrder).lift.bind fun _ _ zero => zero

variable {a : Automaton Float} {clock name : String} {mode : Mode Float}

/-- Whatever a mode gives as a rate can be widened. -/
def Widenable (c : Continuization Float) (mode : Mode Float) : Prop :=
  ∀ y rate, mode.flowOf? y = some rate → ¬c.Unwidenable rate

theorem windowMode_noFault {plan : WindowPlan Float} (zero : plan.deviation.HoldsZero)
    (widenable : c.Widenable mode) : NoFault (c.windowMode clock name mode plan) := by
  rw [windowMode]
  split
  · next flow flows =>
      have widened : NoFault (c.widenFlow name plan.deviation flow) := by
        refine (Faultless.forall_mapM (P := fun _ => True) ?_).bind fun _ _ _ => trivial
        rintro ⟨y, rate⟩ mem
        refine widenRate_noFault zero (widenable y rate ?_)
        rw [Mode.flowOf?, flows]
        exact NameMap.find?_eq_some_iff.mpr mem
      exact (Faultless.map (Q := fun _ => True) widened).bind fun _ _ _ => trivial
  · trivial

variable {ranges : NameMap (List (Interval Float))}

theorem expandMode_noFault (h : c.Accepted) (ordered : OrderedRanges ranges)
    (widenable : name ∈ ranges.keys → c.Widenable mode) :
    NoFault (c.expandMode a clock ranges (name, mode)) := by
  rw [expandMode]
  split
  · trivial
  · next found hfound =>
      split
      · exact id
      · next rate _ =>
          refine (Faultless.forall_mapM (P := fun _ => True) ?_).mono fun _ _ _ => trivial
          rintro ⟨⟨window, range, bloat⟩, index⟩ mem
          obtain ⟨_, hrange, hbloat⟩ := mem_zipped.mp mem
          have inOrder := ordered name found hfound range (List.mem_of_getElem? hrange)
          have planned := planWindow_faultless h a name index window inOrder
            (List.mem_of_getElem? hbloat)
          refine planned.bind fun plan _ zero => ?_
          have continuized : name ∈ ranges.keys := NameMap.mem_keys_iff.mpr ⟨found, hfound⟩
          exact (windowMode_noFault zero (widenable continuized)).bind fun _ _ _ => trivial

/-- With ranges in order, only a rate that cannot be widened makes a synthesis fault. -/
theorem synthesize_noFault (h : c.Accepted) (ordered : OrderedRanges ranges)
    (widenable : ∀ name ∈ ranges.keys, ∀ mode, a.mode? name = some mode → c.Widenable mode)
    (m : Model Float) (clock : String) : NoFault (c.synthesize m a clock ranges) := by
  refine (Faultless.forall_mapM (P := fun _ => True) ?_).bind fun _ _ _ => trivial
  rintro ⟨name, mode⟩ mem
  refine expandMode_noFault h ordered fun continuized => ?_
  exact widenable name continuized mode (NameMap.find?_eq_some_iff.mpr mem)

end Continuization

/-! ## Whole continuizations -/

namespace Automaton

variable {α : Type}

theorem continuizedModes_noFault (a : Automaton α) (c : Continuization α) (pass : String) :
    NoFault (a.continuizedModes c pass) := by
  rw [continuizedModes]
  split
  · exact id
  · split
    · exact id
    · trivial

theorem clockSource_noFault [Scalar α] (a : Automaton α) (c : Continuization α) (pass : String) :
    NoFault (c.clockSource a pass) := by
  rw [Continuization.clockSource]
  split
  · split
    · exact id
    · split
      · split
        · exact id
        · trivial
      · trivial
  · split
    · trivial
    · trivial

end Automaton

namespace Model

open Continuization

variable {c : Continuization Float} {m : Model Float} {a : Automaton Float} {ctx : Context Float}
  {pass : String}

theorem continuize_noFault (stored : a.StoredByName) (flat : m.automaton = .ok a)
    (reliable : c.Reliable m a ctx.estimator)
    (widenable : ∀ name mode, a.mode? name = some mode → a.continuizes c.sampled name = true →
      c.Widenable mode) : NoFault (m.continuize c ctx pass) := by
  refine (Faultless.ofPass (P := fun _ => c.check = .ok ()) fun _ => id).bind fun _ _ checked => ?_
  rw [flat]
  refine (a.continuizedModes_noFault c pass).bind fun modes hmodes _ => ?_
  refine (a.clockSource_noFault c pass).bind fun source hsource _ => ?_
  dsimp only
  rw [automaton_withClock flat source]
  have continuized (name : String) (mem : name ∈ modes) : a.continuizes c.sampled name = true :=
    stored.continuizes_iff.mpr ((Automaton.mem_continuizedModes hmodes).mp mem)
  have inOrder := reliable.modeRanges_faultless flat hsource continuized
  refine inOrder.bind fun ranges found ordered => ?_
  refine synthesize_noFault (accepted_of_check checked) ordered ?_ _ source.name
  -- a mode with ranges was asked for, and beside its own rates it has that of the clock at most
  intro name mem clocked hclocked y rate given
  obtain ⟨mode, original, rfl⟩ := Continuized.mode?_clocked hclocked
  obtain given | rfl := Mode.flowOf?_of_withClock given
  · have asked := ((modeRanges_shape found).1 name).mp mem
    exact widenable name mode original (continuized name asked) y rate given
  · exact not_unwidenable_one

/-- A continuized mode that gives a variable a rate with an undefined coefficient has no windows. -/
theorem continuize_ne_ok (stored : a.StoredByName) (flat : m.automaton = .ok a) {name y : String}
    {mode : Mode Float} {rate : Perturbed Float} (found : a.mode? name = some mode)
    (continuized : a.continuizes c.sampled name = true) (isVar : y ∈ a.vars.toList)
    (given : mode.flowOf? y = some rate) (mentions : rate.expr.mentions c.sampled = true)
    {coefficient : Float} (affine : rate.expr.linearCoefficient? c.sampled = some coefficient)
    (undefined : Scalar.isDefined coefficient = false)
    (result : Model Float × List (WindowRange Float)) : m.continuize c ctx pass ≠ .ok result := by
  intro success
  obtain ⟨a', _, source, ranges, parts, hsource, steps⟩ := continuize_eq_ok success
  obtain rfl := Except.ok.inj (flat.symm.trans steps.flat)
  have windows := List.length_pos_of_ne_nil steps.accepted.nonempty
  obtain ⟨clocked, _, plan, w, window⟩ := steps.exists_windowOf stored continuized windows
  obtain ⟨_, same, rfl⟩ := Continuized.mode?_clocked window.mode
  obtain rfl := Option.some.inj (found.symm.trans same)
  obtain ⟨none, _⟩ | ⟨original, widened, before, _, widen⟩ :=
    (windowMode_eq_ok window.made).2.2.2.2 y
  · rw [flowOf?_withClock_of_mem_vars hsource mode isVar, given] at none
    cases none
  · rw [flowOf?_withClock_of_mem_vars hsource mode isVar, given] at before
    obtain rfl := Option.some.inj before
    exact widenRate_ne_ok mentions affine undefined widen

/-! ## Causes of faults -/

/-- The estimators that come with a positive step if they step at all, and those that always answer
in order. -/
inductive Steady : Estimator Float → Prop
  | answering {e : Estimator Float}
      (orderly : ∀ m name start windows, e.Orderly m name start windows) : Steady e
  | unavailable (reason : String) : Steady (.unavailable reason)
  | simulation {step : Float} (positive : 0 < step) : Steady (.simulation step)
  | intervalPropagation {step : Float} (positive : 0 < step) : Steady (.intervalPropagation step)

/-- What can make a continuization fault: a rate of a continuized mode that cannot be widened, and
under an interval propagation with some step, a rate of such a mode that clashes over a finite box,
a start point that is not finite, or a grid that does not ascend. -/
inductive FaultCause (c : Continuization Float) (m : Model Float) (a : Automaton Float)
    (e : Estimator Float) : Prop
  | widening {name y : String} {mode : Mode Float} {rate : Perturbed Float}
      (found : a.mode? name = some mode) (continuized : a.continuizes c.sampled name = true)
      (given : mode.flowOf? y = some rate) (unwidenable : c.Unwidenable rate)
  | range {step : Float} (estimator : e = .intervalPropagation step) {name y : String}
      {mode : Mode Float} {rate : Perturbed Float} (found : a.mode? name = some mode)
      (continuized : a.continuizes c.sampled name = true) (given : mode.flowOf? y = some rate)
      {env : String → Option (Interval Float)} (ranges : a.toScope.Ranges env)
      (clash : rate.expr.Clashes env)
  | start {step : Float} (estimator : e = .intervalPropagation step) {source : ClockSource}
      {name : String} (continuized : a.continuizes c.sampled name = true)
      {points : List (List Float)} (found : (m.withClock a source).startPoints (a.withClock source)
        name c.blowup = .ok points) {point : List Float} (mem : point ∈ points) {x : Float}
      (coordinate : x ∈ point) (infinite : Scalar.isFinite x = false)
  | grid {step : Float} (estimator : e = .intervalPropagation step) {grid : List Float}
      (made : Estimator.windowGrid c.windows step = .ok grid)
      (unordered : ¬VectorField.Ascends grid)

/-- Without a cause, the estimator is reliable. -/
theorem Steady.reliable {e : Estimator Float} (steady : Steady e)
    (ordered : ∀ name i, a.constants.find? name = some i → i.Ordered)
    (none : ¬FaultCause c m a e) : c.Reliable m a e := by
  cases steady with
  | answering orderly => exact .answering orderly
  | unavailable reason => exact .unavailable reason
  | simulation positive => exact .simulation positive
  | intervalPropagation positive =>
      refine .intervalPropagation positive ⟨ordered, ?_, ?_, ?_⟩
      · intro name mode found continuized y rate given env ranges clash
        exact none (.range rfl found continuized given ranges clash)
      · intro pass source _ name continuized points found point mem x coordinate
        rw [← Bool.not_eq_false]
        exact fun infinite => none (.start rfl continuized found mem coordinate infinite)
      · intro grid made
        by_contra unordered
        exact none (.grid rfl made unordered)

/-- A continuization of doubles with an estimator that answers in order or comes with a positive
step faults only for one of the causes. Where the coefficient of a rate is undefined, it never
succeeds. -/
theorem continuize_fault_cause (valid : m.Valid) (flat : m.automaton = .ok a)
    (ordered : ∀ name i, a.constants.find? name = some i → i.Ordered)
    (steady : Steady ctx.estimator) :
    (∀ fault, m.continuize c ctx pass = .error (.fault fault) → FaultCause c m a ctx.estimator) ∧
    ∀ name mode y rate coefficient, a.mode? name = some mode →
      a.continuizes c.sampled name = true → mode.flowOf? y = some rate →
        rate.expr.mentions c.sampled = true →
          rate.expr.linearCoefficient? c.sampled = some coefficient →
            Scalar.isDefined coefficient = false →
              ∀ result, m.continuize c ctx pass ≠ .ok result := by
  have rules := (valid_iff.mp valid).automaton flat
  constructor
  · intro fault faults
    by_contra none
    have widenable (name : String) (mode : Mode Float) (found : a.mode? name = some mode)
        (continuized : a.continuizes c.sampled name = true) : c.Widenable mode :=
      fun y rate given unwidenable => none (.widening found continuized given unwidenable)
    have faultless : NoFault (m.continuize c ctx pass) :=
      continuize_noFault rules.storedByName flat (steady.reliable ordered none) widenable
    rw [faults] at faultless
    exact faultless trivial
  · intro name mode y rate coefficient found continuized given mentions affine undefined
    have assigns := (Scope.keepsMode_iff.mp (rules.keepsMode found)).2 y rate given
    exact continuize_ne_ok rules.storedByName flat found continuized assigns.target given mentions
      affine undefined

end Model

/-! ## Slopes -/

/-- One mode, in which `u` rises at the rate one and `y` at a given rate. -/
def slopeAutomaton (rate : Expr Float) : Automaton Float where
  vars := .ofList ["u", "y"]
  modes := .ofList [("rise", {
    name := "rise"
    flow := some (.ofList [("u", .exact (.num 1)), ("y", .exact rate)]) })]

def slope (rate : Expr Float) : Model Float where
  root := .flat (slopeAutomaton rate)
  init := .ofList [("rise", .bool true)]
  settings := .initial

/-- The variable `u` is sampled once per unit of time, over one window. -/
def unitSampling : Continuization Float where
  sampled := "u"
  period := 1
  breakpoints := [1]
  bloats := [0]

theorem slope_rate {r : Expr Float} {name y : String} {mode : Mode Float} {rate : Perturbed Float}
    (found : (slopeAutomaton r).mode? name = some mode) (given : mode.flowOf? y = some rate) :
    rate = .exact (.num 1) ∨ rate = .exact r := by
  obtain ⟨rfl, rfl⟩ := Prod.mk.inj (List.mem_singleton.mp (NameMap.find?_eq_some_iff.mp found))
  obtain ⟨_, rfl⟩ | ⟨_, rfl⟩ : (y = "u" ∧ rate = .exact (.num 1)) ∨ (y = "y" ∧ rate = .exact r) := by
    simpa using List.mem_pair.mp (NameMap.find?_eq_some_iff.mp given)
  · exact .inl rfl
  · exact .inr rfl

/-- Estimates by simulation. -/
def simulated : Context Float where
  tolerance := 0
  estimator := .simulation 0.5

/-- Where `y` rises at the rate `u`, a continuization with a simulation never faults. -/
theorem ramp_never_faults : (slope (.var "u")).Valid ∧ Model.Steady simulated.estimator ∧
    ∀ fault, (slope (.var "u")).continuize unitSampling simulated "continuize" ≠
      .error (.fault fault) := by
  have valid : (slope (.var "u")).Valid := by
    rw [Model.Valid]
    decide +kernel
  have steady : Model.Steady simulated.estimator := .simulation (by decide)
  have ordered (name : String) (i : Interval Float)
      (found : (slopeAutomaton (.var "u")).constants.find? name = some i) : i.Ordered := by
    cases found
  have simulates (step : Float) (same : simulated.estimator = .intervalPropagation step) : False := by
    have names : "simulation" = "interval" := congrArg Estimator.name same
    exact absurd names (by decide)
  refine ⟨valid, steady, fun fault faults => ?_⟩
  cases (Model.continuize_fault_cause valid rfl ordered steady).1 fault faults with
  | widening found _ given unwidenable =>
      obtain ⟨mentions, coefficient, affine, undefined⟩ := unwidenable
      obtain rfl | rfl := slope_rate found given
      · cases mentions
      · obtain rfl := Option.some.inj (affine.symm.trans (b := some 1) rfl)
        obtain undefined | ⟨_, none, _⟩ := undefined
        · exact absurd undefined (by decide)
        · cases none
  | range estimator => exact simulates _ estimator
  | start estimator => exact simulates _ estimator
  | grid estimator => exact simulates _ estimator

/-- A slope whose rate is the product of `u` and the root of a negative number. -/
def rootedRamp : Model Float := slope (.mul (.var "u") (.call "sqrt" [.neg (.num 1)]))

/-- Every estimate is one. -/
def certain : Context Float where
  tolerance := 0
  estimator := .scripted "certain" fun windows => List.replicate windows ⟨1, 1⟩

/-- The model is valid, the parameters are accepted, and the estimates are in order; there is a
fault nevertheless. -/
theorem rootedRamp_faults : rootedRamp.Valid ∧ unitSampling.check = .ok () ∧
    (∀ m name start windows, certain.estimator.Orderly m name start windows) ∧
    ∃ fault, rootedRamp.continuize unitSampling certain "continuize" = .error (.fault fault) := by
  have valid : rootedRamp.Valid := by
    rw [Model.Valid]
    decide +kernel
  have ordered (count : Nat) (range : Interval Float)
      (mem : range ∈ List.replicate count ⟨1, 1⟩) : range.Ordered := by
    obtain rfl := List.eq_of_mem_replicate mem
    rw [Interval.Ordered]
    decide
  have kind : ((rootedRamp.continuize unitSampling certain "continuize").map
      fun _ => ()).mapError Failure.kind = .error .fault := by decide +kernel
  refine ⟨valid, rfl, Estimator.orderly_scripted ordered, ?_⟩
  cases answer : rootedRamp.continuize unitSampling certain "continuize" with
  | ok result =>
      rw [answer] at kind
      cases kind
  | error failure =>
      rw [answer] at kind
      cases failure with
      | fault fault => exact ⟨fault, rfl⟩
      | _ => cases kind

end HybridAutomata
