import HybridAutomata.Continuization.EventTriggered
import HybridAutomata.Proofs.Continuization.Clock
import HybridAutomata.Proofs.Continuization.Windows
import HybridAutomata.Proofs.Exact.Intervals
import HybridAutomata.Proofs.Model.Rules

/-!
# What a continuization makes

A successful continuization has accepted its parameters, put a clock in place, and replaced the
continuized modes by their windows. The continuized modes are those that are not urgent and give the
sampled variable a rate; here that is a question to the automaton, while the transformation lists
them. In an automaton that keeps the rules the two agree, because a mode is stored under its own
name.

The ramp at the end of the module is a model that is continuized over every field of numbers.
-/

namespace HybridAutomata

open Success

variable {α : Type} [Scalar α]

namespace Automaton

omit [Scalar α] in
/-- Whether a mode is not urgent and gives a variable a rate. -/
def continuizes (a : Automaton α) (sampled name : String) : Bool :=
  match a.mode? name with
  | some m => !m.urgent && (m.flowOf? sampled).isSome
  | none => false

omit [Scalar α] in
theorem continuizes_iff {a : Automaton α} {sampled name : String} :
    a.continuizes sampled name = true ↔ ∃ m, a.mode? name = some m ∧ m.urgent = false ∧
      (m.flowOf? sampled).isSome = true := by
  rw [continuizes]
  split
  · next m found => simp [found]
  · next absent => simp [absent]

/-- The rule of integrity that look-ups rely on. -/
def StoredByName (a : Automaton α) : Prop := ∀ key m, a.mode? key = some m → m.name = key

omit [Scalar α] in
theorem WellFormed.storedByName {a : Automaton α} (h : a.WellFormed) : a.StoredByName :=
  fun key m found => h.stored (key, m) (NameMap.find?_eq_some_iff.mp found)

omit [Scalar α] in
/-- Where modes are stored by name, it makes no difference whether a mode is listed or looked up. -/
theorem StoredByName.continuizes_iff {a : Automaton α} (stored : a.StoredByName)
    {sampled name : String} : a.continuizes sampled name = true ↔ ∃ m ∈ a.modes.values,
      m.name = name ∧ m.urgent = false ∧ (m.flowOf? sampled).isSome = true := by
  rw [Automaton.continuizes_iff]
  constructor
  · rintro ⟨m, found, rest⟩
    exact ⟨m, mem_values_of_mode? found, stored name m found, rest⟩
  · rintro ⟨m, mem, rfl, rest⟩
    obtain ⟨⟨key, _⟩, hentry, rfl⟩ := List.mem_map.mp mem
    have found : a.mode? key = some _ := NameMap.find?_eq_some_iff.mpr hentry
    exact ⟨_, stored key _ found ▸ found, rest⟩

omit [Scalar α] in
theorem mem_continuizedModes {a : Automaton α} {c : Continuization α} {pass name : String}
    {modes : List String} (h : a.continuizedModes c pass = .ok modes) :
    name ∈ modes ↔ ∃ m ∈ a.modes.values, m.name = name ∧ m.urgent = false ∧
      (m.flowOf? c.sampled).isSome = true := by
  rw [continuizedModes] at h
  split at h
  · cases h
  · split at h
    · cases h
    · cases h
      simp [and_assoc, and_comm, and_left_comm]

end Automaton

namespace Model

/-- A mode of a valid model is stored under its own name. -/
theorem Valid.storedByName {m : Model α} (valid : m.Valid) {a : Automaton α}
    (flat : m.automaton = .ok a) : a.StoredByName :=
  ((valid_iff.mp valid).automaton flat).storedByName

/-- A transition of a valid model joins modes of the model. -/
theorem Valid.endpoints {m : Model α} (valid : m.Valid) {a : Automaton α}
    (flat : m.automaton = .ok a) :
    ∀ t ∈ a.transitions, t.source ∈ a.modes.keys ∧ t.target ∈ a.modes.keys := by
  intro t mem
  have kept := ((valid_iff.mp valid).automaton flat).transitions t mem
  exact ⟨kept.source, kept.target⟩

end Model

namespace Continuization

/-- What the check of the parameters leaves to rely on. -/
structure Accepted (c : Continuization α) : Prop where
  period : Scalar.isPositive c.period = true
  nonempty : c.breakpoints ≠ []
  increasing : misplaced? 0 c.breakpoints = none
  bloats : c.bloats.length = c.breakpoints.length
  nonNegative : ∀ bloat ∈ c.bloats, Scalar.isNonNegative bloat = true

theorem accepted_of_check {c : Continuization α} (h : c.check = .ok ()) : c.Accepted := by
  rw [check] at h
  split at h
  · cases h
  split at h
  · cases h
  split at h
  · cases h
  split at h
  · cases h
  split at h
  · cases h
  split at h
  · cases h
  next _ positive nonempty _ increasing count _ nonNegative =>
    exact {
      period := by simpa using positive
      nonempty := by simpa using nonempty
      increasing
      bloats := not_not.mp count
      nonNegative := by simpa using nonNegative }

end Continuization

open Continuization

/-- The steps of a successful continuization: the automaton that was read, the source of the clock,
the ranges that were found, and the parts of the automaton that was made. -/
structure Continuized (c : Continuization α) (m m' : Model α) (a a' : Automaton α)
    (source : ClockSource) (ranges : NameMap (List (Interval α))) (parts : List (ModeWindows α))
    (report : List (WindowRange α)) : Prop where
  accepted : c.Accepted
  flat : m.automaton = .ok a
  clock : ∃ pass, c.clockSource a pass = .ok source
  made : Synthesized c (a.withClock source) source.name ranges parts a' report
  result : m'.automaton = .ok a'
  init : m'.init = (m.withClock a source).init
  keys : ∀ name, name ∈ ranges.keys ↔ ∃ mode ∈ a.modes.values, mode.name = name ∧
    mode.urgent = false ∧ (mode.flowOf? c.sampled).isSome = true

/-- The steps of a continuization, one after the other. -/
theorem Model.continuize_eq_ok_iff {c : Continuization α} {m : Model α} {ctx : Context α}
    {pass : String} {result : Model α × List (WindowRange α)} :
    m.continuize c ctx pass = .ok result ↔ c.check = .ok () ∧ ∃ a modes source ranges,
      m.automaton = .ok a ∧ a.continuizedModes c pass = .ok modes ∧
      c.clockSource a pass = .ok source ∧
      c.modeRanges ctx (m.withClock a source) (a.withClock source) modes = .ok ranges ∧
      c.synthesize (m.withClock a source) (a.withClock source) source.name ranges =
        .ok result := by
  simp only [Model.continuize, bind_eq_ok_iff, ofPass_eq_ok_iff]
  constructor
  · rintro ⟨_, checked, a, flat, modes, hmodes, source, hsource, clocked, hclocked, ranges,
      hranges, made⟩
    obtain rfl : clocked = a.withClock source :=
      Except.ok.inj (hclocked.symm.trans (automaton_withClock flat source))
    exact ⟨checked, a, modes, source, ranges, flat, hmodes, hsource, hranges, made⟩
  · rintro ⟨checked, a, modes, source, ranges, flat, hmodes, hsource, hranges, made⟩
    exact ⟨_, checked, a, flat, modes, hmodes, source, hsource, _,
      automaton_withClock flat source, ranges, hranges, made⟩

/-- A successful continuization went through its steps, and of the rest of the model it changed the
forbidden regions only. -/
theorem Model.continuize_steps {c : Continuization α} {m m' : Model α} {ctx : Context α}
    {pass : String} {report : List (WindowRange α)}
    (h : m.continuize c ctx pass = .ok (m', report)) :
    ∃ a a' source ranges parts, c.clockSource a pass = .ok source ∧
      Continuized c m m' a a' source ranges parts report ∧
      m'.forbidden = c.forbiddenRegions ranges.contains m.forbidden ∧
      m'.settings = m.settings := by
  obtain ⟨checked, a, modes, source, ranges, flat, hmodes, hsource, hranges, made⟩ :=
    continuize_eq_ok_iff.mp h
  have accepted := accepted_of_check checked
  obtain ⟨keys, covers⟩ := modeRanges_shape hranges
  obtain ⟨a', parts, synthesized, rfl⟩ :=
    synthesize_eq_ok covers (accepted.bloats.trans (length_windows c).symm) made
  refine ⟨a, a', source, ranges, parts, hsource, {
    accepted, flat
    clock := ⟨pass, hsource⟩
    made := synthesized
    result := rfl
    init := rfl
    keys := fun name => (keys name).trans (Automaton.mem_continuizedModes hmodes) }, ?_, ?_⟩
  · cases source <;> rfl
  · cases source <;> rfl

theorem Model.continuize_eq_ok {c : Continuization α} {m m' : Model α} {ctx : Context α}
    {pass : String} {report : List (WindowRange α)}
    (h : m.continuize c ctx pass = .ok (m', report)) :
    ∃ a a' source ranges parts, c.clockSource a pass = .ok source ∧
      Continuized c m m' a a' source ranges parts report := by
  obtain ⟨a, a', source, ranges, parts, hsource, steps, _⟩ := continuize_steps h
  exact ⟨a, a', source, ranges, parts, hsource, steps⟩

namespace Continuized

variable {c : Continuization α} {m m' : Model α} {a a' : Automaton α} {source : ClockSource}
  {ranges : NameMap (List (Interval α))} {parts : List (ModeWindows α)}
  {report : List (WindowRange α)}

/-- Where modes are stored by name, the modes with ranges are those that are continuized. -/
theorem contains_eq (h : Continuized c m m' a a' source ranges parts report)
    (stored : a.StoredByName) : ranges.contains = a.continuizes c.sampled := by
  funext name
  rw [Bool.eq_iff_iff, NameMap.contains_iff, h.keys, stored.continuizes_iff]

/-- A mode with the clock in place comes from a mode of the model. -/
theorem mode?_clocked {name : String} {mode : Mode α}
    (found : (a.withClock source).mode? name = some mode) :
    ∃ original, a.mode? name = some original ∧ mode = original.withClock source := by
  rw [Automaton.mode?_withClock, Option.map_eq_some_iff] at found
  obtain ⟨original, found, rfl⟩ := found
  exact ⟨original, found, rfl⟩

end Continuized

/-! ## The ramp -/

section

variable (K : Type) [Field K] [LinearOrder K] [FloorRing K] [Functions K]

/-- One mode, in which `u` rises at the rate one and `y` at the rate `u`. -/
def rampAutomaton : Automaton (Extended K) where
  vars := .ofList ["u", "y"]
  modes := .ofList [("rise", {
    name := "rise"
    flow := some (.ofList [("u", .exact (.num 1)), ("y", .exact (.var "u"))]) })]

def ramp : Model (Extended K) where
  root := .flat (rampAutomaton K)
  init := .ofList [("rise", .bool true)]
  settings := .initial

/-- The variable `u` is sampled once per unit of time, over two windows. -/
def rampSampling : Continuization (Extended K) where
  sampled := "u"
  period := 1
  breakpoints := [1, 2]
  bloats := [0, 0]

/-- The estimates are exact: `u` rises at the rate one. -/
def rampContext : Context (Extended K) where
  tolerance := 0
  estimator := .scripted "exact" fun windows => List.replicate windows ⟨1, 1⟩

/-- There is no clock, so one is introduced. -/
theorem ramp_clockSource (pass : String) :
    (rampSampling K).clockSource (rampAutomaton K) pass = .ok (.introduced "t") := rfl

/-- The mode of the ramp with a clock in place. -/
def clockedRise : Mode (Extended K) where
  name := "rise"
  flow := some (.ofList
    [("u", .exact (.num 1)), ("y", .exact (.var "u")), ("t", .exact (.num 1))])

theorem ramp_mode? :
    ((rampAutomaton K).withClock (.introduced "t")).mode? "rise" = some (clockedRise K) := rfl

/-- Estimates start in one point, for the clock is zero and the other variables are not bounded. -/
theorem ramp_startPoints :
    ∃ point, ((ramp K).withClock (rampAutomaton K) (.introduced "t")).startPoints
      ((rampAutomaton K).withClock (.introduced "t")) "rise" false = .ok [point] := by
  let scope := ((rampAutomaton K).withClock (.introduced "t")).toScope
  let region : Expr (Extended K) := .eq (.var "t") (.num 0)
  have limits : scope.regionBox region = do
      return [← Limits.unlimited.range region "u", ← Limits.unlimited.range region "y",
        ← (Limits.unlimited.tighten .eq 0).range region "t"] := rfl
  have box : scope.regionBox region = .ok [.zero, .zero, .zero] := by
    rw [limits]
    simp [Limits.range, Limits.unlimited, Limits.tighten, Scalar.isFinite, Extended.lt_iff,
      Interval.make?, Interval.zero, Scalar.greater, Scalar.lesser, bind, Except.bind, pure,
      Except.pure]
  have points : ((ramp K).withClock (rampAutomaton K) (.introduced "t")).startPoints
      ((rampAutomaton K).withClock (.introduced "t")) "rise" false =
        Model.regionPoints scope false region := rfl
  rw [points]
  exact ⟨_, bind_eq_ok_iff.mpr ⟨_, box, rfl⟩⟩

/-- The estimates of the ramp. -/
def rampRanges : NameMap (List (Interval (Extended K))) :=
  .ofList [("rise", [⟨1, 1⟩, ⟨1, 1⟩])]

theorem ramp_modeRanges :
    (rampSampling K).modeRanges (rampContext K)
      ((ramp K).withClock (rampAutomaton K) (.introduced "t"))
      ((rampAutomaton K).withClock (.introduced "t")) ["rise"] = .ok (rampRanges K) := by
  obtain ⟨point, hpoint⟩ := ramp_startPoints K
  have starts : (rampSampling K).starts ((ramp K).withClock (rampAutomaton K) (.introduced "t"))
      ((rampAutomaton K).withClock (.introduced "t")) ["rise"] = .ok [⟨"rise", point⟩] := by
    simp only [Continuization.starts, bind_eq_ok_iff, pure_eq_ok_iff, List.mapM_cons,
      List.mapM_nil]
    exact ⟨_, ⟨_, ⟨_, hpoint, rfl⟩, _, rfl, rfl⟩, rfl⟩
  exact bind_eq_ok_iff.mpr ⟨_, starts, rfl⟩

variable [IsStrictOrderedRing K]

theorem ramp_check : (rampSampling K).check = .ok () := by
  simp [rampSampling, Continuization.check, Scalar.isPositive, Scalar.isNonNegative, misplaced?]

theorem ramp_valid : (ramp K).Valid := by
  have horizon : Model.horizonViolations (ramp K).settings.horizon = [] := by
    simp [Model.horizonViolations, Scalar.isPositive, ramp, Settings.initial]
  simp only [Model.Valid, Model.violations, List.append_eq_nil_iff]
  exact ⟨⟨⟨⟨⟨rfl, rfl⟩, rfl⟩, rfl⟩, rfl⟩, horizon⟩

theorem ramp_deviation :
    ∃ deviation, (rampSampling K).deviation ⟨1, 1⟩ = .ok deviation ∧ deviation.Holds 0 := by
  have zero : Interval.Holds (⟨-1, 0⟩ : Interval (Extended K)) 0 := by simp [Interval.Holds]
  have one : Interval.Holds (⟨1, 1⟩ : Interval (Extended K)) 1 := by simp [Interval.Holds]
  obtain ⟨deviation, product, holds⟩ := zero.mul one
  rw [zero_mul] at holds
  have time := Interval.make_eq_ok_iff.mpr ⟨zero.ordered, rfl⟩
  exact ⟨deviation, bind_eq_ok_iff.mpr ⟨_, time, product⟩, holds⟩

/-- The rate of `y` is widened; the other rates do not mention `u`. -/
theorem ramp_widenFlow {deviation : Interval (Extended K)} (zero : deviation.Holds 0) :
    ∃ flow, (rampSampling K).widenFlow "rise" deviation (.ofList
      [("u", .exact (.num 1)), ("y", .exact (.var "u")), ("t", .exact (.num 1))]) = .ok flow := by
  obtain ⟨extra, scaled, holds⟩ := zero.scale 1
  obtain ⟨noise, added, _⟩ := Interval.holds_zero.add holds
  have coefficient :
      (Expr.var "u" : Expr (Extended K)).linearCoefficient? "u" = some (.finite 1) := by
    rw [← Nat.cast_one, ← Extended.ofNat_eq]
    rfl
  have widened : (rampSampling K).widenRate "rise" deviation ("y", .exact (.var "u")) =
      .ok ("y", ⟨.var "u", some noise⟩) :=
    (widenRate_eq_ok_iff_of_mentions rfl).mpr ⟨_, _, _, coefficient, scaled, added, rfl⟩
  have stays (y : String) : (rampSampling K).widenRate "rise" deviation (y, .exact (.num 1)) =
      .ok (y, .exact (.num 1)) :=
    widenRate_of_not_mentions rfl
  have rates := mapM_eq_ok_iff.mpr (.cons (stays "u") (.cons widened (.cons (stays "t") .nil)))
  exact ⟨_, bind_eq_ok_iff.mpr ⟨_, rates, rfl⟩⟩

/-- A window is made if its names are free. -/
theorem ramp_expandWindow (index : Nat) (window : Interval (Extended K))
    (names : checkNames ((rampAutomaton K).withClock (.introduced "t")) "rise"
      (windowName "rise" index) = .ok ()) :
    ∃ part, (rampSampling K).expandWindow ((rampAutomaton K).withClock (.introduced "t")) "t"
      "rise" (clockedRise K) (.num 1) index window ⟨1, 1⟩ 0 = .ok part := by
  obtain ⟨deviation, hdeviation, zero⟩ := ramp_deviation K
  obtain ⟨flow, hflow⟩ := ramp_widenFlow K zero
  have bloated : (⟨1, 1⟩ : Interval (Extended K)).bloat 0 = .ok ⟨1, 1⟩ := by simp [Interval.bloat]
  obtain ⟨plan, planned, rfl⟩ : ∃ plan, (rampSampling K).planWindow
      ((rampAutomaton K).withClock (.introduced "t")) "rise" index window ⟨1, 1⟩ 0 = .ok plan ∧
        plan.deviation = deviation :=
    ⟨_, planWindow_eq_ok_iff.mpr ⟨names, _, _, bloated, hdeviation, rfl⟩, rfl⟩
  obtain ⟨w, made⟩ : ∃ w, (rampSampling K).windowMode "t" "rise" (clockedRise K) plan = .ok w :=
    ⟨_, bind_eq_ok_iff.mpr ⟨_, map_eq_ok_iff.mpr ⟨_, hflow, rfl⟩, rfl⟩⟩
  have rate : Perturbed.expr (.exact (.num 1) : Perturbed (Extended K)) = .num 1 := rfl
  rw [← rate]
  exact ⟨_, expandWindow_eq_ok_iff.mpr ⟨plan, w, planned, made, rfl⟩⟩

/-- The ramp is continuized. -/
theorem ramp_continuize (pass : String) : ∃ m' report,
    (ramp K).continuize (rampSampling K) (rampContext K) pass = .ok (m', report) := by
  obtain ⟨first, hfirst⟩ := ramp_expandWindow K 0 ⟨0, 1⟩ rfl
  obtain ⟨second, hsecond⟩ := ramp_expandWindow K 1 ⟨1, 2⟩ rfl
  have windows : (rampSampling K).expandMode ((rampAutomaton K).withClock (.introduced "t")) "t"
      (rampRanges K) ("rise", clockedRise K) = .ok [first, second] :=
    mapM_eq_ok_iff.mpr (.cons hfirst (.cons hsecond .nil))
  have entries : ((rampAutomaton K).withClock (.introduced "t")).modes.entries =
      [("rise", clockedRise K)] := rfl
  obtain ⟨⟨m', report⟩, made⟩ : ∃ result, (rampSampling K).synthesize
      ((ramp K).withClock (rampAutomaton K) (.introduced "t"))
      ((rampAutomaton K).withClock (.introduced "t")) "t" (rampRanges K) = .ok result := by
    simp only [Continuization.synthesize, entries, bind_eq_ok_iff, pure_eq_ok_iff]
    exact ⟨_, _, mapM_eq_ok_iff.mpr (.cons windows .nil), rfl⟩
  refine ⟨m', report, ?_⟩
  simp only [Model.continuize, bind_eq_ok_iff, ofPass_eq_ok_iff]
  exact ⟨_, ramp_check K, _, rfl, _, rfl, _, ramp_clockSource K pass, _, rfl, _,
    ramp_modeRanges K, made⟩

end

end HybridAutomata
