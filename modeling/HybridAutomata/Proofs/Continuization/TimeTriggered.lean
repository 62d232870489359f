import HybridAutomata.Proofs.Continuization.InlinedLaws
import HybridAutomata.Proofs.Continuization.LoopRemoval
import HybridAutomata.Proofs.Exact.SimplifiedValues

/-!
# What a time-triggered continuization makes

A successful time-triggered continuization reads the sampling off the loops, removes them,
continuizes what is left over the values of the sampled variable, and puts the laws in its place.
So what is watched in a window with a law is the law: the jump to its lower error mode is guarded by
a comparison of the law with the lower end of the range.

The meter at the end serves as an example in the modules that follow. It is continuized whatever is
estimated for the variable that it samples.
-/

namespace HybridAutomata

open Continuization Success Extended

variable {α : Type}

/-! ## The steps -/

variable [Scalar α]

/-- The model with another automaton, and with regions that do not mention the clock. -/
def Model.withoutClock (m : Model α) (left : Automaton α) (clock : String) : Model α :=
  (m.withAutomaton left).mapRegions (·.withoutConjunctsMentioning clock)

/-- The steps of a successful time-triggered continuization: the loops were removed, which left
`left`; that was continuized over values, which gave `windowed`; and the laws were put in place. -/
structure TimeTriggered (c : Continuization α) (s : Sampling α) (m m' : Model α)
    (a left windowed : Automaton α) (source : ClockSource) (ranges : NameMap (List (Interval α)))
    (parts : List (ModeWindows α)) (report : List (WindowRange α)) : Prop where
  sampled : c.sampled = s.sampled
  period : c.period = s.period
  clock : c.clock = none
  target : c.target = .value
  flat : m.automaton = .ok a
  removed : s.removeLoops a = .ok left
  continuizes : ∃ mode ∈ left.modes.values, mode.urgent = false ∧
    (mode.flowOf? s.sampled).isSome = true
  windows : Continuized c (m.withoutClock left s.clock) (m'.withAutomaton windowed) left windowed
    source ranges parts report
  forbidden : m'.forbidden = c.forbiddenRegions ranges.contains
    (m.forbidden.map (·.withoutConjunctsMentioning s.clock))
  settings : m'.settings = m.settings
  result : m'.automaton = .ok (s.inlineLaws (s.lawOfWindow report) windowed)

/-- Some mode is continuized. -/
theorem Model.exists_of_continuize {c : Continuization α} {m m' : Model α} {a : Automaton α}
    {ctx : Context α} {pass : String} {report : List (WindowRange α)}
    (flat : m.automaton = .ok a) (h : m.continuize c ctx pass = .ok (m', report)) :
    ∃ mode ∈ a.modes.values, mode.urgent = false ∧ (mode.flowOf? c.sampled).isSome = true := by
  simp only [Model.continuize, bind_eq_ok_iff] at h
  obtain ⟨_, _, a₀, flat₀, modes, found, _⟩ := h
  obtain rfl : a₀ = a := Except.ok.inj (flat₀.symm.trans flat)
  have members (name : String) := (Automaton.mem_continuizedModes found : name ∈ modes ↔ _)
  rw [Automaton.continuizedModes] at found
  split at found
  · cases found
  · split at found
    · cases found
    · next _ continuized nonempty =>
        obtain ⟨first, mem⟩ := List.exists_mem_of_ne_nil _ nonempty
        cases found
        obtain ⟨mode, mem, _, rules⟩ := (members _).mp (List.mem_map_of_mem mem)
        exact ⟨mode, mem, rules⟩

theorem Model.continuizeTimeTriggered_steps {m m' : Model α} {p : MacroSteps α} {ctx : Context α}
    {pass : String} {report : List (WindowRange α)}
    (h : m.continuizeTimeTriggered p ctx pass = .ok (m', report)) :
    ∃ count s a left windowed source ranges parts,
      p.check m.settings.horizon pass = .ok count ∧ Sampling.read a ctx.tolerance = .ok s ∧
      TimeTriggered (p.toContinuization s count) s m m' a left windowed source ranges parts
        report := by
  simp only [Model.continuizeTimeTriggered, bind_eq_ok_iff, pure_eq_ok_iff, Prod.mk.injEq,
    liftEval_eq_ok_iff] at h
  obtain ⟨count, checked, a, flat, s, read, _, _, left, removed, ⟨middle, report'⟩, continuized,
    windowed, middle', rfl, rfl⟩ := h
  obtain ⟨left', windowed', source, ranges, parts, _, steps, forbidden, settings⟩ :=
    Model.continuize_steps continuized
  obtain rfl : left = left' := Except.ok.inj steps.flat
  obtain rfl : windowed' = windowed := Except.ok.inj (steps.result.symm.trans middle')
  refine ⟨count, s, a, left, windowed', source, ranges, parts, checked, read, {
    sampled := rfl
    period := rfl
    clock := rfl
    target := rfl
    flat
    removed
    continuizes := Model.exists_of_continuize rfl continuized
    windows := { steps with result := rfl }
    forbidden
    settings
    result := rfl }⟩

namespace TimeTriggered

variable {c : Continuization α} {s : Sampling α} {m m' : Model α} {a left windowed : Automaton α}
  {source : ClockSource} {ranges : NameMap (List (Interval α))} {parts : List (ModeWindows α)}
  {report : List (WindowRange α)}

theorem leaves (h : TimeTriggered c s m m' a left windowed source ranges parts report) :
    s.LeavesOf a left :=
  Sampling.leavesOf_of_removeLoops h.removed

theorem automata (h : TimeTriggered c s m m' a left windowed source ranges parts report) :
    m'.root.automata = [s.inlineLaws (s.lawOfWindow report) windowed] := by
  rw [Model.automaton_eq_ok_iff.mp h.result, Component.automata]

/-- What is left without the loops keeps the rules that the model keeps. -/
theorem wellFormed_left (h : TimeTriggered c s m m' a left windowed source ranges parts report)
    (read : s.IsReadOff a) (kept : m.Sound) : left.WellFormed :=
  Sampling.wellFormed_of_removeLoops read (kept.automaton h.flat).toWellFormed h.removed

/-- Names other than the clock stay declared. -/
theorem mem_declared (h : TimeTriggered c s m m' a left windowed source ranges parts report)
    {name : String} (mem : name ∈ a.declared) (ne : name ≠ s.clock) :
    name ∈ windowed.declared :=
  h.windows.declared_subset (h.leaves.mem_declared mem ne)

/-- A window mode belongs to one mode only. -/
theorem mode_of_windowMode
    (h : TimeTriggered c s m m' a left windowed source ranges parts report) :
    ∀ r ∈ report, ∀ r' ∈ report, r.windowMode = r'.windowMode → r.mode = r'.mode := by
  intro r mem r' mem' same
  have made := h.windows.made
  obtain ⟨name, i, _, _, _, _, window, rfl⟩ := made.mem_report.mp mem
  obtain ⟨name', j, _, _, _, _, window', rfl⟩ := made.mem_report.mp mem'
  obtain ⟨isMode, continuized⟩ := window.mem_keys
  obtain ⟨isMode', continuized'⟩ := window'.mem_keys
  rw [window.rangeWindowMode, window'.rangeWindowMode] at same
  rw [window.rangeMode, window'.rangeMode]
  exact (windowName_inj isMode isMode' (made.fresh isMode continuized)
    (made.fresh isMode' continuized') window.lt_windows window'.lt_windows same).1

theorem find?_lawOfWindow (h : TimeTriggered c s m m' a left windowed source ranges parts report)
    {r : WindowRange α} (mem : r ∈ report) :
    (s.lawOfWindow report).find? r.windowMode = s.laws.find? r.mode :=
  Sampling.find?_lawOfWindow h.mode_of_windowMode mem

/-- The variable that measures time in the windows is not the one that is sampled. -/
theorem clock_ne_sampled (h : TimeTriggered c s m m' a left windowed source ranges parts report)
    (kept : left.WellFormed) : source.name ≠ s.sampled := by
  obtain ⟨_, hsource⟩ := h.windows.clock
  obtain ⟨mode, mem, _, rate⟩ := h.continuizes
  obtain ⟨rate, given⟩ := Option.isSome_iff_exists.mp rate
  have declared := ((Scope.keepsMode_iff.mp (kept.modes mode mem)).2 _ rate given).target
  obtain ⟨name, _, other, rfl⟩ | ⟨name, free, rfl⟩ := clockSource_of_not_asked hsource h.clock
  · exact h.sampled ▸ other
  · rintro rfl
    exact free (List.mem_append_left _ (h.sampled ▸ declared))

/-- There is a window. -/
theorem exists_window (h : TimeTriggered c s m m' a left windowed source ranges parts report)
    (kept : left.WellFormed) :
    ∃ name index clocked rate plan w,
      WindowOf c (left.withClock source) source.name ranges name index clocked rate plan w := by
  obtain ⟨mode, mem, rules⟩ := h.continuizes
  obtain ⟨key, found⟩ := Automaton.mem_values_iff.mp mem
  have stored : mode.name = key := kept.stored _ (NameMap.find?_eq_some_iff.mp found)
  have clocked : (left.withClock source).mode? mode.name = some (mode.withClock source) := by
    rw [Automaton.mode?_withClock, stored, found, Option.map_some]
  have continuized : mode.name ∈ ranges.keys :=
    (h.windows.keys mode.name).mpr ⟨mode, mem, rfl, h.sampled ▸ rules⟩
  have nonempty : 0 < c.windows.length := by
    rw [length_windows]
    exact List.length_pos_of_ne_nil h.windows.accepted.nonempty
  obtain ⟨rate, plan, w, window⟩ := h.windows.made.windows _ continuized _ clocked 0 nonempty
  exact ⟨_, _, _, rate, plan, w, window⟩

/-- The windows with a law are those of the continuized modes. -/
theorem continuizes_of_mem (h : TimeTriggered c s m m' a left windowed source ranges parts report)
    (read : s.IsReadOff a) (kept : left.WellFormed) {r : WindowRange α} (mem : r ∈ report) :
    a.continuizes s.sampled r.mode = true := by
  obtain ⟨name, _, _, _, _, _, window, rfl⟩ := h.windows.made.mem_report.mp mem
  rw [← h.leaves.continuizes_eq read, ← h.sampled, ← h.windows.contains_eq kept.storedByName,
    window.rangeMode, NameMap.contains_iff]
  exact window.mem_keys.2

theorem exists_mem_report
    (h : TimeTriggered c s m m' a left windowed source ranges parts report)
    (read : s.IsReadOff a) (kept : left.WellFormed) {mode : String}
    (continuized : a.continuizes s.sampled mode = true) {index : Nat}
    (hindex : index < c.breakpoints.length) :
    ∃ r ∈ report, r.mode = mode ∧ r.windowMode = windowName mode index := by
  rw [← h.leaves.continuizes_eq read, ← h.sampled] at continuized
  obtain ⟨_, _, plan, _, window⟩ :=
    h.windows.exists_windowOf kept.storedByName continuized hindex
  exact ⟨plan.range, h.windows.made.mem_report.mpr ⟨_, _, _, _, _, _, window, rfl⟩,
    window.rangeMode, window.rangeWindowMode⟩

/-- A mode of the sampled model stands behind what the windows are made from: declared names have
the same rates, but for the sampled variable and the clock. -/
theorem flowOf?_clocked (h : TimeTriggered c s m m' a left windowed source ranges parts report)
    {name : String} {clocked : Mode α}
    (stored : (left.withClock source).mode? name = some clocked) :
    ∃ mode, a.mode? name = some mode ∧ ∀ y ∈ a.declared, y ≠ s.sampled → y ≠ s.clock →
      clocked.flowOf? y = mode.flowOf? y := by
  obtain ⟨_, plain, rfl⟩ := Continuized.mode?_clocked stored
  obtain ⟨mode, followed, found, follows, rfl⟩ := h.leaves.modes _ _ plain
  refine ⟨mode, found, fun y declared notSampled notClock => ?_⟩
  have before : (followed.withoutClock s.clock).flowOf? y = mode.flowOf? y := by
    rw [Mode.flowOf?_withoutClock, if_neg notClock, follows.flowOf?_of_ne notSampled]
  obtain ⟨_, hsource⟩ := h.windows.clock
  obtain ⟨_, _, _, rfl⟩ | ⟨name, free, rfl⟩ := clockSource_of_not_asked hsource h.clock
  · exact before
  · rwa [Mode.flowOf?_withClock_of_ne]
    rintro rfl
    exact free (h.leaves.mem_declared declared notClock)

/-- A window with a law has the rates of its mode, widened, with the law in place. -/
theorem exists_widenRate (h : TimeTriggered c s m m' a left windowed source ranges parts report)
    {r : WindowRange α} (mem : r ∈ report) {law : Expr α} (found : s.laws.find? r.mode = some law) :
    ∃ mode w deviation, a.mode? r.mode = some mode ∧
      (s.inlineLaws (s.lawOfWindow report) windowed).mode? r.windowMode = some w ∧
      c.deviation r.bloated = .ok deviation ∧
      ∀ y ∈ a.declared, y ≠ s.sampled → y ≠ s.clock →
        ∀ original, mode.flowOf? y = some original →
        ∃ widened, c.widenRate r.mode deviation (y, original) = .ok (y, widened) ∧
          w.flowOf? y = some (widened.mapExpr (·.substitute s.sampled law)) := by
  have lawOf := h.find?_lawOfWindow mem
  obtain ⟨name, index, clocked, rate, plan, w, window, rfl⟩ := h.windows.made.mem_report.mp mem
  obtain ⟨mode, stored, rates⟩ := h.flowOf?_clocked window.mode
  have windowed : windowed.mode? plan.range.windowMode = some w :=
    window.rangeWindowMode ▸ h.windows.made.mode?_windowName window
  refine ⟨mode, w.inlineLaw s.sampled law, plan.deviation, window.rangeMode ▸ stored, ?_,
    window.deviation, ?_⟩
  · rw [Sampling.mode?_inlineLaws, windowed, lawOf, found]
    rfl
  · intro y declared notSampled notClock original given
    have before := (rates y declared notSampled notClock).trans given
    obtain ⟨none, _⟩ | ⟨original', widened, before', after, widen⟩ :=
        (windowMode_eq_ok window.made).2.2.2.2 y
    · rw [before] at none
      cases none
    · obtain rfl := Option.some.inj (before.symm.trans before')
      refine ⟨widened, window.rangeMode ▸ widen, ?_⟩
      rw [Mode.flowOf?_inlineLaw, after, Option.map_some, if_neg notSampled]

/-- A window with a law is watched by the law. -/
theorem exists_lowerJump (h : TimeTriggered c s m m' a left windowed source ranges parts report)
    {r : WindowRange α} (mem : r ∈ report) {law : Expr α}
    (found : s.laws.find? r.mode = some law) :
    ∃ t ∈ (s.inlineLaws (s.lawOfWindow report) windowed).transitions,
      t.source = r.windowMode ∧ t.guard = .lt law (.num r.bloated.min) := by
  obtain ⟨name, index, clocked, rate, plan, w, window, rfl⟩ := h.windows.made.mem_report.mp mem
  let jump : Transition α := {
    source := plan.range.windowMode
    target := lowerErrorName plan.range.windowMode
    guard := .lt (c.watched rate.expr) (.num plan.range.bloated.min) }
  have made : jump ∈ windowed.transitions := by
    rw [h.windows.made.transitions]
    refine List.mem_append_right _ (h.windows.made.mem_jumps.mpr ⟨_, _, _, _, _, _, window, ?_⟩)
    exact List.mem_append_left _ List.mem_cons_self
  have watched : c.watched rate.expr = .var s.sampled := by
    rw [Continuization.watched, h.target, h.sampled]
  refine ⟨jump.inlined s.sampled (some law), ?_, rfl, ?_⟩
  · rw [Sampling.transitions_inlineLaws, List.mem_map]
    exact ⟨jump, made, by rw [h.find?_lawOfWindow mem, found]⟩
  · have guard : (jump.inlined s.sampled (some law)).guard =
        .lt ((c.watched rate.expr).substitute s.sampled law) (.num plan.range.bloated.min) := rfl
    rw [guard, watched]
    simp [Expr.substitute, Expr.substituteWith]

end TimeTriggered

/-! ## The meter -/

section

variable (K : Type) [Field K] [LinearOrder K] [FloorRing K] [Functions K]

/-- A level `x` rises at the rate two, and `y` at the rate that `u` holds. -/
def meterMode : Mode (Extended K) where
  name := "on"
  flow := some (.ofList [("x", .exact (.num 2)), ("y", .exact (.var "u")),
    ("u", .exact (.num 0)), ("c", .exact (.num 1))])

/-- Whenever the clock has reached one, `u` is set to the value of a law. -/
def meterLoop (law : Expr (Extended K)) : Transition (Extended K) where
  source := "on"
  target := "on"
  guard := .ge (.var "c") (.num 1)
  reset := .ofList [("c", .exact (.num 0)), ("u", .exact law)]

def meterAutomaton (law : Expr (Extended K)) : Automaton (Extended K) where
  vars := .ofList ["x", "y", "u", "c"]
  modes := .ofList [("on", meterMode K)]
  transitions := [meterLoop K law]

/-- The meter, with the variables on the axes of its plot. -/
def meter (law : Expr (Extended K)) (plot : String × String) : Model (Extended K) where
  root := .flat (meterAutomaton K law)
  init := .ofList [("on", .bool true)]
  settings := { horizon := 1, step := 1, plot }

theorem meter_valid : (meter K (.var "x") ("", "")).Valid := by
  have horizon : Model.horizonViolations (1 : Extended K) = [] := by
    simp [Model.horizonViolations, Scalar.isPositive]
  simp only [Model.Valid, Model.violations, List.append_eq_nil_iff]
  exact ⟨⟨⟨⟨⟨rfl, rfl⟩, rfl⟩, rfl⟩, rfl⟩, horizon⟩

/-! ### Its sampling -/

section

variable (law : Expr (Extended K))

theorem meter_clocks : SamplingLoop.clocks (meterMode K) (meterLoop K law) = ["c"] := by
  have measures : (meterMode K).isClock "c" = true :=
    Mode.isClock_iff.mpr ⟨1, rfl, by simp⟩
  have holds : (meterMode K).isClock "u" = false := by
    rw [Bool.eq_false_iff, Ne, Mode.isClock_iff]
    rintro ⟨rate, found, one⟩
    cases found
    simp at one
  have zero : (Perturbed.exact (.num (0 : Extended K))).isExactZero = true := by
    simp [Perturbed.isExactZero, Perturbed.exact]
  have entries : (meterLoop K law).reset.entries =
      [("c", .exact (.num 0)), ("u", .exact law)] := rfl
  rw [SamplingLoop.clocks, NameMap.filter, NameMap.keys]
  simp only [entries, List.filter_cons, measures, holds, zero, Bool.and_true, Bool.and_false,
    ↓reduceIte, Bool.false_eq_true, List.filter_nil, List.map_cons, List.map_nil]

theorem meter_periodOf : SamplingLoop.periodOf "c" (meterLoop K law).guard = .ok 1 := by
  have positive : Scalar.isPositive (1 : Extended K) = true := by simp [Scalar.isPositive]
  have compared : SamplingLoop.readPeriod "c" none (meterLoop K law).guard.conjuncts =
      .ok (some 1) := rfl
  have kept : Option.filter Scalar.isPositive (some (1 : Extended K)) = some 1 := if_pos positive
  simp only [SamplingLoop.periodOf, compared, bind, Except.bind, kept]
  rfl

theorem meter_sampledLaw :
    SamplingLoop.sampledLaw (meterMode K) "c" (meterLoop K law) = .ok ("u", law) := by
  have found : (meterMode K).flowOf? "u" = some (.exact (.num 0)) := rfl
  have held : ((meterMode K).flowOf? "u").any Perturbed.isExactZero = true := by
    simp [found, Perturbed.isExactZero, Perturbed.exact]
  have others : (meterLoop K law).reset.entries.filter (·.1 != "c") = [("u", .exact law)] := rfl
  rw [SamplingLoop.sampledLaw, others]
  simp [held, Perturbed.exact, Perturbed.isExact]

theorem meter_samples_iff {mode : String} {set : Expr (Extended K)} :
    (meterAutomaton K law).Samples mode "u" set ↔ mode = "on" ∧ set = law := by
  constructor
  · rintro ⟨t, mem, rfl, _, found⟩
    obtain rfl := List.mem_singleton.mp mem
    cases found
    exact ⟨rfl, rfl⟩
  · rintro ⟨rfl, rfl⟩
    exact ⟨meterLoop K set, List.mem_singleton_self _, rfl, rfl, rfl⟩

/-- The sampling that is read off the meter. -/
def meterSampling : Sampling (Extended K) where
  clock := "c"
  sampled := "u"
  period := 1
  laws := .ofList [("on", law)]

theorem meter_read [IsStrictOrderedRing K] :
    Sampling.read (meterAutomaton K law) 0 = .ok (meterSampling K law) := by
  have loop : SamplingLoop.read (meterAutomaton K law) (meterLoop K law) =
      .ok ⟨"on", "c", 1, "u", law⟩ := by
    have stored : (meterAutomaton K law).mode? (meterLoop K law).source = some (meterMode K) := rfl
    simp only [SamplingLoop.read, stored, meter_clocks, meter_periodOf, meter_sampledLaw]
    rfl
  have candidates : (meterAutomaton K law).transitions.filter SamplingLoop.isCandidate =
      [meterLoop K law] := rfl
  have agrees : SamplingLoop.agrees 0 ⟨"on", "c", 1, "u", law⟩ ⟨"on", "c", 1, "u", law⟩ = true := by
    have none : Scalar.abs (.finite 0 : Extended K) = .finite 0 := congrArg _ abs_zero
    simp [SamplingLoop.agrees, none]
  simp only [Sampling.read, candidates, bind_eq_ok_iff]
  refine ⟨_, mapM_eq_ok_iff.mpr (.cons (mapError_eq_ok_iff.mpr loop) .nil), ?_⟩
  simp only [List.find?_cons, agrees, Bool.not_true, List.find?_nil]
  rfl

end

/-! ### Without its loop -/

/-- Without its loop, the meter lets `u` rise at the rate two. -/
def followingMode : Mode (Extended K) where
  name := "on"
  flow := some (.ofList [("x", .exact (.num 2)), ("y", .exact (.var "u")),
    ("u", .exact (.num 2))])

def followingAutomaton : Automaton (Extended K) where
  vars := .ofList ["x", "y", "u"]
  modes := .ofList [("on", followingMode K)]

theorem meter_lieDerivative [IntegerPowers K] :
    (Expr.var "x" : Expr (Extended K)).lieDerivative (meterMode K).rates = .ok (.num 2) := by
  have terms : (Expr.var "x" : Expr (Extended K)).lieTerms (meterMode K).rates =
      .ok [.mul (.num 1) (.num 2)] := rfl
  have two : (2 : Extended K) = finite 2 := by simp
  have product : (Expr.mul (.num 1) (.num 2) : Expr (Extended K)).simplify = .num 2 := by
    rw [two]
    refine Expr.simplify_eq_num (fun _ => 0) _ rfl ?_
    exact Expr.value?_arith.mpr ⟨1, 2, by simp [Expr.value?], rfl, by simp [ArithOp.apply]⟩
  simp only [Expr.lieDerivative, bind_eq_ok_iff]
  exact ⟨_, terms, congrArg Except.ok product⟩

theorem meter_removeLoops [IntegerPowers K] :
    (meterSampling K (.var "x")).removeLoops (meterAutomaton K (.var "x")) =
      .ok (followingAutomaton K) := by
  have unlooped : (meterAutomaton K (.var "x")).transitions.filter (!SamplingLoop.isCandidate ·) =
      [] := rfl
  have followed : (meterMode K).followLaw "u" (.var "x") =
      .ok ((meterMode K).setFlow "u" (.exact (.num 2))) :=
    bind_eq_ok_iff.mpr ⟨_, meter_lieDerivative K, rfl⟩
  let following : Automaton (Extended K) := {
    vars := .ofList ["x", "y", "u", "c"]
    modes := .ofList [("on", (meterMode K).setFlow "u" (.exact (.num 2)))] }
  have follow : (meterSampling K (.var "x")).followLaws
      { meterAutomaton K (.var "x") with transitions := [] } = .ok following :=
    bind_eq_ok_iff.mpr ⟨_, bind_eq_ok_iff.mpr ⟨_, followed, rfl⟩, rfl⟩
  let stopped : Automaton (Extended K) := {
    vars := .ofList ["x", "y", "u", "c"]
    modes := .ofList [("on", followingMode K)] }
  have stripped : { following with
      modes := following.modes.map fun mode => mode.withoutClock "c"
      transitions := following.transitions.map fun t => t.withoutClock "c" } = stopped := rfl
  have unused : stopped.referenced.contains "c" = false := by rfl
  have dropped : stopped.dropUnused "c" = followingAutomaton K := by
    rw [Automaton.dropUnused, unused]
    rfl
  rw [Sampling.removeLoops, unlooped, follow, ← dropped, ← stripped]
  rfl

/-! ### Its window -/

/-- One window, as long as the period. -/
def meterSteps : MacroSteps (Extended K) where
  step := 1
  bloat := 0

/-- The window of the meter, over the values of `u`. -/
def meterWindow : Continuization (Extended K) where
  sampled := "u"
  period := 1
  breakpoints := [1]
  bloats := [0]
  target := .value

theorem meter_toContinuization :
    (meterSteps K).toContinuization (meterSampling K (.var "x")) 1 = meterWindow K := by
  have whole : (Scalar.ofInt 1 : Extended K) = finite (((1 : ℕ) : K) * 10 ^ (0 : ℤ)) := rfl
  have last : (Scalar.ofInt 1 : Extended K) * 1 = 1 := by
    rw [whole]
    simp
  have breakpoints : ((List.range 1).map fun (k : Nat) =>
      (Scalar.ofInt (k + 1 : Nat) : Extended K) * (meterSteps K).step) = [1] :=
    congrArg (fun b => [b]) last
  rw [MacroSteps.toContinuization, breakpoints]
  rfl

theorem meterWindow_check : (meterWindow K).check = .ok () := by
  simp [meterWindow, Continuization.check, Scalar.isPositive, Scalar.isNonNegative, misplaced?]

/-- The level rises too fast to measure time, so a clock is introduced. -/
theorem meterWindow_clockSource (pass : String) :
    (meterWindow K).clockSource (followingAutomaton K) pass = .ok (.introduced "t") := by
  have rising : (followingMode K).isClock "x" = false := by
    rw [Bool.eq_false_iff, Ne, Mode.isClock_iff]
    rintro ⟨rate, found, one⟩
    cases found
    simp at one
  have level : (followingAutomaton K).clockFault? "x" = some (followingMode K) := by
    have faulty : ((followingMode K).hasFlow && !(followingMode K).isClock "x") = true := by
      rw [rising]
      rfl
    exact List.find?_cons_of_pos faulty
  have total : ((followingAutomaton K).clockFault? "y").isNone = false := rfl
  have vars : (followingAutomaton K).vars.toList = ["x", "y", "u"] := rfl
  have beside : (followingAutomaton K).clockBeside? (meterWindow K).sampled = none := by
    simp [Automaton.clockBeside?, vars, level, total, meterWindow]
  have notAsked : (meterWindow K).clock = none := rfl
  simp only [Continuization.clockSource, notAsked, beside]
  rfl

section

variable [IsStrictOrderedRing K]

theorem meterSteps_windowCount : (meterSteps K).windowCount 1 = finite 1 := by
  have hair : (1e-9 : Extended K) = finite (((1 : ℕ) : K) * 10 ^ (-9 : ℤ)) := rfl
  have ceiling (x : K) : Scalar.ceil (finite x) = finite (⌈x⌉ : K) := rfl
  have whole : (⌈(1 : K) - 1 * 10 ^ (-9 : ℤ)⌉ : K) ≤ 1 := by
    rw [← Int.cast_one, Int.cast_le, Int.ceil_le, Int.cast_one, sub_le_self_iff]
    positivity
  rw [MacroSteps.windowCount, meterSteps, hair, ofNat_eq, Nat.cast_one, finite_div one_ne_zero,
    div_one, finite_sub, ceiling, greater_finite, max_eq_right whole]

theorem meterSteps_check (pass : String) : (meterSteps K).check 1 pass = .ok 1 := by
  have few : ¬Scalar.ofInt MacroSteps.maxWindows < (finite 1 : Extended K) := by
    have most : (Scalar.ofInt MacroSteps.maxWindows : Extended K) =
        finite (((10000 : ℕ) : K) * 10 ^ (0 : ℤ)) := rfl
    rw [most, finite_lt_finite]
    norm_num
  have whole : Scalar.wholePart 0 MacroSteps.maxWindows (finite 1 : Extended K) = 1 := by
    have part : Scalar.wholePart 0 MacroSteps.maxWindows (finite 1 : Extended K) =
        max 0 (min (MacroSteps.maxWindows : ℤ) (if (0 : K) ≤ 1 then ⌊(1 : K)⌋ else ⌈(1 : K)⌉)) :=
      rfl
    rw [part]
    simp [MacroSteps.maxWindows]
  simp only [MacroSteps.check, meterSteps_windowCount]
  simp [meterSteps, Scalar.isPositive, Scalar.isNonNegative, few, whole]
  rfl

theorem meterSteps_checkMultiple : (meterSteps K).checkMultiple 1 = .ok () := by
  have ratio : (meterSteps K).step / 1 = finite 1 := by
    rw [meterSteps, ofNat_eq, Nat.cast_one, finite_div one_ne_zero, div_one]
  have rounded : Scalar.round (finite 1 : Extended K) = finite 1 := by
    have nearest : Scalar.round (finite 1 : Extended K) = finite
        (if (0 : K) ≤ 1 then (⌊(1 : K) + 1 / 2⌋ : K) else (⌈(1 : K) - 1 / 2⌉ : K)) := rfl
    have below : ⌊(1 : K) + 1 / 2⌋ = 1 := by
      rw [Int.floor_eq_iff]
      norm_num
    rw [nearest, if_pos zero_le_one, below, Int.cast_one]
  have tolerance : ¬(1e-6 : Extended K) < finite 0 := by
    have written : (1e-6 : Extended K) = finite (((1 : ℕ) : K) * 10 ^ (-6 : ℤ)) := rfl
    rw [written, finite_lt_finite, not_lt]
    positivity
  have none : Scalar.abs (finite 0 : Extended K) = finite 0 := congrArg finite abs_zero
  rw [MacroSteps.checkMultiple, ratio, rounded, finite_sub, sub_self, none]
  simp [tolerance]

end

/-! ### Its continuization -/

/-- The meter without its loop, and with a clock in place. -/
def plainMeter : Model (Extended K) :=
  ((meter K (.var "x") ("", "")).withoutClock (followingAutomaton K) "c").withClock
    (followingAutomaton K) (.introduced "t")

def clockedAutomaton : Automaton (Extended K) := (followingAutomaton K).withClock (.introduced "t")

def clockedMode : Mode (Extended K) where
  name := "on"
  flow := some (.ofList [("x", .exact (.num 2)), ("y", .exact (.var "u")), ("u", .exact (.num 2)),
    ("t", .exact (.num 1))])

/-- Estimates start in one point, for the clock is zero and the other variables are not bounded. -/
theorem plainMeter_startPoints :
    ∃ point, (plainMeter K).startPoints (clockedAutomaton K) "on" false = .ok [point] := by
  let region : Expr (Extended K) := .eq (.var "t") (.num 0)
  have limits : (clockedAutomaton K).regionBox region = do
      return [← Limits.unlimited.range region "x", ← Limits.unlimited.range region "y",
        ← Limits.unlimited.range region "u",
        ← (Limits.unlimited.tighten .eq 0).range region "t"] := rfl
  have box : (clockedAutomaton K).regionBox region = .ok [.zero, .zero, .zero, .zero] := by
    rw [limits]
    simp [Limits.range, Limits.unlimited, Limits.tighten, Scalar.isFinite, Extended.lt_iff,
      Interval.make?, Interval.zero, Scalar.greater, Scalar.lesser, bind, Except.bind, pure,
      Except.pure]
  have points : (plainMeter K).startPoints (clockedAutomaton K) "on" false =
      Model.regionPoints (clockedAutomaton K).toScope false region := rfl
  rw [points]
  exact ⟨_, bind_eq_ok_iff.mpr ⟨_, box, rfl⟩⟩

variable (lo hi : K)

/-- What is estimated for the value of `u`, whatever the model is. -/
def meterContext : Context (Extended K) where
  tolerance := 0
  estimator := .scripted "bounds" fun windows => List.replicate windows ⟨finite lo, finite hi⟩

def meterRanges : NameMap (List (Interval (Extended K))) :=
  .ofList [("on", [⟨finite lo, finite hi⟩])]

theorem plainMeter_modeRanges :
    (meterWindow K).modeRanges (meterContext K lo hi) (plainMeter K) (clockedAutomaton K) ["on"] =
      .ok (meterRanges K lo hi) := by
  obtain ⟨point, hpoint⟩ := plainMeter_startPoints K
  have starts : (meterWindow K).starts (plainMeter K) (clockedAutomaton K) ["on"] =
      .ok [⟨"on", point⟩] := by
    simp only [Continuization.starts, bind_eq_ok_iff, pure_eq_ok_iff, List.mapM_cons,
      List.mapM_nil]
    exact ⟨_, ⟨_, ⟨_, hpoint, rfl⟩, _, rfl, rfl⟩, rfl⟩
  exact bind_eq_ok_iff.mpr ⟨_, starts, rfl⟩

/-- The range that is reported for the window of the meter. -/
def meterRange : WindowRange (Extended K) where
  mode := "on"
  windowMode := "on"
  window := ⟨0, 1⟩
  raw := ⟨finite lo, finite hi⟩
  bloated := ⟨finite lo, finite hi⟩

variable {lo hi} [IsStrictOrderedRing K]

theorem meterWindow_deviation (ordered : lo ≤ hi) : ∃ deviation,
    (meterWindow K).deviation (meterRange K lo hi).bloated = .ok deviation ∧
      deviation.Holds 0 := by
  have time : Interval.Holds (⟨-1, 0⟩ : Interval (Extended K)) 0 := by simp [Interval.Holds]
  have range : (meterRange K lo hi).bloated.Holds lo := ⟨le_rfl, ordered⟩
  obtain ⟨deviation, product, holds⟩ := time.mul range
  rw [zero_mul] at holds
  have make := Interval.make_eq_ok_iff.mpr ⟨time.ordered, rfl⟩
  exact ⟨deviation, bind_eq_ok_iff.mpr ⟨_, make, product⟩, holds⟩

/-- The rate of `y` is widened; the other rates do not mention `u`. -/
theorem meterWindow_widenFlow {deviation : Interval (Extended K)} (zero : deviation.Holds 0) :
    ∃ flow, (meterWindow K).widenFlow "on" deviation (.ofList [("x", .exact (.num 2)),
      ("y", .exact (.var "u")), ("u", .exact (.num 2)), ("t", .exact (.num 1))]) = .ok flow := by
  obtain ⟨extra, scaled, holds⟩ := zero.scale 1
  obtain ⟨noise, added, _⟩ := Interval.holds_zero.add holds
  have coefficient :
      (Expr.var "u" : Expr (Extended K)).linearCoefficient? "u" = some (.finite 1) := by
    rw [← Nat.cast_one, ← Extended.ofNat_eq]
    rfl
  have widened : (meterWindow K).widenRate "on" deviation ("y", .exact (.var "u")) =
      .ok ("y", ⟨.var "u", some noise⟩) :=
    (widenRate_eq_ok_iff_of_mentions rfl).mpr ⟨_, _, _, coefficient, scaled, added, rfl⟩
  have stays (y : String) (rate : Extended K) :
      (meterWindow K).widenRate "on" deviation (y, .exact (.num rate)) =
        .ok (y, .exact (.num rate)) :=
    widenRate_of_not_mentions rfl
  have rates := mapM_eq_ok_iff.mpr
    (.cons (stays "x" 2) (.cons widened (.cons (stays "u" 2) (.cons (stays "t" 1) .nil))))
  exact ⟨_, bind_eq_ok_iff.mpr ⟨_, rates, rfl⟩⟩

theorem meterWindow_expandWindow (ordered : lo ≤ hi) : ∃ part,
    (meterWindow K).expandWindow (clockedAutomaton K) "t" "on" (clockedMode K) (.num 2) 0 ⟨0, 1⟩
        ⟨finite lo, finite hi⟩ 0 = .ok part ∧ part.report = [meterRange K lo hi] := by
  obtain ⟨deviation, hdeviation, zero⟩ := meterWindow_deviation K ordered
  obtain ⟨flow, hflow⟩ := meterWindow_widenFlow K zero
  have bloated : (⟨finite lo, finite hi⟩ : Interval (Extended K)).bloat 0 =
      .ok ⟨finite lo, finite hi⟩ := by
    simp [Interval.bloat, Interval.make, ordered]
  have planned : (meterWindow K).planWindow (clockedAutomaton K) "on" 0 ⟨0, 1⟩
      ⟨finite lo, finite hi⟩ 0 = .ok ⟨0, meterRange K lo hi, deviation, none⟩ :=
    planWindow_eq_ok_iff.mpr ⟨rfl, _, _, bloated, hdeviation, rfl⟩
  obtain ⟨w, made⟩ : ∃ w, (meterWindow K).windowMode "t" "on" (clockedMode K)
      ⟨0, meterRange K lo hi, deviation, none⟩ = .ok w :=
    ⟨_, bind_eq_ok_iff.mpr ⟨_, map_eq_ok_iff.mpr ⟨_, hflow, rfl⟩, rfl⟩⟩
  have rate : Perturbed.expr (.exact (.num 2) : Perturbed (Extended K)) = .num 2 := rfl
  rw [← rate]
  exact ⟨_, expandWindow_eq_ok_iff.mpr ⟨_, w, planned, made, rfl⟩, rfl⟩

theorem plainMeter_synthesize (ordered : lo ≤ hi) : ∃ m',
    (meterWindow K).synthesize (plainMeter K) (clockedAutomaton K) "t" (meterRanges K lo hi) =
      .ok (m', [meterRange K lo hi]) := by
  obtain ⟨part, expanded, reported⟩ := meterWindow_expandWindow K ordered
  have windows : (meterWindow K).expandMode (clockedAutomaton K) "t" (meterRanges K lo hi)
      ("on", clockedMode K) = .ok [part] :=
    mapM_eq_ok_iff.mpr (.cons expanded .nil)
  have entries : (clockedAutomaton K).modes.entries = [("on", clockedMode K)] := rfl
  have report : [part].flatMap ModeWindows.report = [meterRange K lo hi] := by
    simp [reported]
  simp only [Continuization.synthesize, entries, bind_eq_ok_iff, pure_eq_ok_iff, Prod.mk.injEq]
  exact ⟨_, _, mapM_eq_ok_iff.mpr (.cons windows .nil), rfl, report⟩

/-- The meter is continuized, whatever is estimated for `u`. -/
theorem meter_continuizeTimeTriggered [IntegerPowers K] (ordered : lo ≤ hi) (pass : String) :
    ∃ m', (meter K (.var "x") ("", "")).continuizeTimeTriggered (meterSteps K)
      (meterContext K lo hi) pass = .ok (m', [meterRange K lo hi]) := by
  obtain ⟨windowed, synthesized⟩ := plainMeter_synthesize K ordered
  have continuized :
      ((meter K (.var "x") ("", "")).withoutClock (followingAutomaton K) "c").continuize
        (meterWindow K) (meterContext K lo hi) pass = .ok (windowed, [meterRange K lo hi]) := by
    simp only [Model.continuize, bind_eq_ok_iff, ofPass_eq_ok_iff]
    exact ⟨_, meterWindow_check K, _, rfl, _, rfl, _, meterWindow_clockSource K pass, _, rfl, _,
      plainMeter_modeRanges K lo hi, synthesized⟩
  obtain ⟨_, _, _, _, _, _, steps, _⟩ := Model.continuize_steps continuized
  rw [← meter_toContinuization] at continuized
  simp only [Model.continuizeTimeTriggered, bind_eq_ok_iff, ofPass_eq_ok_iff, liftEval_eq_ok_iff]
  exact ⟨_, _, meterSteps_check K pass, _, rfl, _, meter_read K (.var "x"), _,
    meterSteps_checkMultiple K, _, meter_removeLoops K, _, continuized, _, steps.result, rfl⟩

end

end HybridAutomata
