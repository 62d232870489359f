import HybridAutomata.Proofs.Continuization.EventTriggered
import HybridAutomata.Proofs.Exact.Affine
import HybridAutomata.Proofs.Exact.Intervals

/-!
# The sampling error is covered

Between two readings the sampled variable is off its law by the product of a time in `[-P, 0]` and a
rate in the bloated range of the window. Whatever that does to a rate of the mode, the interval
installed for the window allows for it: the rate is affine in the sampled variable, so it is off by
its coefficient times the deviation, and that product is added to the uncertainty of the rate.
-/

namespace HybridAutomata

open Continuization Success Extended

variable {K : Type} [Field K] [LinearOrder K] [IsStrictOrderedRing K] [FloorRing K] [Functions K]

namespace Continuization

variable {c : Continuization (Extended K)}

/-- The deviation holds the products of a time of up to one period with a rate in the range. -/
theorem holds_deviation {bloated deviation : Interval (Extended K)}
    (h : c.deviation bloated = .ok deviation) {p k : K} (hlo : -c.period ≤ finite p)
    (hhi : p ≤ 0) (hk : bloated.Holds k) : deviation.Holds (p * k) := by
  simp only [Continuization.deviation, bind_eq_ok_iff, Interval.make_eq_ok_iff] at h
  obtain ⟨_, ⟨_, rfl⟩, product⟩ := h
  have time : Interval.Holds ⟨-c.period, 0⟩ p := by
    refine ⟨hlo, ?_⟩
    rw [zero_eq]
    exact hhi
  obtain ⟨product', hproduct, holds⟩ := time.mul hk
  rw [product] at hproduct
  cases hproduct
  exact holds

/-- Wherever the original rate has a value, the installed one has all values that the original one
can have while the sampled variable deviates by a time in `[-P, 0]` times a rate in the range. -/
def CoversDeviation (c : Continuization (Extended K)) (bloated : Interval (Extended K))
    (original installed : Perturbed (Extended K)) : Prop :=
  ∀ v x, original.expr.value? v = some x →
    ∀ w, original.noiseOrZero.contains (finite w) = true →
    ∀ p k, -c.period ≤ finite p → p ≤ 0 → bloated.contains (finite k) = true →
      ∃ x', original.expr.value? (Function.update v c.sampled (v c.sampled + p * k)) = some x' ∧
        installed.noiseOrZero.contains (finite (x' + w - x)) = true

variable [IntegerPowers K]

/-- What is installed for a rate allows for every deviation of the sampled variable that was asked
for. -/
theorem holds_of_widenRate {mode y : String} {deviation : Interval (Extended K)}
    {original installed : Perturbed (Extended K)}
    (h : c.widenRate mode deviation (y, original) = .ok (y, installed))
    (polynomial : Expr.PolynomialIn c.sampled original.expr) {v : String → K} {x d : K}
    (hx : original.expr.value? v = some x) (hd : deviation.Holds d) :
    ∃ x', original.expr.value? (Function.update v c.sampled (v c.sampled + d)) = some x' ∧
      ∀ w, original.noiseOrZero.Holds w → installed.noiseOrZero.Holds (x' + w - x) := by
  cases mentions : original.expr.mentions c.sampled with
  | false =>
      rw [widenRate_of_not_mentions mentions] at h
      cases h
      refine ⟨x, by rw [Expr.value?_update mentions, hx], fun w hw => ?_⟩
      rwa [add_sub_cancel_left]
  | true =>
      obtain ⟨coefficient, extra, noise, found, scaled, added, rfl⟩ :=
        (widenRate_eq_ok_iff_of_mentions mentions).mp h
      obtain ⟨slope, rfl, affine⟩ := polynomial.affine hx found
      obtain ⟨extra', hextra, holds⟩ := hd.scale slope
      obtain rfl := Except.ok.inj (hextra.symm.trans scaled)
      refine ⟨_, affine d, fun w hw => ?_⟩
      obtain ⟨noise', hnoise, holds'⟩ := hw.add holds
      obtain rfl := Except.ok.inj (hnoise.symm.trans added)
      have difference : x + slope * d + w - x = w + d * slope := by ring
      rw [difference]
      exact holds'

theorem coversDeviation_of_widenRate {mode y : String} {bloated deviation : Interval (Extended K)}
    {original installed : Perturbed (Extended K)}
    (h : c.widenRate mode deviation (y, original) = .ok (y, installed))
    (hdeviation : c.deviation bloated = .ok deviation)
    (polynomial : Expr.PolynomialIn c.sampled original.expr) :
    CoversDeviation c bloated original installed := by
  intro v x hx w hw p k hlo hhi hk
  rw [Interval.contains_iff] at hw hk
  obtain ⟨x', hx', holds⟩ :=
    holds_of_widenRate h polynomial hx (holds_deviation hdeviation hlo hhi hk)
  exact ⟨x', hx', Interval.contains_iff.mpr (holds w hw)⟩

end Continuization

/-- In the windows of a report, every rate has the formula it had once the clock was in place, and
its interval covers the deviation of the sampled variable. -/
structure SamplingCovered (c : Continuization (Extended K)) (source : ClockSource)
    (a a' : Automaton (Extended K)) (report : List (WindowRange (Extended K))) : Prop where
  covers : ∀ r ∈ report, ∃ mode w, a.mode? r.mode = some mode ∧ a'.mode? r.windowMode = some w ∧
    ∀ y, ((mode.withClock source).flowOf? y = none ∧ w.flowOf? y = none) ∨
      ∃ original installed, (mode.withClock source).flowOf? y = some original ∧
        w.flowOf? y = some installed ∧ installed.expr = original.expr ∧
        (Expr.PolynomialIn c.sampled original.expr → c.CoversDeviation r.bloated original installed)
  /-- The report has every window of every continuized mode. -/
  complete : ∀ mode ∈ a.modes.values, mode.urgent = false →
    (mode.flowOf? c.sampled).isSome = true → mode.name ∈ a.modes.keys →
    ∀ index < c.breakpoints.length, ∃ r ∈ report, r.mode = mode.name ∧
      r.windowMode = windowName mode.name index ∧ c.windows[index]? = some r.window

/-- A continuization allows for all that the held value of the sampled variable does to the
rates. -/
theorem Model.continuize_covers_deviation [IntegerPowers K] {m m' : Model (Extended K)}
    {c : Continuization (Extended K)} {ctx : Context (Extended K)} {pass : String}
    {report : List (WindowRange (Extended K))}
    (success : m.continuize c ctx pass = .ok (m', report)) :
    ∃ a a' source, m.automaton = .ok a ∧ m'.automaton = .ok a' ∧
      c.clockSource a pass = .ok source ∧ SamplingCovered c source a a' report := by
  obtain ⟨a, a', source, ranges, parts, hsource, steps⟩ := continuize_eq_ok success
  refine ⟨a, a', source, steps.flat, steps.result, hsource, ?_, ?_⟩
  · intro r mem
    obtain ⟨name, index, clocked, rate, plan, w, window, rfl⟩ := steps.made.mem_report.mp mem
    obtain ⟨mode, found, rfl⟩ := Continuized.mode?_clocked window.mode
    refine ⟨mode, w, window.rangeMode ▸ found,
      window.rangeWindowMode ▸ steps.made.mode?_windowName window, ?_⟩
    intro y
    obtain ⟨before, after⟩ | ⟨original, installed, before, after, widen⟩ :=
        (windowMode_eq_ok window.made).2.2.2.2 y
    · exact .inl ⟨before, after⟩
    · exact .inr ⟨original, installed, before, after, expr_of_widenRate widen,
        coversDeviation_of_widenRate widen window.deviation⟩
  · intro mode mem moving flows stored index hindex
    have continuized : mode.name ∈ ranges.keys :=
      (steps.keys mode.name).mpr ⟨mode, mem, rfl, moving, flows⟩
    obtain ⟨found, hfound⟩ := NameMap.mem_keys_iff.mp stored
    have clocked : (a.withClock source).mode? mode.name = some (found.withClock source) := by
      rw [Automaton.mode?_withClock, Automaton.mode?, hfound, Option.map_some]
    obtain ⟨rate, plan, w, window⟩ := steps.made.windows mode.name continuized _ clocked index
      (by rwa [length_windows])
    exact ⟨plan.range, steps.made.mem_report.mpr ⟨_, _, _, _, _, _, window, rfl⟩, window.rangeMode,
      window.rangeWindowMode, window.window⟩

/-- The rate of `y` in the ramp is `u`, and what is installed for it covers the deviation. -/
theorem ramp_covers_deviation : ∃ m' report,
    (ramp ℚ).continuize (rampSampling ℚ) (rampContext ℚ) "continuize" = .ok (m', report) ∧
      ∃ a', m'.automaton = .ok a' ∧
        SamplingCovered (rampSampling ℚ) (.introduced "t") (rampAutomaton ℚ) a' report := by
  obtain ⟨m', report, success⟩ := ramp_continuize ℚ "continuize"
  obtain ⟨a, a', source, flat, result, clock, covered⟩ :=
    Model.continuize_covers_deviation success
  obtain rfl : rampAutomaton ℚ = a := Except.ok.inj flat
  obtain rfl : .introduced "t" = source :=
    Except.ok.inj ((ramp_clockSource ℚ "continuize").symm.trans clock)
  exact ⟨m', report, success, a', result, covered⟩

end HybridAutomata
