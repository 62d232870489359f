import HybridAutomata.Proofs.Automaton.Runs
import HybridAutomata.Proofs.Continuization.InsideWindows
import HybridAutomata.Proofs.Continuization.SamplingError
import HybridAutomata.Proofs.Continuization.TimeTriggered

/-!
# The sampling error of a law

Between two samples the sampled variable keeps a value that its law had up to one period ago. The
rates of a window are widened for the product of a time in `[-P, 0]` with a number from the range of
the window. That covers the difference from the present value of the law if the law changes at rates
in the range. The range of a time-triggered window is one of values, though, and so are the
conditions under which it is left: values in the range are enough only for a range that lies on both
sides of zero, no wider than the period times either of its bounds.
-/

namespace HybridAutomata

open Continuization Success Extended

/-! ## Rates of change -/

/-- The numbers change without jumps, at rates in a range. -/
structure ChangesWithin (range : Interval (Extended ℝ)) (f : ℝ → ℝ) (first last : ℝ) : Prop where
  continuous : ContinuousOn f (Set.Icc first last)
  rates : ∀ t ∈ Set.Ico first last, ∃ rate, range.Holds rate ∧
    HasDerivWithinAt f rate (Set.Ici t) t

theorem hasDerivWithinAt_line (value slope t : ℝ) :
    HasDerivWithinAt (fun t => value + slope * t) slope (Set.Ici t) t := by
  have scaled := ((hasDerivAt_id t).const_mul slope).const_add value
  rw [mul_one] at scaled
  exact scaled.hasDerivWithinAt

namespace ChangesWithin

variable {range : Interval (Extended ℝ)} {f : ℝ → ℝ} {first last : ℝ}

theorem mono (h : ChangesWithin range f first last) {first' last' : ℝ} (le : first ≤ first')
    (le' : last' ≤ last) : ChangesWithin range f first' last' where
  continuous := h.continuous.mono (Set.Icc_subset_Icc le le')
  rates t ht := h.rates t (Set.Ico_subset_Ico le le' ht)

theorem le_sub (h : ChangesWithin range f first last) (le : first ≤ last) {lower : ℝ}
    (bound : range.min = finite lower) : lower * (last - first) ≤ f last - f first := by
  choose! rate inside derivative using h.rates
  have below := image_le_of_deriv_right_le_deriv_boundary (by fun_prop)
    (fun t _ => hasDerivWithinAt_line (f first - lower * first) lower t) (by simp) h.continuous
    derivative (fun t ht => finite_le_finite.mp (bound ▸ (inside t ht).1))
    (Set.right_mem_Icc.mpr le)
  linarith

theorem sub_le (h : ChangesWithin range f first last) (le : first ≤ last) {upper : ℝ}
    (bound : range.max = finite upper) : f last - f first ≤ upper * (last - first) := by
  choose! rate inside derivative using h.rates
  have above := image_le_of_deriv_right_le_deriv_boundary h.continuous derivative (by simp)
    (by fun_prop) (fun t _ => hasDerivWithinAt_line (f first - upper * first) upper t)
    (fun t ht => finite_le_finite.mp (bound ▸ (inside t ht).2)) (Set.right_mem_Icc.mpr le)
  linarith

/-- On average, too, the numbers change at a rate in the range. -/
theorem holds_slope (h : ChangesWithin range f first last) (lt : first < last) :
    range.Holds ((f last - f first) / (last - first)) := by
  obtain ⟨rate, ⟨lower, upper⟩, _⟩ := h.rates first (Set.left_mem_Ico.mpr lt)
  have positive : 0 < last - first := sub_pos.mpr lt
  constructor
  · cases bound : range.min with
    | finite lo =>
        rw [finite_le_finite, le_div_iff₀ positive]
        exact h.le_sub lt.le bound
    | undefined => simp [bound] at lower
    | posInf => simp [bound] at lower
    | negInf => simp
  · cases bound : range.max with
    | finite hi =>
        rw [finite_le_finite, div_le_iff₀ positive]
        exact h.sub_le lt.le bound
    | undefined => simp [bound] at upper
    | posInf => simp
    | negInf => simp [bound] at upper

end ChangesWithin

/-! ## The deviation -/

namespace Continuization

section

variable {c : Continuization (Extended ℝ)} {range deviation : Interval (Extended ℝ)} {period : ℝ}

/-- What changes at rates in the range of a window deviates by what was computed for it. -/
theorem holds_deviation_of_changesWithin (h : c.deviation range = .ok deviation)
    (hperiod : c.period = finite period) {f : ℝ → ℝ} {held now : ℝ} (le : held ≤ now)
    (recent : now ≤ held + period) (changes : ChangesWithin range f held now) :
    deviation.Holds (f held - f now) := by
  obtain lt | rfl := le.lt_or_eq
  · have product : f held - f now = (held - now) * ((f now - f held) / (now - held)) := by
      rw [mul_div_assoc', eq_div_iff (sub_pos.mpr lt).ne']
      ring
    rw [product]
    refine holds_deviation h ?_ (sub_nonpos.mpr le) (changes.holds_slope lt)
    rw [hperiod, neg_finite, finite_le_finite]
    linarith
  · rw [sub_self]
    exact holds_zero_of_deviation h

variable {lo hi : ℝ}

theorem deviation_eq (h : c.deviation ⟨finite lo, finite hi⟩ = .ok deviation)
    (hperiod : c.period = finite period) (positive : 0 < period) (ordered : lo ≤ hi) :
    deviation = ⟨finite (min (-(period * hi)) 0), finite (max (-(period * lo)) 0)⟩ := by
  simp only [Continuization.deviation, bind_eq_ok_iff, Interval.make_eq_ok_iff] at h
  obtain ⟨_, ⟨_, rfl⟩, product⟩ := h
  have least (x : ℝ) : Scalar.lesser posInf (finite x) = finite x := by
    simp [Scalar.lesser, lt_iff]
  have greatest (x : ℝ) : Scalar.greater negInf (finite x) = finite x := by
    simp [Scalar.greater, lt_iff]
  simp only [Interval.mul, hperiod, neg_finite, zero_eq, Interval.mulBound_finite,
    Interval.cornerHull, List.foldl_cons, List.foldl_nil, infinity_eq, neg_posInf, least, greatest,
    lesser_finite, greater_finite, Interval.make_eq_ok_iff] at product
  obtain ⟨_, rfl⟩ := product
  have longest : -(period * hi) ≤ -(period * lo) :=
    neg_le_neg (mul_le_mul_of_nonneg_left ordered positive.le)
  simp [longest]

/-- Any two numbers of the range differ by a deviation that was computed for it exactly if the range
is a point, or lies on both sides of zero and is not wider than the period times either bound. -/
theorem deviation_holds_sub_iff (h : c.deviation ⟨finite lo, finite hi⟩ = .ok deviation)
    (hperiod : c.period = finite period) (positive : 0 < period) (ordered : lo ≤ hi) :
    (∀ k ∈ Set.Icc lo hi, ∀ k' ∈ Set.Icc lo hi, deviation.Holds (k - k')) ↔
      lo = hi ∨ hi - lo ≤ period * hi ∧ hi - lo ≤ period * -lo := by
  have holds (d : ℝ) : deviation.Holds d ↔
      min (-(period * hi)) 0 ≤ d ∧ d ≤ max (-(period * lo)) 0 := by
    rw [deviation_eq h hperiod positive ordered]
    rfl
  simp only [holds]
  constructor
  · intro covered
    obtain lt | same := ordered.lt_or_eq
    · right
      obtain ⟨_, above⟩ := covered hi ⟨ordered, le_rfl⟩ lo ⟨le_rfl, ordered⟩
      obtain ⟨below, _⟩ := covered lo ⟨le_rfl, ordered⟩ hi ⟨ordered, le_rfl⟩
      constructor
      · obtain below | below := min_le_iff.mp below <;> linarith
      · obtain above | above := le_max_iff.mp above <;> linarith
    · exact .inl same
  · rintro wide k ⟨hlo, hhi⟩ k' ⟨hlo', hhi'⟩
    obtain rfl | ⟨upper, lower⟩ := wide
    · exact ⟨min_le_of_right_le (by linarith), le_max_of_le_right (by linarith)⟩
    · exact ⟨min_le_of_left_le (by linarith), le_max_of_le_left (by linarith)⟩

end

end Continuization

/-! ## The windows of a law -/

/-- Now that the law has the value `now`, a rate of a window allows what the rate of the mode allows
while the sampled variable has kept the value `held`. -/
def AllowsHeld (sampled : String) (x : Valuation) (held now : ℝ)
    (original installed : Perturbed (Extended ℝ)) : Prop :=
  ∀ value, original.expr.value? (Function.update x sampled now) = some value →
    ∃ value', original.expr.value? (Function.update x sampled held) = some value' ∧
      ∀ noise, original.noiseOrZero.Holds noise → installed.Allows x (value' + noise)

theorem allowsHeld_of_widenRate {c : Continuization (Extended ℝ)} {mode y : String}
    {deviation : Interval (Extended ℝ)} {original installed : Perturbed (Extended ℝ)}
    (h : c.widenRate mode deviation (y, original) = .ok (y, installed))
    (polynomial : Expr.PolynomialIn c.sampled original.expr) {law : Expr (Extended ℝ)}
    {x : Valuation} {held now : ℝ} (hlaw : law.eval (Expr.assign x) = .ok (finite now))
    (hd : deviation.Holds (held - now)) :
    AllowsHeld c.sampled x held now original
      (installed.mapExpr (·.substitute c.sampled law)) := by
  intro value hvalue
  have inlined : (installed.expr.substitute c.sampled law).eval (Expr.assign x) =
      .ok (finite value) := by
    rw [expr_of_widenRate h, Expr.eval_substitute hlaw, ← Expr.assign_update]
    exact Expr.eval_of_value? _ _ hvalue
  obtain ⟨value', hvalue', allows⟩ := holds_of_widenRate h polynomial hvalue hd
  rw [Function.update_self, Function.update_idem, add_sub_cancel] at hvalue'
  exact ⟨value', hvalue', fun noise hnoise =>
    ⟨value, _, inlined, allows noise hnoise, (add_sub_cancel _ _).symm⟩⟩

/-- What a window does about a law: the interval that its rates are widened for covers the deviation
along trajectories on which the law changes at rates in the range, and the widened rates allow for
it; and it covers the difference of any two values in the range only if the range is wide to both
sides of zero. -/
structure CoversLaw (s : Sampling (Extended ℝ)) (law : Expr (Extended ℝ))
    (a : Automaton (Extended ℝ)) (m w : Mode (Extended ℝ)) (range deviation : Interval (Extended ℝ))
    (period : ℝ) : Prop where
  changing : ∀ (path : ℝ → Valuation) (f : ℝ → ℝ) (first last : ℝ),
    (∀ t ∈ Set.Icc first last, law.eval (Expr.assign (path t)) = .ok (finite (f t))) →
    ChangesWithin range f first last →
    ∀ held now, first ≤ held → held ≤ now → now ≤ last → now ≤ held + period →
      deviation.Holds (f held - f now) ∧
      ∀ y ∈ a.declared, y ≠ s.sampled → y ≠ s.clock → ∀ original, m.flowOf? y = some original →
        Expr.PolynomialIn s.sampled original.expr → ∃ installed, w.flowOf? y = some installed ∧
          AllowsHeld s.sampled (path now) (f held) (f now) original installed
  staying : ∀ lo hi, range = ⟨finite lo, finite hi⟩ → lo ≤ hi →
    ((∀ k ∈ Set.Icc lo hi, ∀ k' ∈ Set.Icc lo hi, deviation.Holds (k - k')) ↔
      lo = hi ∨ hi - lo ≤ period * hi ∧ hi - lo ≤ period * -lo)

/-- What a time-triggered continuization does about the laws that were read. In a valid model, these
are the laws of the loops, and no window is left out. -/
structure LawsCovered (c : Continuization (Extended ℝ)) (s : Sampling (Extended ℝ))
    (m : Model (Extended ℝ)) (a a' : Automaton (Extended ℝ))
    (report : List (WindowRange (Extended ℝ))) (period : ℝ) : Prop where
  isPeriod : s.period = finite period
  positive : 0 < period
  covers : ∀ r ∈ report, ∀ law, s.laws.find? r.mode = some law → ∃ mode w deviation,
    a.mode? r.mode = some mode ∧ a'.mode? r.windowMode = some w ∧
      c.deviation r.bloated = .ok deviation ∧
      CoversLaw s law a mode w r.bloated deviation period
  laws : m.Valid → ∀ mode law, s.laws.find? mode = some law ↔ a.Samples mode s.sampled law
  complete : m.Valid → ∀ mode, a.continuizes s.sampled mode = true →
    ∀ index < c.breakpoints.length, ∃ r ∈ report, r.mode = mode ∧
      r.windowMode = windowName mode index

/-- Windows of a time-triggered continuization cover the sampling error of a law that changes at
rates in their ranges; that its values stay in a range is enough exactly for certain ranges. -/
theorem Model.continuizeTimeTriggered_coversLaw {m m' : Model (Extended ℝ)}
    {p : MacroSteps (Extended ℝ)} {ctx : Context (Extended ℝ)} {pass : String}
    {report : List (WindowRange (Extended ℝ))}
    (success : m.continuizeTimeTriggered p ctx pass = .ok (m', report)) :
    ∃ count a s a' period, p.check m.settings.horizon pass = .ok count ∧ m.automaton = .ok a ∧
      Sampling.read a ctx.tolerance = .ok s ∧ m'.automaton = .ok a' ∧
      LawsCovered (p.toContinuization s count) s m a a' report period := by
  obtain ⟨count, s, a, left, windowed, source, ranges, parts, checked, success, steps⟩ :=
    continuizeTimeTriggered_steps success
  obtain ⟨period, hperiod, positive⟩ := steps.windows.accepted.period_eq
  have readOff (valid : m.Valid) := Sampling.read_eq_ok (valid.storedByName steps.flat) success
  refine ⟨count, a, s, _, period, checked, steps.flat, success, steps.result, {
    isPeriod := steps.period.symm.trans hperiod
    positive
    covers := ?_
    laws := fun valid => (readOff valid).laws
    complete := ?_ }⟩
  · intro r mem law found
    obtain ⟨mode, w, deviation, stored, made, hdeviation, widened⟩ :=
      steps.exists_widenRate mem found
    refine ⟨mode, w, deviation, stored, made, hdeviation, {
      changing := ?_
      staying := ?_ }⟩
    · intro path f first last values changes held now le le' le'' recent
      have deviates := holds_deviation_of_changesWithin hdeviation hperiod le' recent
        (changes.mono le le'')
      refine ⟨deviates, fun y declared notSampled notClock original given polynomial => ?_⟩
      obtain ⟨rate, widen, installed⟩ := widened y declared notSampled notClock original given
      refine ⟨_, installed, ?_⟩
      exact allowsHeld_of_widenRate widen polynomial (values now ⟨le.trans le', le''⟩) deviates
    · rintro lo hi range ordered
      exact deviation_holds_sub_iff (range ▸ hdeviation) hperiod positive ordered
  · intro valid mode continuized index hindex
    have kept := steps.wellFormed_left (readOff valid) (valid_iff.mp valid)
    exact steps.exists_mem_report (readOff valid) kept continuized hindex

/-! ## The meter between two samples -/

/-- The rates of the meter after a sample at the level `start`. -/
def meterSlope (start : ℝ) : Valuation := fun name =>
  if name = "x" then (2 : ℕ) else if name = "y" then start else if name = "c" then 1 else 0

/-- The meter after a sample at the level `start`, which `u` holds while the level rises. -/
noncomputable def meterPath (start t : ℝ) : Valuation := fun name =>
  (if name = "x" ∨ name = "u" then start else 0) + meterSlope start name * t

theorem meter_evolves (start : ℝ) : (meterMode ℝ).Evolves 1 (meterPath start) where
  nonneg := zero_le_one
  hasFlow := rfl
  invariant _ _ := rfl
  continuous y := by
    unfold meterPath
    fun_prop
  moves := by
    intro y rate found t _
    have mem : (y, rate) ∈ [("x", .exact (.num 2)), ("y", .exact (.var "u")),
      ("u", .exact (.num 0)), ("c", .exact (.num 1))] := NameMap.find?_eq_some_iff.mp found
    simp only [List.mem_cons, Prod.mk.injEq, List.not_mem_nil, or_false] at mem
    have exact_ {e : Expr (Extended ℝ)} (h : e.eval (Expr.assign (meterPath start t)) =
        .ok (finite (meterSlope start y))) :
        (Perturbed.exact e).Allows (meterPath start t) (meterSlope start y) :=
      ⟨_, 0, h, Interval.holds_zero, (add_zero _).symm⟩
    refine ⟨meterSlope start y, ?_, hasDerivWithinAt_line _ _ t⟩
    obtain ⟨rfl, rfl⟩ | ⟨rfl, rfl⟩ | ⟨rfl, rfl⟩ | ⟨rfl, rfl⟩ := mem <;>
      exact exact_ (by simp [Expr.eval, Expr.assign, meterSlope, meterPath])
  still := by
    intro y found t _
    have absent : y ∉ ["x", "y", "u", "c"] := NameMap.find?_eq_none_iff.mp found
    simp only [List.mem_cons, List.not_mem_nil, or_false, not_or] at absent
    simp [meterPath, meterSlope, absent]

theorem meter_level (start t : ℝ) :
    (Expr.var "x" : Expr (Extended ℝ)).eval (Expr.assign (meterPath start t)) =
      .ok (finite (start + 2 * t)) := by
  simp [Expr.eval, Expr.assign, meterPath, meterSlope]

/-- Where the range is from zero to four, it contains the rate of the level, and at the end of a
period the rate of `y` allows for the level that was sampled at its beginning. -/
theorem meter_coversLaw : ∃ m' a' w deviation installed,
    (meter ℝ (.var "x") ("", "")).continuizeTimeTriggered (meterSteps ℝ) (meterContext ℝ 0 4)
        "continuize" = .ok (m', [meterRange ℝ 0 4]) ∧
      m'.automaton = .ok a' ∧ a'.mode? "on" = some w ∧
      (meterWindow ℝ).deviation (meterRange ℝ 0 4).bloated = .ok deviation ∧
      deviation.Holds (0 + 2 * 0 - (0 + 2 * 1)) ∧ w.flowOf? "y" = some installed ∧
      AllowsHeld "u" (meterPath 0 1) (0 + 2 * 0) (0 + 2 * 1) (.exact (.var "u")) installed := by
  obtain ⟨m', success⟩ := meter_continuizeTimeTriggered ℝ zero_le_four "continuize"
  obtain ⟨count, a, s, a', period, checked, flat, read, result, covered⟩ :=
    Model.continuizeTimeTriggered_coversLaw success
  obtain rfl : 1 = count := Except.ok.inj ((meterSteps_check ℝ "continuize").symm.trans checked)
  obtain rfl : meterAutomaton ℝ (.var "x") = a := Except.ok.inj flat
  obtain rfl : meterSampling ℝ (.var "x") = s :=
    Except.ok.inj ((meter_read ℝ (.var "x")).symm.trans read)
  obtain ⟨m, w, deviation, found, made, hdeviation, covers⟩ :=
    covered.covers (meterRange ℝ 0 4) (List.mem_singleton_self _) (.var "x") rfl
  obtain rfl : meterMode ℝ = m := Option.some.inj found
  obtain rfl : 1 = period := by
    have length := covered.isPeriod
    rw [meterSampling, ofNat_eq, Nat.cast_one] at length
    exact Extended.finite.inj length
  have changes : ChangesWithin (meterRange ℝ 0 4).bloated (fun t => 0 + 2 * t) 0 1 := {
    continuous := by fun_prop
    rates := fun t _ => ⟨2, by norm_num [meterRange, Interval.Holds], hasDerivWithinAt_line 0 2 t⟩ }
  obtain ⟨holds, rates⟩ := covers.changing (meterPath 0) _ 0 1 (fun t _ => meter_level 0 t) changes
    0 1 le_rfl zero_le_one le_rfl (zero_add 1).ge
  obtain ⟨installed, given, allows⟩ :=
    rates "y" (by decide) (by decide) (by decide) (.exact (.var "u")) rfl .var
  exact ⟨m', a', w, deviation, installed, success, result, made,
    meter_toContinuization ℝ ▸ hdeviation, holds, given, allows⟩

/-- Where the range is from minus two to zero, the meter is not outside of it while its level rises
from one end to the other. At the end of the period, the level that was sampled at its beginning is
two below the present one, but the window allows for deviations upwards only. -/
theorem meter_deviation_not_covered : ∃ m' deviation,
    (meter ℝ (.var "x") ("", "")).continuizeTimeTriggered (meterSteps ℝ) (meterContext ℝ (-2) 0)
        "continuize" = .ok (m', [meterRange ℝ (-2) 0]) ∧
      (meterWindow ℝ).deviation (meterRange ℝ (-2) 0).bloated = .ok deviation ∧
      (meterMode ℝ).Evolves 1 (meterPath (-2)) ∧
      (∀ t ∈ Set.Icc (0 : ℝ) 1, (Expr.var "x" : Expr (Extended ℝ)).eval
        (Expr.assign (meterPath (-2) t)) = .ok (finite (-2 + 2 * t)) ∧
        (meterRange ℝ (-2) 0).bloated.Holds (-2 + 2 * t)) ∧
      ¬deviation.Holds (-2 + 2 * 0 - (-2 + 2 * 1)) := by
  have ordered : (-2 : ℝ) ≤ 0 := by norm_num
  obtain ⟨m', success⟩ := meter_continuizeTimeTriggered ℝ ordered "continuize"
  obtain ⟨deviation, hdeviation, _⟩ := meterWindow_deviation ℝ ordered
  refine ⟨m', deviation, success, hdeviation, meter_evolves (-2), ?_, ?_⟩
  · rintro t ⟨lower, upper⟩
    refine ⟨meter_level (-2) t, ?_⟩
    rw [meterRange, Interval.Holds, finite_le_finite, finite_le_finite]
    constructor <;> linarith
  · have period : (meterWindow ℝ).period = finite 1 := by
      rw [meterWindow, ofNat_eq, Nat.cast_one]
    rw [deviation_eq hdeviation period one_pos ordered]
    norm_num [Interval.Holds]

end HybridAutomata
