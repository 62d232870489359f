import HybridAutomata.Proofs.Continuization.EventTriggered
import HybridAutomata.Proofs.Continuization.JoinedRanges

/-!
# Larger margins

A continuization takes its safety margins from two parameters: whether estimates also start at the
star points, and the amounts by which ranges are bloated. Enlarging them never gives a less safe
model. Two runs that differ in nothing else make the same modes and transitions in the same order;
every range of the first run is inside the one of the second, and an error that is detected with the
larger margins is detected with the smaller ones as well.
-/

namespace HybridAutomata

open Continuization Extended Success

variable {K : Type} [Field K] [LinearOrder K] [FloorRing K] [Functions K]

/-- Parameters with other margins. -/
abbrev Continuization.withMargins (c : Continuization (Extended K)) (blowup : Bool)
    (bloats : List (Extended K)) : Continuization (Extended K) :=
  { c with blowup, bloats }

/-- Parameters that differ in the margins only, which are larger in the second ones. -/
structure Continuization.WiderMargins (c c' : Continuization (Extended K)) : Prop where
  same : c' = c.withMargins c'.blowup c'.bloats
  blowup : c.blowup = true → c'.blowup = true
  bloats : List.Forall₂ (· ≤ ·) c.bloats c'.bloats

/-! ## Comparing the results -/

/-- The formula is the same, and the interval is inside the other one. -/
structure Perturbed.Within (p p' : Perturbed (Extended K)) : Prop where
  expr : p'.expr = p.expr
  noise : p.noiseOrZero.Within p'.noiseOrZero

/-- Two modes that differ in the intervals of their rates, which are inside those of the other. -/
structure Mode.Within (m m' : Mode (Extended K)) : Prop where
  name : m'.name = m.name
  urgent : m'.urgent = m.urgent
  invariant : m'.invariant = m.invariant
  hasFlow : m'.hasFlow = m.hasFlow
  rates : ∀ y, Option.Rel Perturbed.Within (m.flowOf? y) (m'.flowOf? y)

/-- Two transitions that differ in their guards; the first is enabled wherever the second is. -/
structure Transition.Within (t t' : Transition (Extended K)) : Prop where
  source : t'.source = t.source
  target : t'.target = t.target
  reset : t'.reset = t.reset
  guard : ∀ env, t'.guard.holds env = .ok true → t.guard.holds env = .ok true

/-- The ranges of one window of a mode, inside one another. -/
structure WindowRange.Within (r r' : WindowRange (Extended K)) : Prop where
  mode : r'.mode = r.mode
  windowMode : r'.windowMode = r.windowMode
  window : r'.window = r.window
  raw : r.raw.Inside r'.raw
  bloated : r.bloated.Inside r'.bloated

/-- The same modes and transitions in the same order, each within the other. -/
structure Automaton.Within (a a' : Automaton (Extended K)) : Prop where
  scope : a'.toScope = a.toScope
  modes : NameMap.Related Mode.Within a.modes a'.modes
  transitions : List.Forall₂ Transition.Within a.transitions a'.transitions

theorem Perturbed.Within.refl (p : Perturbed (Extended K)) : p.Within p := ⟨rfl, .inl rfl⟩

theorem Mode.Within.refl (m : Mode (Extended K)) : m.Within m where
  name := rfl
  urgent := rfl
  invariant := rfl
  hasFlow := rfl
  rates y := by
    cases m.flowOf? y with
    | none => exact .none
    | some rate => exact .some (.refl rate)

theorem Transition.Within.refl (t : Transition (Extended K)) : t.Within t :=
  ⟨rfl, rfl, rfl, fun _ => id⟩

/-! ## One window -/

namespace Continuization

variable [IsStrictOrderedRing K] {c : Continuization (Extended K)}

/-- Two plans for one window of a mode. -/
structure PlanWithin (plan plan' : WindowPlan (Extended K)) : Prop where
  index : plan'.index = plan.index
  nextMode : plan'.nextMode = plan.nextMode
  range : plan.range.Within plan'.range
  deviation : plan.deviation.Inside plan'.deviation
  ordered : plan.deviation.Ordered

/-- The deviation grows with the range. -/
theorem deviation_inside {bloated bloated' deviation deviation' : Interval (Extended K)}
    (inside : bloated.Inside bloated') (ordered : bloated.Ordered)
    (h : c.deviation bloated = .ok deviation) (h' : c.deviation bloated' = .ok deviation') :
    deviation.Inside deviation' ∧ deviation.Ordered := by
  simp only [Continuization.deviation, bind_eq_ok_iff] at h h'
  obtain ⟨time, made, product⟩ := h
  obtain ⟨time', made', product'⟩ := h'
  obtain rfl : time = time' := Except.ok.inj (made.symm.trans made')
  have period := Interval.ordered_of_make made
  exact ⟨(Interval.Inside.refl_of_ordered period).mul inside period ordered product product',
    Interval.ordered_of_make product⟩

/-- Two numbers by which ranges are bloated, the second one at least as large. -/
def BloatLe (bloat bloat' : Extended K) : Prop :=
  ∃ x y, bloat = finite x ∧ bloat' = finite y ∧ x ≤ y

omit [IsStrictOrderedRing K] in
/-- What the check of the parameters accepts is finite. -/
theorem bloatLe_of_nonNegative {bloat bloat' : Extended K}
    (h : Scalar.isNonNegative bloat = true) (h' : Scalar.isNonNegative bloat' = true)
    (le : bloat ≤ bloat') : BloatLe bloat bloat' := by
  simp only [Scalar.isNonNegative, Bool.and_eq_true, isFinite_iff] at h h'
  obtain ⟨⟨x, rfl⟩, _⟩ := h
  obtain ⟨⟨y, rfl⟩, _⟩ := h'
  exact ⟨x, y, rfl, rfl, le⟩

theorem planWindow_within {a : Automaton (Extended K)} {mode : String} {index : Nat}
    {window raw raw' : Interval (Extended K)} {bloat bloat' : Extended K}
    {plan plan' : WindowPlan (Extended K)} (reaches : raw.Reaches raw') (le : BloatLe bloat bloat')
    (h : c.planWindow a mode index window raw bloat = .ok plan)
    (h' : c.planWindow a mode index window raw' bloat' = .ok plan') :
    PlanWithin plan plan' := by
  obtain ⟨x, y, rfl, rfl, le⟩ := le
  obtain ⟨_, bloated, deviation, hbloated, hdeviation, rfl⟩ := planWindow_eq_ok_iff.mp h
  obtain ⟨_, bloated', deviation', hbloated', hdeviation', rfl⟩ := planWindow_eq_ok_iff.mp h'
  obtain ⟨rawInside, inside⟩ := reaches.bloat le hbloated hbloated'
  obtain ⟨deviationInside, ordered⟩ :=
    deviation_inside inside (Interval.ordered_of_make hbloated) hdeviation hdeviation'
  exact ⟨rfl, rfl, ⟨rfl, rfl, rfl, rawInside, inside⟩, deviationInside, ordered⟩

/-- A rate is widened by more if the deviation is larger. -/
theorem widenRate_within {mode y : String} {deviation deviation' : Interval (Extended K)}
    {rate widened widened' : Perturbed (Extended K)} (inside : deviation.Inside deviation')
    (ordered : deviation.Ordered) (h : c.widenRate mode deviation (y, rate) = .ok (y, widened))
    (h' : c.widenRate mode deviation' (y, rate) = .ok (y, widened')) :
    widened.Within widened' := by
  cases mentions : rate.expr.mentions c.sampled with
  | false =>
      rw [widenRate_of_not_mentions mentions] at h h'
      cases h
      cases h'
      exact .refl rate
  | true =>
      obtain ⟨coefficient, extra, noise, found, scaled, added, rfl⟩ :=
        (widenRate_eq_ok_iff_of_mentions mentions).mp h
      obtain ⟨coefficient', extra', noise', found', scaled', added', rfl⟩ :=
        (widenRate_eq_ok_iff_of_mentions mentions).mp h'
      obtain rfl : coefficient = coefficient' := Option.some.inj (found.symm.trans found')
      exact ⟨rfl, .inr ((inside.scale ordered scaled scaled').add added added')⟩

theorem windowMode_within {clock name : String} {m w w' : Mode (Extended K)}
    {plan plan' : WindowPlan (Extended K)} (within : PlanWithin plan plan')
    (h : c.windowMode clock name m plan = .ok w) (h' : c.windowMode clock name m plan' = .ok w') :
    w.Within w' := by
  obtain ⟨wName, urgent, hasFlow, invariant, rates⟩ := windowMode_eq_ok h
  obtain ⟨wName', urgent', hasFlow', invariant', rates'⟩ := windowMode_eq_ok h'
  refine ⟨?_, urgent'.trans urgent.symm, ?_, hasFlow'.trans hasFlow.symm, fun y => ?_⟩
  · rw [wName', wName, within.range.windowMode]
  · rw [invariant', invariant, within.index, within.range.window]
  · obtain ⟨before, after⟩ | ⟨rate, widened, before, after, widen⟩ := rates y
    · obtain ⟨_, after'⟩ | ⟨_, _, before', _⟩ := rates' y
      · rw [after, after']
        exact .none
      · cases before.symm.trans before'
    · obtain ⟨before', _⟩ | ⟨rate', widened', before', after', widen'⟩ := rates' y
      · cases before.symm.trans before'
      · obtain rfl : rate = rate' := Option.some.inj (before.symm.trans before')
        rw [after, after']
        exact .some (widenRate_within within.deviation within.ordered widen widen')

/-! ## Error guards -/

omit [IsStrictOrderedRing K] in
/-- What is below the lower bound of a larger range is below that of a smaller one. -/
theorem holds_lt_of_le {e : Expr (Extended K)} {bound bound' : Extended K} (le : bound' ≤ bound)
    {env : String → Option (Extended K)}
    (h : (Expr.lt e (.num bound')).holds env = .ok true) :
    (Expr.lt e (.num bound)).holds env = .ok true := by
  simp only [Expr.holds, Expr.eval, bind_eq_ok_iff, pure_eq_ok_iff, Except.ok.injEq,
    exists_eq_left', Comparison.apply, decide_eq_true_eq] at h ⊢
  obtain ⟨value, evaluated, below, notAbove⟩ := h
  exact ⟨value, evaluated, Extended.le_trans below le,
    fun above => notAbove (Extended.le_trans le above)⟩

omit [IsStrictOrderedRing K] in
theorem holds_gt_of_le {e : Expr (Extended K)} {bound bound' : Extended K} (le : bound ≤ bound')
    {env : String → Option (Extended K)}
    (h : (Expr.gt e (.num bound')).holds env = .ok true) :
    (Expr.gt e (.num bound)).holds env = .ok true := by
  simp only [Expr.holds, Expr.eval, bind_eq_ok_iff, pure_eq_ok_iff, Except.ok.injEq,
    exists_eq_left', Comparison.apply, decide_eq_true_eq] at h ⊢
  obtain ⟨value, evaluated, above, notBelow⟩ := h
  exact ⟨value, evaluated, Extended.le_trans le above,
    fun below => notBelow (Extended.le_trans below le)⟩

omit [IsStrictOrderedRing K] in
/-- The jumps of a window: the error modes are entered less often, the next window as before. -/
theorem windowJumps_within {clock : String} {watched : Expr (Extended K)}
    {plan plan' : WindowPlan (Extended K)} (range : plan.range.Within plan'.range)
    (nextMode : plan'.nextMode = plan.nextMode) :
    List.Forall₂ Transition.Within (windowJumps clock watched plan)
      (windowJumps clock watched plan') := by
  rw [windowJumps, windowJumps, nextMode, range.windowMode, range.window]
  refine List.rel_append (.cons ⟨rfl, rfl, rfl, fun _ => holds_lt_of_le range.bloated.min⟩
    (.cons ⟨rfl, rfl, rfl, fun _ => holds_gt_of_le range.bloated.max⟩ .nil)) ?_
  split
  · exact .cons (.refl _) .nil
  · exact .nil

/-! ## One mode -/

/-- What takes the place of a mode, or of one of its windows. -/
structure PartWithin (part part' : ModeWindows (Extended K)) : Prop where
  modes : List.Forall₂ (NameMap.RelatedEntries Mode.Within) part.modes part'.modes
  jumps : List.Forall₂ Transition.Within part.jumps part'.jumps
  report : List.Forall₂ WindowRange.Within part.report part'.report

theorem expandWindow_within {a : Automaton (Extended K)} {clock name : String}
    {m : Mode (Extended K)} {rate : Perturbed (Extended K)} {index : Nat}
    {window raw raw' : Interval (Extended K)} {bloat bloat' : Extended K}
    {part part' : ModeWindows (Extended K)} (reaches : raw.Reaches raw')
    (le : BloatLe bloat bloat')
    (h : c.expandWindow a clock name m rate.expr index window raw bloat = .ok part)
    (h' : c.expandWindow a clock name m rate.expr index window raw' bloat' = .ok part') :
    PartWithin part part' := by
  obtain ⟨plan, w, planned, made, rfl⟩ := expandWindow_eq_ok_iff.mp h
  obtain ⟨plan', w', planned', made', rfl⟩ := expandWindow_eq_ok_iff.mp h'
  have plans := planWindow_within reaches le planned planned'
  have modes := windowMode_within plans made made'
  refine ⟨?_, windowJumps_within plans.range plans.nextMode, .cons plans.range .nil⟩
  simp only [windowPart, modesOf, modes.name]
  exact .cons ⟨rfl, modes⟩ (.cons ⟨rfl, .refl _⟩ (.cons ⟨rfl, .refl _⟩ .nil))

section

variable {bloats : List (Extended K)} {blowup : Bool} {a : Automaton (Extended K)}
  {clock : String} {ranges ranges' : NameMap (List (Interval (Extended K)))}

/-- Each window gets a range that reaches at least as far and a margin that is at least as large. -/
theorem expandMode_within {name : String} {m : Mode (Extended K)}
    {parts parts' : List (ModeWindows (Extended K))}
    (margins : List.Forall₂ BloatLe c.bloats bloats)
    (keys : name ∈ ranges'.keys ↔ name ∈ ranges.keys)
    (reach : ∀ known known', ranges.find? name = some known → ranges'.find? name = some known' →
      List.Forall₂ Interval.Reaches known known')
    (h : c.expandMode a clock ranges (name, m) = .ok parts)
    (h' : (c.withMargins blowup bloats).expandMode a clock ranges' (name, m) = .ok parts') :
    List.Forall₂ PartWithin parts parts' := by
  by_cases continuized : name ∈ ranges.keys
  · obtain ⟨known, hknown⟩ := NameMap.mem_keys_iff.mp continuized
    obtain ⟨known', hknown'⟩ := NameMap.mem_keys_iff.mp (keys.mpr continuized)
    obtain ⟨rate, hrate, windows⟩ := expandMode_eq_ok hknown h
    obtain ⟨rate', hrate', windows'⟩ := expandMode_eq_ok hknown' h'
    obtain rfl : rate = rate' := Option.some.inj (hrate.symm.trans hrate')
    have reaches := reach known known' hknown hknown'
    have windowsSame : List.Forall₂ (· = ·) c.windows (c.withMargins blowup bloats).windows :=
      List.forall₂_eq_eq_eq ▸ rfl
    have inputs := forall₂_zipIdx (forall₂_zip windowsSame (forall₂_zip reaches margins)) 0
    refine forall₂_of_mapM inputs windows windows' ?_
    rintro ⟨⟨window, raw, bloat⟩, index⟩ ⟨⟨_, raw', bloat'⟩, _⟩ part part'
      ⟨⟨rfl, reaches, le⟩, rfl⟩ made made'
    exact expandWindow_within reaches le made made'
  · rw [expandMode_of_not_mem continuized] at h
    rw [expandMode_of_not_mem (keys.not.mpr continuized)] at h'
    cases h
    cases h'
    exact .cons ⟨.cons ⟨rfl, .refl m⟩ .nil, .nil, .nil⟩ .nil

end

/-! ## A whole model -/

theorem synthesize_within {bloats : List (Extended K)} {blowup : Bool}
    {m m₁ m₂ : Model (Extended K)} {a : Automaton (Extended K)} {clock : String}
    {ranges ranges' : NameMap (List (Interval (Extended K)))}
    {report report' : List (WindowRange (Extended K))}
    (margins : List.Forall₂ BloatLe c.bloats bloats)
    (keys : ∀ name, name ∈ ranges'.keys ↔ name ∈ ranges.keys)
    (reach : ∀ name known known', ranges.find? name = some known →
      ranges'.find? name = some known' → List.Forall₂ Interval.Reaches known known')
    (h : c.synthesize m a clock ranges = .ok (m₁, report))
    (h' : (c.withMargins blowup bloats).synthesize m a clock ranges' = .ok (m₂, report')) :
    ∃ a₁ a₂, m₁.automaton = .ok a₁ ∧ m₂.automaton = .ok a₂ ∧ a₁.Within a₂ ∧
      List.Forall₂ WindowRange.Within report report' := by
  simp only [synthesize, bind_eq_ok_iff, pure_eq_ok_iff, Prod.mk.injEq] at h h'
  obtain ⟨partss, expanded, rfl, rfl⟩ := h
  obtain ⟨partss', expanded', rfl, rfl⟩ := h'
  have parts : List.Forall₂ PartWithin partss.flatten partss'.flatten := by
    have entries : List.Forall₂ (· = ·) a.modes.entries a.modes.entries :=
      List.forall₂_eq_eq_eq ▸ rfl
    refine List.rel_flatten (forall₂_of_mapM entries expanded expanded' ?_)
    rintro ⟨name, mode⟩ _ made made' rfl expand expand'
    exact expandMode_within margins (keys name) (reach name) expand expand'
  have same : ranges'.contains = ranges.contains := by
    funext name
    rw [Bool.eq_iff_iff, NameMap.contains_iff, NameMap.contains_iff, keys]
  refine ⟨_, _, rfl, rfl, ⟨rfl, ?_, ?_⟩, ?_⟩
  · exact NameMap.related_ofList (List.rel_flatMap parts fun _ _ part => part.modes)
  · rw [same]
    exact List.rel_append (List.forall₂_same.mpr fun t _ => .refl t)
      (List.rel_flatMap parts fun _ _ part => part.jumps)
  · exact List.rel_flatMap parts fun _ _ part => part.report

end Continuization

variable [IsStrictOrderedRing K]

/-- Larger margins make a safer model: if both runs succeed, all ranges and all intervals of rates
of the first are inside those of the second, and the first detects every error that the second
detects. -/
theorem Model.continuize_mono_margins {m m₁ m₂ : Model (Extended K)}
    {c c' : Continuization (Extended K)} {ctx : Context (Extended K)} {pass : String}
    {report report' : List (WindowRange (Extended K))} (wider : c.WiderMargins c')
    (h : m.continuize c ctx pass = .ok (m₁, report))
    (h' : m.continuize c' ctx pass = .ok (m₂, report')) :
    ∃ a₁ a₂, m₁.automaton = .ok a₁ ∧ m₂.automaton = .ok a₂ ∧ a₁.Within a₂ ∧
      List.Forall₂ WindowRange.Within report report' := by
  obtain ⟨same, blowup, bloats⟩ := wider
  generalize c'.blowup = more, c'.bloats = larger at same blowup bloats
  subst same
  obtain ⟨checked, a, modes, source, ranges, flat, hmodes, hsource, hranges, made⟩ :=
    continuize_eq_ok_iff.mp h
  obtain ⟨checked', a', modes', source', ranges', flat', hmodes', hsource', hranges', made'⟩ :=
    continuize_eq_ok_iff.mp h'
  obtain rfl : a = a' := Except.ok.inj (flat.symm.trans flat')
  obtain rfl : modes = modes' := Except.ok.inj (hmodes.symm.trans hmodes')
  obtain rfl : source = source' := Except.ok.inj (hsource.symm.trans hsource')
  have margins : List.Forall₂ BloatLe c.bloats larger := by
    have accepted := (List.forall₂_and_left _ _).mpr
      ⟨(accepted_of_check checked).nonNegative, bloats⟩
    have both := (List.forall₂_and_left _ _).mpr
      ⟨(accepted_of_check checked').nonNegative, accepted.flip⟩
    refine both.flip.imp ?_
    rintro bloat bloat' ⟨nonNegative', nonNegative, le⟩
    exact bloatLe_of_nonNegative nonNegative nonNegative' le
  refine synthesize_within margins (fun name => ?_) (fun name known known' found found' => ?_)
    made made'
  · rw [(modeRanges_shape hranges').1, (modeRanges_shape hranges).1]
  · exact modeRanges_reach blowup hranges hranges' found found'

/-- The ramp from a start between zero and one. -/
def rampFromBox : Model (Extended ℚ) where
  root := .flat (rampAutomaton ℚ)
  init := .ofList [("rise", (Expr.ge (.var "u") (.num 0)).and (.le (.var "u") (.num 1)))]
  settings := .initial

/-- Estimates that depend on where the ramp starts. -/
def startContext : Context (Extended ℚ) where
  tolerance := 0
  estimator := {
    name := "start"
    estimate := fun _ _ start windows => .ok (windows.map fun _ => ⟨start.point.headD 0, 1⟩) }

/-- From the center of the box with no margin, and from all its points with amounts of one and
two. -/
theorem ramp_within : ∃ m₁ report m₂ report',
    rampFromBox.continuize (rampSampling ℚ) startContext "continuize" = .ok (m₁, report) ∧
      rampFromBox.continuize ((rampSampling ℚ).withMargins true [1, 2]) startContext "continuize" =
        .ok (m₂, report') ∧
      ∃ a₁ a₂, m₁.automaton = .ok a₁ ∧ m₂.automaton = .ok a₂ ∧ a₁.Within a₂ ∧
        List.Forall₂ WindowRange.Within report report' := by
  have succeeds : ((rampFromBox.continuize (rampSampling ℚ) startContext
      "continuize").toOption.any fun result => result.2.length == 2) = true := by decide +kernel
  have succeeds' : ((rampFromBox.continuize ((rampSampling ℚ).withMargins true [1, 2]) startContext
      "continuize").toOption.any fun result => result.2.length == 2) = true := by decide +kernel
  obtain ⟨⟨m₁, report⟩, success, _⟩ := exists_ok_of_any succeeds
  obtain ⟨⟨m₂, report'⟩, success', _⟩ := exists_ok_of_any succeeds'
  have wider : (rampSampling ℚ).WiderMargins ((rampSampling ℚ).withMargins true [1, 2]) := {
    same := rfl
    blowup := fun _ => rfl
    bloats := .cons (by decide +kernel) (.cons (by decide +kernel) .nil) }
  exact ⟨m₁, report, m₂, report', success, success',
    Model.continuize_mono_margins wider success success'⟩

end HybridAutomata
