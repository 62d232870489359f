import HybridAutomata.Proofs.Continuization.TimeTriggered

/-!
# Time-triggered continuization and the rules of a model

Removing the loops of a model and putting its laws in place keeps every rule, as far as names other
than the clock are concerned. The clock is dropped when no rate and no new value is left that
mentions it. That nothing else needs it is not looked at: the plot may show it, and a law that
mentions it comes back when it takes the place of the sampled variable. Then the result mentions a
name that it does not declare, unless the time variable that is introduced happens to have it.
-/

namespace HybridAutomata

open Continuization Success

variable {α : Type}

/-- A variable is on an axis of the plot. -/
def Settings.Plots (settings : Settings α) (name : String) : Prop :=
  name ≠ "" ∧ (settings.plot.1 = name ∨ settings.plot.2 = name)

variable [Scalar α]

namespace TimeTriggered

variable {c : Continuization α} {s : Sampling α} {m m' : Model α} {a left windowed : Automaton α}
  {source : ClockSource} {ranges : NameMap (List (Interval α))} {parts : List (ModeWindows α)}
  {report : List (WindowRange α)}

/-- A formula of the model mentions declared names only, but for the clock. -/
theorem closes (h : TimeTriggered c s m m' a left windowed source ranges parts report)
    {e : Expr α} (closed : a.Closes e) (clock : s.clock ∈ e.names → s.clock ∈ windowed.declared) :
    windowed.Closes e := by
  intro name mem
  by_cases same : name = s.clock
  · exact same ▸ clock (same ▸ mem)
  · exact h.mem_declared (closed name mem) same

/-- The regions of the model are regions of what is left without the loops. -/
theorem keepsRegion_left (h : TimeTriggered c s m m' a left windowed source ranges parts report)
    {regions : NameMap (Expr α)}
    (kept : ∀ entry ∈ regions.entries, (Component.flat a).KeepsRegion entry) :
    ∀ entry ∈ (regions.map (·.withoutConjunctsMentioning s.clock)).entries,
      (Component.flat left).KeepsRegion entry := by
  intro entry mem
  obtain ⟨original, given, rfl⟩ := List.mem_map.mp mem
  obtain ⟨mode, closed⟩ := Component.keepsRegion_flat_iff.mp (kept original given)
  refine Component.keepsRegion_flat_iff.mpr ⟨?_, ?_⟩
  · refine Component.modeNames_flat_subset h.leaves.path ?_ mode
    rw [h.leaves.keys]
    exact List.Subset.refl _
  · exact h.leaves.closes closed.withoutConjunctsMentioning fun mem =>
      (Expr.mem_names_of_withoutConjunctsMentioning mem).2 rfl

omit [Scalar α] in
/-- Putting laws in place changes neither the modes nor the declared names. -/
theorem keepsRegion_inlineLaws {laws : NameMap (Expr α)} {entry : String × Expr α}
    (kept : (Component.flat windowed).KeepsRegion entry) :
    (Component.flat (s.inlineLaws laws windowed)).KeepsRegion entry := by
  obtain ⟨mode, closed⟩ := Component.keepsRegion_flat_iff.mp kept
  have path : (s.inlineLaws laws windowed).path = windowed.path := rfl
  have keys : windowed.modes.keys ⊆ (s.inlineLaws laws windowed).modes.keys := by
    rw [Sampling.keys_inlineLaws]
    exact List.Subset.refl _
  exact Component.keepsRegion_flat_iff.mpr
    ⟨Component.modeNames_flat_subset path keys mode, closed⟩

/-- A variable on an axis stays declared, but for the clock. -/
theorem keepsPlot (h : TimeTriggered c s m m' a left windowed source ranges parts report)
    {name : String} (kept : (Component.flat a).KeepsPlot name)
    (clock : name ≠ "" → name = s.clock → s.clock ∈ windowed.declared) :
    (Component.flat (s.inlineLaws (s.lawOfWindow report) windowed)).KeepsPlot name := by
  obtain none | declared := kept
  · exact .inl none
  by_cases none : name = ""
  · exact .inl none
  refine .inr (Component.mem_namesBelow_flat.mpr ?_)
  by_cases same : name = s.clock
  · exact same ▸ clock none same
  · exact h.mem_declared (Component.mem_namesBelow_flat.mp declared) same

/-- The result keeps the rules if the clock is declared wherever it is needed. -/
theorem sound (h : TimeTriggered c s m m' a left windowed source ranges parts report)
    (read : s.IsReadOff a) (kept : m.Sound)
    (plot : m.settings.Plots s.clock → s.clock ∈ windowed.declared)
    (laws : ∀ r ∈ report, ∀ law, s.laws.find? r.mode = some law → s.clock ∈ law.names →
      s.clock ∈ windowed.declared) : m'.Sound := by
  obtain ⟨_, hsource⟩ := h.windows.clock
  have root := Model.automaton_eq_ok_iff.mp h.flat
  have rules := kept.automaton h.flat
  have leftRules := h.wellFormed_left read kept
  have windowedRules := h.windows.wellFormed leftRules
  have closed : ∀ name law, (s.lawOfWindow report).find? name = some law →
      windowed.Closes law := by
    intro name law found
    obtain ⟨r, mem, _, found⟩ := Sampling.exists_of_find?_lawOfWindow found
    exact h.closes (read.assigns rules.toWellFormed found).value (laws r mem law found)
  have disjoint : ∀ name ∈ windowed.constants.keys, name ∉ windowed.vars.toList := by
    have leftDisjoint : ∀ name ∈ left.constants.keys, name ∉ left.vars.toList := by
      rw [h.leaves.constants]
      exact fun name mem isVar => rules.disjoint name mem (h.leaves.vars isVar)
    exact (h.windows.disjoint_iff leftDisjoint).mpr
      (clock_not_mem_constants hsource h.clock leftDisjoint)
  rw [Settings.Plots] at plot
  refine {
    root := ?_
    init := ?_
    forbidden := ?_
    plot := ?_
    horizon := h.settings ▸ kept.horizon } <;> rw [Model.automaton_eq_ok_iff.mp h.result]
  · exact Component.sound_flat_iff.mpr
      ⟨Sampling.wellFormed_inlineLaws windowedRules closed, disjoint⟩
  · exact fun entry mem => keepsRegion_inlineLaws
      (h.windows.keepsRegion_init (h.keepsRegion_left (root ▸ kept.init)) entry mem)
  · rw [h.forbidden]
    have regions := h.keepsRegion_left (root ▸ kept.forbidden)
    exact fun entry mem => keepsRegion_inlineLaws
      (h.windows.keepsRegion_forbidden leftRules.storedByName regions entry mem)
  · rw [h.settings]
    obtain ⟨first, second⟩ := root ▸ kept.plot
    exact ⟨h.keepsPlot first fun named same => plot ⟨same ▸ named, .inl same⟩,
      h.keepsPlot second fun named same => plot ⟨same ▸ named, .inr same⟩⟩

/-- A clock that is dropped is on no axis of the plot, if the result keeps the rules. -/
theorem not_plots (h : TimeTriggered c s m m' a left windowed source ranges parts report)
    (kept : m'.Sound) (dropped : s.clock ∉ windowed.declared) : ¬m.settings.Plots s.clock := by
  rintro ⟨named, shown⟩
  have axes := h.settings ▸ Model.automaton_eq_ok_iff.mp h.result ▸ kept.plot
  have notKept : ¬(Component.flat (s.inlineLaws (s.lawOfWindow report) windowed)).KeepsPlot
      s.clock := fun axis =>
    axis.elim named fun mem => dropped (Component.mem_namesBelow_flat.mp mem)
  obtain shown | shown := shown
  · exact notKept (shown ▸ axes.1)
  · exact notKept (shown ▸ axes.2)

/-- A clock that is dropped is in no law that is put in place, if the result keeps the rules. -/
theorem not_mem_names_law (h : TimeTriggered c s m m' a left windowed source ranges parts report)
    (kept : m'.Sound) (dropped : s.clock ∉ windowed.declared) {r : WindowRange α}
    (mem : r ∈ report) {law : Expr α} (found : s.laws.find? r.mode = some law) :
    s.clock ∉ law.names := by
  intro mentioned
  have rules := kept.automaton h.result
  obtain ⟨t, inside, _, guard⟩ := h.exists_lowerJump mem found
  have closed := (rules.transitions t inside).guard
  rw [guard] at closed
  exact dropped (closed _ (List.mem_append_left _ mentioned))

end TimeTriggered

/-- A time-triggered continuization of a valid model is valid exactly if the clock stays declared,
or neither an axis of the plot nor the law of a continuized mode needs it. -/
theorem Model.continuizeTimeTriggered_valid_iff {m m' : Model α} {p : MacroSteps α}
    {ctx : Context α} {pass : String} {report : List (WindowRange α)} (valid : m.Valid)
    (success : m.continuizeTimeTriggered p ctx pass = .ok (m', report)) :
    ∃ a s a', m.automaton = .ok a ∧ Sampling.read a ctx.tolerance = .ok s ∧
      m'.automaton = .ok a' ∧
      (m'.Valid ↔ s.clock ∈ a'.declared ∨ ¬m.settings.Plots s.clock ∧
        ∀ mode law, a.continuizes s.sampled mode = true → a.Samples mode s.sampled law →
          s.clock ∉ law.names) := by
  obtain ⟨count, s, a, left, windowed, source, ranges, parts, _, success, steps⟩ :=
    continuizeTimeTriggered_steps success
  have read := Sampling.read_eq_ok (valid.storedByName steps.flat) success
  have sound := valid_iff.mp valid
  have leftRules := steps.wellFormed_left read sound
  refine ⟨a, s, _, steps.flat, success, steps.result, ?_⟩
  rw [valid_iff]
  constructor
  · intro sound'
    by_cases declared : s.clock ∈ windowed.declared
    · exact .inl declared
    refine .inr ⟨steps.not_plots sound' declared, ?_⟩
    intro mode law continuized samples
    obtain ⟨r, reported, rfl, _⟩ := steps.exists_mem_report read leftRules continuized
      (List.length_pos_of_ne_nil steps.windows.accepted.nonempty)
    exact steps.not_mem_names_law sound' declared reported ((read.laws r.mode law).mpr samples)
  · rintro (declared | ⟨notShown, free⟩)
    · exact steps.sound read sound (fun _ => declared) fun _ _ _ _ _ => declared
    · refine steps.sound read sound (fun shown => absurd shown notShown) ?_
      intro r reported law found mentioned
      exact absurd mentioned (free r.mode law (steps.continuizes_of_mem read leftRules reported)
        ((read.laws r.mode law).mp found))

/-- The meter with the law `x` and no plot stays valid. -/
theorem meter_continuizeTimeTriggered_valid : (meter ℚ (.var "x") ("", "")).Valid ∧ ∃ m' report,
    (meter ℚ (.var "x") ("", "")).continuizeTimeTriggered (meterSteps ℚ) (meterContext ℚ (-2) 0)
        "continuize" = .ok (m', report) ∧ m'.Valid := by
  have valid := meter_valid ℚ
  obtain ⟨⟨m', report⟩, success, _⟩ := exists_ok_of_any (p := fun _ => true)
    (x := (meter ℚ (.var "x") ("", "")).continuizeTimeTriggered (meterSteps ℚ)
      (meterContext ℚ (-2) 0) "continuize") (by decide +kernel)
  refine ⟨valid, m', report, success, ?_⟩
  obtain ⟨a, s, a', flat, read, _, iff⟩ := Model.continuizeTimeTriggered_valid_iff valid success
  obtain rfl : meterAutomaton ℚ (.var "x") = a := Except.ok.inj flat
  obtain rfl : meterSampling ℚ (.var "x") = s :=
    Except.ok.inj ((meter_read ℚ (.var "x")).symm.trans read)
  refine iff.mpr (.inr ⟨fun shown => shown.2.elim (by decide) (by decide), ?_⟩)
  intro mode law _ samples
  obtain ⟨_, rfl⟩ := (meter_samples_iff ℚ _).mp samples
  decide

/-- With the clock on an axis of the plot, the result is broken. -/
theorem clockedPlot_continuizeTimeTriggered_not_valid :
    (meter ℚ (.var "x") ("c", "x")).Valid ∧ ∃ m' report,
      (meter ℚ (.var "x") ("c", "x")).continuizeTimeTriggered (meterSteps ℚ)
        (meterContext ℚ (-2) 0) "continuize" = .ok (m', report) ∧ ¬m'.Valid := by
  have valid : (meter ℚ (.var "x") ("c", "x")).Valid := by
    rw [Model.Valid]
    decide +kernel
  obtain ⟨⟨m', report⟩, success, broken⟩ := exists_ok_of_any
    (p := fun result => !result.1.violations.isEmpty)
    (x := (meter ℚ (.var "x") ("c", "x")).continuizeTimeTriggered (meterSteps ℚ)
      (meterContext ℚ (-2) 0) "continuize") (by decide +kernel)
  refine ⟨valid, m', report, success, ?_⟩
  rwa [Bool.not_eq_true', List.isEmpty_eq_false_iff] at broken

end HybridAutomata
