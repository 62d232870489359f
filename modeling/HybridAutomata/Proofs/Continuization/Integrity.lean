import HybridAutomata.Proofs.Continuization.Structure
import HybridAutomata.Proofs.Model.Rules

/-!
# Continuization and the rules of a model

A continuization keeps every rule for modes, transitions and regions: a copy mentions the names of
its mode, the sampled variable and the clock; a jump ends in a mode that was made for a window. The
clock is the one point at which the result can be broken. A clock that is asked for by the name of a
constant is introduced as a variable beside that constant, and then the model declares the name
twice; a clock that is found, or introduced under a free name, never does that.
-/

namespace HybridAutomata

open Continuization

variable {α : Type}

/-! ## Formulas that are put together -/

namespace Scope

variable {s : Scope α} {l r : Expr α} {clock : String}

theorem Closes.and (hl : s.Closes l) (hr : s.Closes r) : s.Closes (l.and r) :=
  Expr.names_and hl hr

theorem closes_compare {op : Comparison} {bound : α} (h : s.Closes l) :
    s.Closes (.binary (.compare op) l (.num bound)) := by
  intro name mem
  rw [Expr.names, Expr.names, List.append_nil] at mem
  exact h name mem

theorem closes_var (h : clock ∈ s.declared) : s.Closes (.var clock : Expr α) := by
  intro name mem
  rw [List.mem_singleton.mp mem]
  exact h

theorem closes_insideWindow (h : clock ∈ s.declared) (index : Nat) (window : Interval α) :
    s.Closes (insideWindow clock index window) := by
  rw [insideWindow]
  split
  · exact closes_compare (closes_var h)
  · exact (closes_compare (closes_var h)).and (closes_compare (closes_var h))

theorem closes_windowInvariant [Scalar α] {c : Continuization α} {index : Nat}
    {window : Interval α} (hclock : clock ∈ s.declared) (h : s.Closes l) :
    s.Closes (c.windowInvariant clock index window l) := by
  have limit {op : Comparison} {bound : α} :
      s.Closes (.binary (.compare op) (.var clock) (.num bound)) :=
    closes_compare (closes_var hclock)
  rw [windowInvariant]
  split
  · exact h.and limit
  · exact (h.and limit).and limit

end Scope

/-! ## Modes -/

namespace Scope

theorem keepsMode_instant (s : Scope α) (name : String) : s.KeepsMode (.instant name) where
  invariant := List.forall_mem_nil _
  flows := List.forall_mem_nil _

end Scope

namespace Automaton

theorem mem_values_iff {a : Automaton α} {m : Mode α} :
    m ∈ a.modes.values ↔ ∃ key, a.mode? key = some m := by
  constructor
  · intro mem
    obtain ⟨⟨key, _⟩, stored, rfl⟩ := List.mem_map.mp mem
    exact ⟨key, NameMap.find?_eq_some_iff.mpr stored⟩
  · rintro ⟨key, found⟩
    exact mem_values_of_mode? found

theorem WellFormed.keepsMode {a : Automaton α} (h : a.WellFormed) {key : String} {m : Mode α}
    (found : a.mode? key = some m) : a.KeepsMode m :=
  h.modes m (mem_values_of_mode? found)

end Automaton

/-! ## The clock -/

section

variable [Scalar α] {a : Automaton α} {source : ClockSource}

namespace Automaton

theorem constants_withClock : (a.withClock source).constants = a.constants := by
  cases source <;> rfl

theorem mem_vars_withClock {name : String} : name ∈ (a.withClock source).vars.toList ↔
    name ∈ a.vars.toList ∨ source = .introduced name := by
  cases source with
  | existing clock => simp [withClock]
  | introduced clock =>
      rw [ClockSource.introduced.injEq, eq_comm (a := clock)]
      exact NameSet.mem_insert

theorem declared_withClock : a.declared ⊆ (a.withClock source).declared := by
  intro name mem
  rw [Scope.declared, List.mem_append] at mem ⊢
  rw [mem_vars_withClock, constants_withClock]
  exact mem.imp_left .inl

theorem Assigns.withClock {entry : String × Perturbed α} (h : a.Assigns entry) :
    (a.withClock source).Assigns entry where
  target := mem_vars_withClock.mpr (.inl h.target)
  value := h.value.mono declared_withClock

/-- Putting the clock in place keeps the rules for modes and transitions. -/
theorem WellFormed.withClock (h : a.WellFormed) : (a.withClock source).WellFormed where
  stored := by
    intro entry mem
    rw [withClock_modes] at mem
    obtain ⟨original, stored, rfl⟩ := List.mem_map.mp mem
    exact (Mode.withClock_name source original.2).trans (h.stored original stored)
  modes := by
    intro m mem
    obtain ⟨key, found⟩ := mem_values_iff.mp mem
    rw [mode?_withClock, Option.map_eq_some_iff] at found
    obtain ⟨m, found, rfl⟩ := found
    obtain ⟨invariant, rates⟩ := Scope.keepsMode_iff.mp (h.keepsMode found)
    refine Scope.keepsMode_iff.mpr ⟨?_, ?_⟩
    · rw [Mode.withClock_invariant]
      exact invariant.mono declared_withClock
    · intro name rate given
      by_cases clock : name = source.name
      · cases source with
        | existing => exact Assigns.withClock (rates name rate given)
        | introduced clock' =>
            subst clock
            rw [Mode.withClock] at given
            split at given
            · rw [Mode.flowOf?_setFlow, if_pos rfl] at given
              cases given
              exact ⟨mem_vars_withClock.mpr (.inr rfl), List.forall_mem_nil _⟩
            · exact Assigns.withClock (rates _ rate given)
      · rw [Mode.flowOf?_withClock_of_ne clock] at given
        exact Assigns.withClock (rates name rate given)
  transitions := by
    intro t mem
    rw [withClock_transitions] at mem
    have kept := h.transitions t mem
    exact {
      source := keys_withClock source a ▸ kept.source
      target := keys_withClock source a ▸ kept.target
      guard := kept.guard.mono declared_withClock
      resets := fun entry mem => Assigns.withClock (kept.resets entry mem) }

end Automaton

namespace Continuization

/-- Once it is in place, the clock is a variable. -/
theorem clock_mem_vars {c : Continuization α} {pass : String}
    (h : c.clockSource a pass = .ok source) :
    source.name ∈ (a.withClock source).vars.toList := by
  rw [Automaton.mem_vars_withClock]
  cases source with
  | introduced name => exact .inr rfl
  | existing name =>
      refine .inl ?_
      rw [clockSource] at h
      split at h
      · split at h
        · cases h
        · split at h
          · next declared =>
              split at h
              · cases h
              · cases h
                exact NameSet.contains_iff.mp declared
          · cases h
      · split at h
        · next found =>
            cases h
            exact List.mem_of_find?_eq_some found
        · cases h

/-- A clock that is asked for is the clock. -/
theorem name_of_clockSource {c : Continuization α} {pass name : String}
    (h : c.clockSource a pass = .ok source) (asked : c.clock = some name) : source.name = name := by
  rw [clockSource, asked] at h
  simp only at h
  split at h
  · cases h
  · split at h
    · split at h
      · cases h
      · cases h
        rfl
    · cases h
      rfl

/-- A clock that was not asked for is no constant, found or introduced. -/
theorem clock_not_mem_constants {c : Continuization α} {pass : String}
    (h : c.clockSource a pass = .ok source) (notAsked : c.clock = none)
    (disjoint : ∀ name ∈ a.constants.keys, name ∉ a.vars.toList) :
    source.name ∉ a.constants.keys := by
  obtain ⟨name, isVar, _, rfl⟩ | ⟨name, free, rfl⟩ := clockSource_of_not_asked h notAsked
  · exact fun mem => disjoint name mem isVar
  · exact fun mem => free (List.mem_append_right _ mem)

/-! ## Windows -/

section

variable {c : Continuization α} {clock name : String} {ranges : NameMap (List (Interval α))}
  {index : Nat} {m w : Mode α} {rate : Perturbed α} {plan : WindowPlan α}

omit [Scalar α] in
/-- What stands for a window is stored by name. -/
theorem mem_modesOf {key : String} {mode : Mode α} (h : (key, mode) ∈ modesOf w) :
    mode.name = key ∧ (mode = w ∨ mode = .instant key) := by
  simp only [modesOf, List.map_cons, List.map_nil, List.mem_cons, Prod.mk.injEq, List.not_mem_nil,
    or_false] at h
  obtain ⟨rfl, rfl⟩ | ⟨rfl, rfl⟩ | ⟨rfl, rfl⟩ := h
  · exact ⟨rfl, .inl rfl⟩
  · exact ⟨rfl, .inr rfl⟩
  · exact ⟨rfl, .inr rfl⟩

omit [Scalar α] in
/-- The guards of the jumps mention the clock and what is watched. -/
theorem closes_windowJumps {s : Scope α} {watched : Expr α} {t : Transition α}
    (hclock : clock ∈ s.declared) (hwatched : s.Closes watched)
    (h : t ∈ windowJumps clock watched plan) : s.Closes t.guard := by
  rw [windowJumps] at h
  split at h <;> simp only [List.cons_append, List.nil_append, List.append_nil, List.mem_cons,
    List.not_mem_nil, or_false] at h
  · obtain rfl | rfl | rfl := h
    · exact Scope.closes_compare hwatched
    · exact Scope.closes_compare hwatched
    · exact Scope.closes_compare (Scope.closes_var hclock)
  · obtain rfl | rfl := h
    · exact Scope.closes_compare hwatched
    · exact Scope.closes_compare hwatched

/-- A window mode keeps the rules that its mode keeps. -/
theorem WindowOf.keepsMode (window : WindowOf c a clock ranges name index m rate plan w)
    (hclock : clock ∈ a.declared) (kept : a.KeepsMode m) : a.KeepsMode w := by
  obtain ⟨_, _, _, invariant, widened⟩ := windowMode_eq_ok window.made
  obtain ⟨closed, rates⟩ := Scope.keepsMode_iff.mp kept
  refine Scope.keepsMode_iff.mpr ⟨?_, ?_⟩
  · rw [invariant]
    exact Scope.closes_windowInvariant hclock closed
  · intro y after given
    obtain ⟨_, none⟩ | ⟨before, after', found, given', widen⟩ := widened y
    · rw [none] at given
      cases given
    · obtain rfl := Option.some.inj (given'.symm.trans given)
      have kept := rates y before found
      exact ⟨kept.target, expr_of_widenRate widen ▸ kept.value⟩

theorem WindowOf.closes_watched (window : WindowOf c a clock ranges name index m rate plan w)
    (kept : a.KeepsMode m) : a.Closes (c.watched rate.expr) := by
  have sampled := (Scope.keepsMode_iff.mp kept).2 _ _ window.sampled
  rw [watched]
  split
  · exact sampled.value
  · exact Scope.closes_var (List.mem_append_left _ sampled.target)

end

namespace Synthesized

variable {c : Continuization α} {a' : Automaton α} {clock : String}
  {ranges : NameMap (List (Interval α))} {parts : List (ModeWindows α)}
  {report : List (WindowRange α)}

/-- What stands for a mode in a window is a mode. -/
theorem standIn_mem_keys (h : Synthesized c a clock ranges parts a' report) {name : String}
    (mem : name ∈ a.modes.keys) {index : Nat} (hindex : index < c.windows.length) :
    standIn ranges.contains name index ∈ a'.modes.keys := by
  obtain ⟨m, found⟩ := NameMap.mem_keys_iff.mp mem
  rw [NameMap.mem_keys_iff, standIn]
  split
  · next continuized =>
      obtain ⟨_, _, w, window⟩ :=
        h.windows name (NameMap.contains_iff.mp continuized) m found index hindex
      exact ⟨w, h.mode?_windowName window⟩
  · next stays =>
      rw [NameMap.contains_iff] at stays
      exact ⟨m, h.mode?_eq_some_iff.mpr (.inl ⟨found, stays⟩)⟩

/-- The first window keeps the name of its mode. -/
theorem keys_subset (h : Synthesized c a clock ranges parts a' report)
    (nonempty : 0 < c.windows.length) : a.modes.keys ⊆ a'.modes.keys := by
  intro name mem
  have first : standIn ranges.contains name 0 = name := ite_self name
  exact first ▸ h.standIn_mem_keys mem nonempty

/-- Copies of a transition keep the rules that it keeps. -/
theorem keepsTransition_copy (h : Synthesized c a clock ranges parts a' report)
    (hclock : clock ∈ a.declared) {t t' : Transition α} (kept : a.KeepsTransition t)
    (copied : t' ∈ windowTransitions clock c.windows ranges.contains t) :
    a'.KeepsTransition t' := by
  rw [windowTransitions_eq] at copied
  split at copied
  · obtain ⟨index, hindex, rfl⟩ := List.mem_mapIdx.mp copied
    refine ⟨h.standIn_mem_keys kept.source hindex, h.standIn_mem_keys kept.target hindex, ?_, ?_⟩
    · rw [h.scope, copyFor]
      split
      · exact kept.guard.and (Scope.closes_insideWindow hclock index _)
      · exact kept.guard
    · rw [h.scope]
      exact kept.resets
  · next stays =>
      obtain rfl := List.mem_singleton.mp copied
      rw [Bool.or_eq_true, not_or] at stays
      have mem {mode : String} (mem : mode ∈ a.modes.keys) (stays : ¬ranges.contains mode = true) :
          mode ∈ a'.modes.keys := by
        obtain ⟨m, found⟩ := NameMap.mem_keys_iff.mp mem
        rw [NameMap.contains_iff] at stays
        exact NameMap.mem_keys_iff.mpr ⟨m, h.mode?_eq_some_iff.mpr (.inl ⟨found, stays⟩)⟩
      exact {
        source := mem kept.source stays.1
        target := mem kept.target stays.2
        guard := h.scope ▸ kept.guard
        resets := h.scope ▸ kept.resets }

/-- The jumps of a window keep the rules. -/
theorem keepsTransition_jump (h : Synthesized c a clock ranges parts a' report)
    (hclock : clock ∈ a.declared) {name : String} {index : Nat} {m w : Mode α}
    {rate : Perturbed α} {plan : WindowPlan α}
    (window : WindowOf c a clock ranges name index m rate plan w) (kept : a.KeepsMode m)
    {t : Transition α} (jump : t ∈ windowJumps clock (c.watched rate.expr) plan) :
    a'.KeepsTransition t := by
  have made {mode : String} (m' : Mode α) (mem : (mode, m') ∈ modesOf w) : mode ∈ a'.modes.keys :=
    NameMap.mem_keys_iff.mpr
      ⟨m', h.mode?_eq_some_iff.mpr (.inr ⟨_, _, _, _, _, _, window, mem⟩)⟩
  have next {i : Nat} (hi : i < c.windows.length) : windowName name i ∈ a'.modes.keys := by
    obtain ⟨_, _, w, other⟩ := h.windows name window.mem_keys.2 m window.mode i hi
    exact NameMap.mem_keys_iff.mpr ⟨w, h.mode?_windowName other⟩
  obtain ⟨unchanged, target⟩ := target_of_windowJumps window.nextMode jump
  refine ⟨?_, ?_, ?_, ?_⟩
  · rw [source_of_windowJumps jump, window.rangeWindowMode]
    exact next window.lt_windows
  · obtain (error | error) | ⟨more, target⟩ := target
    · refine made (.instant t.target) ?_
      rw [error, window.rangeWindowMode, modesOf, window.modeName]
      simp
    · refine made (.instant t.target) ?_
      rw [error, window.rangeWindowMode, modesOf, window.modeName]
      simp
    · exact target ▸ next more
  · rw [h.scope]
    exact closes_windowJumps hclock (window.closes_watched kept) jump
  · rw [unchanged]
    exact List.forall_mem_nil _

/-- Replacing modes by their windows keeps the rules for modes and transitions. -/
theorem wellFormed (h : Synthesized c a clock ranges parts a' report)
    (hclock : clock ∈ a.declared) (kept : a.WellFormed) : a'.WellFormed where
  stored := by
    rintro ⟨key, mode⟩ mem
    obtain ⟨found, _⟩ | ⟨_, _, _, _, _, _, _, mem⟩ :=
        h.mode?_eq_some_iff.mp (NameMap.find?_eq_some_iff.mpr mem)
    · exact kept.stored _ (NameMap.find?_eq_some_iff.mp found)
    · exact (mem_modesOf mem).1
  modes := by
    intro mode mem
    obtain ⟨key, found⟩ := Automaton.mem_values_iff.mp mem
    rw [h.scope]
    obtain ⟨found, _⟩ | ⟨_, _, _, _, _, _, window, mem⟩ := h.mode?_eq_some_iff.mp found
    · exact kept.keepsMode found
    · obtain rfl | rfl := (mem_modesOf mem).2
      · exact window.keepsMode hclock (kept.keepsMode window.mode)
      · exact Scope.keepsMode_instant _ _
  transitions := by
    intro t mem
    rw [h.transitions, List.mem_append] at mem
    obtain mem | mem := mem
    · obtain ⟨original, mem, copied⟩ := List.mem_flatMap.mp mem
      exact h.keepsTransition_copy hclock (kept.transitions original mem) copied
    · obtain ⟨_, _, _, _, _, _, window, jump⟩ := h.mem_jumps.mp mem
      exact h.keepsTransition_jump hclock window (kept.keepsMode window.mode) jump

end Synthesized

end Continuization

end

/-! ## The model -/

section

variable [Scalar α] {c : Continuization α} {m m' : Model α} {a a' : Automaton α}
  {source : ClockSource} {ranges : NameMap (List (Interval α))} {parts : List (ModeWindows α)}
  {report : List (WindowRange α)}

namespace Continuized

theorem keys_subset (h : Continuized c m m' a a' source ranges parts report) :
    a.modes.keys ⊆ a'.modes.keys := by
  have nonempty : 0 < c.windows.length := by
    rw [length_windows]
    exact List.length_pos_of_ne_nil h.accepted.nonempty
  rw [← Automaton.keys_withClock source a]
  exact h.made.keys_subset nonempty

theorem declared_subset (h : Continuized c m m' a a' source ranges parts report) :
    a.declared ⊆ a'.declared := by
  rw [h.made.scope]
  exact Automaton.declared_withClock

theorem clock_mem_declared (h : Continuized c m m' a a' source ranges parts report) :
    source.name ∈ a'.declared := by
  obtain ⟨_, hsource⟩ := h.clock
  rw [h.made.scope]
  exact List.mem_append_left _ (clock_mem_vars hsource)

theorem wellFormed (h : Continuized c m m' a a' source ranges parts report)
    (kept : a.WellFormed) : a'.WellFormed :=
  h.made.wellFormed (h.made.scope ▸ h.clock_mem_declared) kept.withClock

/-- No constant became a variable exactly if the clock is no constant. -/
theorem disjoint_iff (h : Continuized c m m' a a' source ranges parts report)
    (disjoint : ∀ name ∈ a.constants.keys, name ∉ a.vars.toList) :
    (∀ name ∈ a'.constants.keys, name ∉ a'.vars.toList) ↔ source.name ∉ a.constants.keys := by
  obtain ⟨_, hsource⟩ := h.clock
  rw [h.made.scope, Automaton.constants_withClock]
  constructor
  · intro rule mem
    exact rule _ mem (clock_mem_vars hsource)
  · intro free name mem isVar
    obtain isVar | rfl := Automaton.mem_vars_withClock.mp isVar
    · exact disjoint name mem isVar
    · exact free mem

theorem keepsRegion (h : Continuized c m m' a a' source ranges parts report)
    {entry : String × Expr α} (kept : (Component.flat a).KeepsRegion entry) :
    (Component.flat a').KeepsRegion entry := by
  have path : a'.path = a.path := by
    rw [h.made.scope]
    cases source <;> rfl
  rw [Component.keepsRegion_flat_iff] at kept ⊢
  exact ⟨Component.modeNames_flat_subset path h.keys_subset kept.1,
    kept.2.mono h.declared_subset⟩

/-- An initial region gets a condition on the clock at most. -/
theorem keepsRegion_init (h : Continuized c m m' a a' source ranges parts report)
    (kept : ∀ entry ∈ m.init.entries, (Component.flat a).KeepsRegion entry) :
    ∀ entry ∈ m'.init.entries, (Component.flat a').KeepsRegion entry := by
  intro entry mem
  have clock := h.clock_mem_declared
  rw [h.init] at mem
  cases source with
  | existing => exact h.keepsRegion (kept entry mem)
  | introduced name =>
      obtain ⟨original, stored, rfl⟩ := List.mem_map.mp mem
      have kept := h.keepsRegion (kept original stored)
      rw [Component.keepsRegion_flat_iff] at kept ⊢
      exact ⟨kept.1, kept.2.and (Scope.closes_compare (Scope.closes_var clock))⟩

/-- A forbidden region of the result is one of the model, for its mode or for a window of it. -/
theorem mem_forbiddenRegions {continuized : String → Bool} {regions : NameMap (Expr α)}
    {entry : String × Expr α} (mem : entry ∈ (c.forbiddenRegions continuized regions).entries) :
    ∃ mode, (mode, entry.2) ∈ regions.entries ∧ (entry.1 = mode ∨
      continuized mode = true ∧ ∃ index < c.windows.length, entry.1 = windowName mode index) := by
  obtain ⟨⟨mode, region⟩, original, mem⟩ := List.mem_flatMap.mp (NameMap.mem_of_mem_ofList mem)
  obtain rfl | mem := List.mem_cons.mp mem
  · exact ⟨mode, original, .inl rfl⟩
  · split at mem
    · next isContinuized =>
        obtain ⟨index, hindex, rfl⟩ := List.mem_mapIdx.mp mem
        rw [List.length_tail] at hindex
        exact ⟨mode, original, .inr ⟨isContinuized, _, Nat.add_lt_of_lt_sub hindex, rfl⟩⟩
    · cases mem

/-- A forbidden region is forbidden in the windows of its mode. -/
theorem keepsRegion_forbidden (h : Continuized c m m' a a' source ranges parts report)
    (stored : a.StoredByName)
    (kept : ∀ entry ∈ m.forbidden.entries, (Component.flat a).KeepsRegion entry) :
    ∀ entry ∈ (c.forbiddenRegions ranges.contains m.forbidden).entries,
      (Component.flat a').KeepsRegion entry := by
  rintro ⟨name, region⟩ mem
  obtain ⟨mode, original, rfl | ⟨continuized, index, hindex, rfl⟩⟩ := mem_forbiddenRegions mem
  · exact h.keepsRegion (kept _ original)
  · have kept := h.keepsRegion (kept _ original)
    have isMode : mode ∈ (a.withClock source).modes.keys := by
      rw [h.contains_eq stored, Automaton.continuizes_iff] at continuized
      obtain ⟨_, found, _⟩ := continuized
      rw [Automaton.keys_withClock]
      exact NameMap.mem_keys_iff.mpr ⟨_, found⟩
    have made := h.made.standIn_mem_keys isMode hindex
    rw [standIn, if_pos continuized] at made
    rw [Component.keepsRegion_flat_iff] at kept ⊢
    exact ⟨Component.mem_modeNames_flat made, kept.2⟩

end Continuized

/-- A continuization of a valid model is valid exactly if the clock that is asked for, if one is, is
no constant of the model. -/
theorem Model.continuize_valid_iff {ctx : Context α} {pass : String} (valid : m.Valid)
    (flat : m.automaton = .ok a) (success : m.continuize c ctx pass = .ok (m', report)) :
    m'.Valid ↔ ∀ name, c.clock = some name → name ∉ a.constants.keys := by
  obtain ⟨a₀, a', source, ranges, parts, hsource, steps, forbidden, settings⟩ :=
    continuize_steps success
  obtain rfl : a₀ = a := Except.ok.inj (steps.flat.symm.trans flat)
  have stored := valid.storedByName flat
  have root := automaton_eq_ok_iff.mp flat
  have root' := automaton_eq_ok_iff.mp steps.result
  have sound := valid_iff.mp valid
  have kept := sound.automaton flat
  have shown {name : String} (h : (Component.flat a₀).KeepsPlot name) :
      (Component.flat a').KeepsPlot name :=
    h.imp_right fun mem => Component.mem_namesBelow_flat.mpr
      (steps.declared_subset (Component.mem_namesBelow_flat.mp mem))
  have disjoint : m'.Valid ↔ source.name ∉ a₀.constants.keys := by
    rw [valid_iff, ← steps.disjoint_iff kept.disjoint]
    constructor
    · intro sound
      exact (sound.automaton steps.result).disjoint
    · intro disjoint
      exact {
        root := root' ▸ Component.sound_flat_iff.mpr ⟨steps.wellFormed kept.toWellFormed, disjoint⟩
        init := root' ▸ steps.keepsRegion_init (root ▸ sound.init)
        forbidden := by
          rw [root', forbidden]
          exact steps.keepsRegion_forbidden stored (root ▸ sound.forbidden)
        plot := by
          rw [root', settings]
          exact ⟨shown (root ▸ sound.plot.1), shown (root ▸ sound.plot.2)⟩
        horizon := settings ▸ sound.horizon }
  rw [disjoint]
  cases asked : c.clock with
  | none => simpa using clock_not_mem_constants hsource asked kept.disjoint
  | some name => simp [name_of_clockSource hsource asked]

end

/-- The ramp stays valid with the clock that is introduced for it. -/
theorem ramp_continuize_valid : (ramp ℚ).Valid ∧ ∃ m' report,
    (ramp ℚ).continuize (rampSampling ℚ) (rampContext ℚ) "continuize" = .ok (m', report) ∧
      m'.Valid := by
  obtain ⟨m', report, success⟩ := ramp_continuize ℚ "continuize"
  refine ⟨ramp_valid ℚ, m', report, success, ?_⟩
  refine (Model.continuize_valid_iff (ramp_valid ℚ) rfl success).mpr ?_
  intro name asked
  cases asked

/-- The ramp with a constant. -/
def ratedRamp : Model (Extended ℚ) where
  root := .flat { rampAutomaton ℚ with constants := .ofList [("T", ⟨1, 1⟩)] }
  init := .ofList [("rise", .bool true)]
  settings := .initial

/-- A sampling that asks for a clock by the name of that constant. -/
def ratedSampling : Continuization (Extended ℚ) where
  sampled := "u"
  clock := some "T"
  period := 1
  breakpoints := [1]
  bloats := [0]

/-- The clock is introduced beside the constant of its name, and the model is broken. -/
theorem ratedRamp_continuize_not_valid : ratedRamp.Valid ∧ ∃ m' report,
    ratedRamp.continuize ratedSampling (rampContext ℚ) "continuize" = .ok (m', report) ∧
      ¬m'.Valid := by
  have valid : ratedRamp.Valid := by
    rw [Model.Valid]
    decide +kernel
  have broken : (ratedRamp.continuize ratedSampling (rampContext ℚ) "continuize").toOption.any
      (fun result => !result.1.violations.isEmpty) = true := by decide +kernel
  cases made : ratedRamp.continuize ratedSampling (rampContext ℚ) "continuize" with
  | error => simp [made, Except.toOption] at broken
  | ok result =>
      simp only [made, Except.toOption, Option.any_some, Bool.not_eq_true',
        List.isEmpty_eq_false_iff] at broken
      exact ⟨valid, result.1, result.2, rfl, broken⟩

end HybridAutomata
