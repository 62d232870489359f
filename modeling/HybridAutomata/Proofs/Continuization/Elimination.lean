import HybridAutomata.Proofs.Continuization.TimeTriggered

/-!
# Elimination of the sampling

A time-triggered continuization leaves no sampling loop. The law takes the place of the sampled
variable in the windows of its mode, so a window mentions the variable beside its own rate exactly
if the law does. The conditions on the clock, its rates and its new values go with the loops; the
clock comes back in what is made for the windows exactly if a law that is put in place mentions it,
or if the time variable of the windows gets its name.
-/

namespace HybridAutomata

open Continuization Success

variable {α : Type}

/-! ## Formulas without a variable -/

namespace Expr

/-- A law without the variable that it replaces leaves none of it. -/
theorem not_mem_names_substitute {e law : Expr α} {name : String} (h : name ∉ law.names) :
    name ∉ (e.substitute name law).names := by
  rw [mem_names_substitute]
  rintro (⟨_, ne⟩ | ⟨_, mem⟩)
  · exact ne rfl
  · exact h mem

/-- What neither the formula nor the law mentions, the formula does not mention afterwards. -/
theorem not_mem_names_substitute_of_not_mem {e law : Expr α} {name replaced : String}
    (h : name ∉ e.names) (hlaw : name ∉ law.names) : name ∉ (e.substitute replaced law).names := by
  rw [mem_names_substitute]
  rintro (⟨mem, _⟩ | ⟨_, mem⟩)
  · exact h mem
  · exact hlaw mem

end Expr

namespace Mode

variable {m : Mode α} {name sampled : String} {law? : Option (Expr α)}

theorem FreeOf.inlined (h : m.FreeOf name) (free : ∀ law, law? = some law → name ∉ law.names) :
    (m.inlined sampled law?).FreeOf name := by
  cases law? with
  | none => exact h
  | some law =>
      refine ⟨Expr.not_mem_names_substitute_of_not_mem h.invariant (free law rfl), ?_⟩
      rw [Mode.inlined, flowOf?_inlineLaw, h.rate, Option.map_none]

/-- The law changes no rate that is a number. -/
theorem flowOf?_inlined_of_num {y : String} {rate : α}
    (h : m.flowOf? y = some (.exact (.num rate))) :
    (m.inlined sampled law?).flowOf? y = some (.exact (.num rate)) := by
  cases law? with
  | none => exact h
  | some law =>
      rw [Mode.inlined, flowOf?_inlineLaw, h, Option.map_some]
      split <;> rfl

theorem hasFlow_of_flowOf? {y : String} {rate : Perturbed α} (h : m.flowOf? y = some rate) :
    m.hasFlow = true := by
  obtain ⟨_, flow, _, _⟩ := m
  cases flow with
  | none => cases h
  | some flow => rfl

theorem mem_names_invariant_inlined {y : String} (h : y ∈ m.invariant.names) (ne : y ≠ sampled) :
    y ∈ (m.inlined sampled law?).invariant.names := by
  cases law? with
  | none => exact h
  | some law => exact Expr.mem_names_substitute.mpr (.inl ⟨h, ne⟩)

theorem instant_freeOf (mode : String) : (instant mode : Mode α).FreeOf name :=
  ⟨List.not_mem_nil, rfl⟩

end Mode

theorem Transition.FreeOf.inlined {t : Transition α} {name sampled : String}
    {law? : Option (Expr α)} (h : t.FreeOf name)
    (free : ∀ law, law? = some law → name ∉ law.names) : (t.inlined sampled law?).FreeOf name := by
  cases law? with
  | none => exact h
  | some law =>
      refine ⟨Expr.not_mem_names_substitute_of_not_mem h.guard (free law rfl), ?_⟩
      rw [Transition.keys_inlined]
      exact h.value

/-! ## Windows without a variable -/

section

variable [Scalar α] {c : Continuization α} {clock name : String}

omit [Scalar α] in
theorem mem_names_insideWindow {index : Nat} {window : Interval α}
    (h : name ∈ (insideWindow clock index window).names) : name = clock := by
  rw [insideWindow] at h
  split at h
  · simpa [Expr.names] using h
  · simpa [Expr.mem_names_and, Expr.names] using h

theorem mem_names_windowInvariant {e : Expr α} {index : Nat} {window : Interval α}
    (h : name ∈ (c.windowInvariant clock index window e).names) :
    name ∈ e.names ∨ name = clock := by
  rw [windowInvariant] at h
  split at h
  · simpa [Expr.mem_names_and, Expr.names] using h
  · simpa [Expr.mem_names_and, Expr.names, or_assoc] using h

/-- The invariant of a window ends it. -/
theorem clock_mem_names_windowInvariant {e : Expr α} {index : Nat} {window : Interval α} :
    clock ∈ (c.windowInvariant clock index window e).names := by
  simp [windowInvariant, Expr.mem_names_and, Expr.names]

omit [Scalar α] in
theorem mem_names_windowJumps {watched : Expr α} {plan : WindowPlan α} {t : Transition α}
    (jump : t ∈ windowJumps clock watched plan) (h : name ∈ t.guard.names) :
    name ∈ watched.names ∨ name = clock := by
  rw [windowJumps] at jump
  split at jump <;> simp only [List.cons_append, List.nil_append, List.append_nil, List.mem_cons,
    List.not_mem_nil, or_false] at jump
  · obtain rfl | rfl | rfl := jump
    · exact .inl (by simpa [Expr.names] using h)
    · exact .inl (by simpa [Expr.names] using h)
    · exact .inr (by simpa [Expr.names] using h)
  · obtain rfl | rfl := jump <;> exact .inl (by simpa [Expr.names] using h)

variable {a a' : Automaton α} {ranges : NameMap (List (Interval α))}

theorem Continuization.WindowOf.freeOf {mode : String} {index : Nat} {m w : Mode α}
    {rate : Perturbed α} {plan : WindowPlan α}
    (window : WindowOf c a clock ranges mode index m rate plan w) (h : m.FreeOf name)
    (ne : name ≠ clock) : w.FreeOf name := by
  obtain ⟨_, _, _, invariant, widened⟩ := windowMode_eq_ok window.made
  constructor
  · rw [invariant]
    exact fun mem => (mem_names_windowInvariant mem).elim h.invariant ne
  · obtain ⟨_, none⟩ | ⟨_, _, before, _, _⟩ := widened name
    · exact none
    · rw [h.rate] at before
      cases before

omit [Scalar α] in
theorem Transition.FreeOf.copyFor {t : Transition α} (h : t.FreeOf name) (ne : name ≠ clock)
    (continuized : String → Bool) (index : Nat) (window : Interval α) :
    (Continuization.copyFor clock continuized t index window).FreeOf name := by
  refine ⟨?_, h.value⟩
  rw [Continuization.copyFor]
  dsimp only
  split
  · rw [Expr.mem_names_and]
    rintro (mem | mem)
    · exact h.guard mem
    · exact ne (mem_names_insideWindow mem)
  · exact h.guard

theorem Mode.FreeOf.withClock {m : Mode α} {source : ClockSource} (h : m.FreeOf name)
    (ne : name ≠ source.name) : (m.withClock source).FreeOf name where
  invariant := by
    rw [withClock_invariant]
    exact h.invariant
  rate := by
    rw [flowOf?_withClock_of_ne ne]
    exact h.rate

namespace Continuization.Synthesized

variable {parts : List (ModeWindows α)} {report : List (WindowRange α)}

/-- What stands for two modes in a window is one mode only if they are. -/
theorem standIn_inj (h : Synthesized c a clock ranges parts a' report) {mode mode' : String}
    (mem : mode ∈ a.modes.keys) (mem' : mode' ∈ a.modes.keys) {index : Nat}
    (hindex : index < c.windows.length)
    (same : standIn ranges.contains mode index = standIn ranges.contains mode' index) :
    mode = mode' := by
  have fresh {mode : String} (mem : mode ∈ a.modes.keys) (continuized : ranges.contains mode) :=
    h.fresh mem (NameMap.contains_iff.mp continuized)
  have first {mode mode' : String} (mem : mode ∈ a.modes.keys) (mem' : mode' ∈ a.modes.keys)
      (continuized : ranges.contains mode) (same : windowName mode index = mode') :
      mode = mode' :=
    ((fresh mem continuized).eq_of_mem hindex (mem_windowNames.mpr (.inl same.symm)) mem').1.symm
  rw [standIn, standIn] at same
  split at same <;> split at same
  · next left right =>
      exact (windowName_inj mem mem' (fresh mem left) (fresh mem' right) hindex hindex same).1
  · next left right => exact first mem mem' left same
  · next left right => exact (first mem' mem right same.symm).symm
  · exact same

/-- A transition of the result is a copy, or unchanged, or a jump that changes no value. -/
theorem transition_cases (h : Synthesized c a clock ranges parts a' report) {t : Transition α}
    (mem : t ∈ a'.transitions) :
    (∃ original ∈ a.transitions, ∃ index < c.windows.length, ∃ window,
      t = copyFor clock ranges.contains original index window) ∨
    t ∈ a.transitions ∨
    ∃ mode index m rate plan w, WindowOf c a clock ranges mode index m rate plan w ∧
      t ∈ windowJumps clock (c.watched rate.expr) plan := by
  rw [h.transitions, List.mem_append] at mem
  obtain mem | mem := mem
  · obtain ⟨original, before, copied⟩ := List.mem_flatMap.mp mem
    rw [windowTransitions_eq] at copied
    split at copied
    · obtain ⟨index, hindex, rfl⟩ := List.mem_mapIdx.mp copied
      exact .inl ⟨original, before, index, hindex, _, rfl⟩
    · exact .inr (.inl (List.mem_singleton.mp copied ▸ before))
  · exact .inr (.inr (h.mem_jumps.mp mem))

/-- Transitions of a mode to itself that set nothing have copies that set nothing. -/
theorem reset_of_self (h : Synthesized c a clock ranges parts a' report)
    (endpoints : ∀ t ∈ a.transitions, t.source ∈ a.modes.keys ∧ t.target ∈ a.modes.keys)
    (loops : ∀ t ∈ a.transitions, t.source = t.target → t.reset.entries = []) {t : Transition α}
    (mem : t ∈ a'.transitions) (self : t.source = t.target) : t.reset.entries = [] := by
  obtain ⟨original, before, index, hindex, window, rfl⟩ | before |
      ⟨_, _, _, _, _, _, window, jump⟩ := h.transition_cases mem
  · obtain ⟨source, target⟩ := endpoints original before
    exact loops original before (h.standIn_inj source target hindex self)
  · exact loops t before self
  · rw [(target_of_windowJumps window.nextMode jump).1]
    rfl

/-- What is made for the windows of an automaton without a variable is without it, unless the
variable measures time or is watched. -/
theorem freeOf (h : Synthesized c a clock ranges parts a' report) (ne : name ≠ clock)
    (modes : ∀ mode m, a.mode? mode = some m → m.FreeOf name)
    (transitions : ∀ t ∈ a.transitions, t.FreeOf name)
    (watched : ∀ mode m rate, a.mode? mode = some m → m.flowOf? c.sampled = some rate →
      name ∉ (c.watched rate.expr).names) :
    (∀ mode m, a'.mode? mode = some m → m.FreeOf name) ∧
      ∀ t ∈ a'.transitions, t.FreeOf name := by
  constructor
  · intro mode m found
    obtain ⟨found, _⟩ | ⟨_, _, _, _, _, _, window, made⟩ := h.mode?_eq_some_iff.mp found
    · exact modes mode m found
    · obtain rfl | rfl := (mem_modesOf made).2
      · exact window.freeOf (modes _ _ window.mode) ne
      · exact Mode.instant_freeOf _
  · intro t mem
    obtain ⟨original, before, index, _, window, rfl⟩ | before |
        ⟨_, _, _, _, _, _, window, jump⟩ := h.transition_cases mem
    · exact (transitions original before).copyFor ne _ _ _
    · exact transitions t before
    · refine ⟨fun mem => ?_, ?_⟩
      · exact (mem_names_windowJumps jump mem).elim
          (watched _ _ _ window.mode window.sampled) ne
      · rw [(target_of_windowJumps window.nextMode jump).1]
        exact List.not_mem_nil

end Continuization.Synthesized

end

/-! ## The result -/

namespace Automaton

/-- In a mode and on the ways out of it, a variable is mentioned by its own rate at most. -/
structure Eliminates (a : Automaton α) (mode name : String) : Prop where
  rates : ∀ m, a.mode? mode = some m → ∀ y rate, m.flowOf? y = some rate → y ≠ name →
    name ∉ rate.expr.names
  invariant : ∀ m, a.mode? mode = some m → name ∉ m.invariant.names
  guards : ∀ t ∈ a.transitionsFrom mode, name ∉ t.guard.names
  values : ∀ t ∈ a.transitionsFrom mode, ∀ entry ∈ t.reset.entries, name ∉ entry.2.expr.names

end Automaton

/-- No condition of the model is on a variable, and nothing changes the variable. -/
structure Model.FreeOf (m : Model α) (name : String) : Prop where
  modes : ∀ a ∈ m.root.automata, ∀ mode ∈ a.modes.values, mode.FreeOf name
  transitions : ∀ a ∈ m.root.automata, ∀ t ∈ a.transitions, t.FreeOf name
  init : ∀ entry ∈ m.init.entries, name ∉ entry.2.names
  forbidden : ∀ entry ∈ m.forbidden.entries, name ∉ entry.2.names

variable [Scalar α]

namespace TimeTriggered

variable {c : Continuization α} {s : Sampling α} {m m' : Model α} {a left windowed : Automaton α}
  {source : ClockSource} {ranges : NameMap (List (Interval α))} {parts : List (ModeWindows α)}
  {report : List (WindowRange α)}

/-- Nothing is left of the loops: what leads from a mode to itself sets nothing. -/
theorem reset_of_self (h : TimeTriggered c s m m' a left windowed source ranges parts report)
    (kept : left.WellFormed) {t : Transition α}
    (mem : t ∈ (s.inlineLaws (s.lawOfWindow report) windowed).transitions)
    (self : t.source = t.target) : t.reset.entries = [] := by
  rw [Sampling.transitions_inlineLaws] at mem
  obtain ⟨original, before, rfl⟩ := List.mem_map.mp mem
  rw [Transition.inlined_source, Transition.inlined_target] at self
  have endpoints : ∀ t ∈ (left.withClock source).transitions,
      t.source ∈ (left.withClock source).modes.keys ∧
        t.target ∈ (left.withClock source).modes.keys := by
    intro t mem
    rw [Automaton.withClock_transitions] at mem
    rw [Automaton.keys_withClock]
    exact ⟨(kept.transitions t mem).source, (kept.transitions t mem).target⟩
  have nothing : original.reset.entries = [] := by
    refine h.windows.made.reset_of_self endpoints ?_ before self
    rw [Automaton.withClock_transitions]
    exact fun t mem => h.leaves.reset_of_self mem
  rw [← List.map_eq_nil_iff (f := Prod.fst), ← NameMap.keys, Transition.keys_inlined,
    NameMap.keys, nothing, List.map_nil]

/-- A window with a law is a mode with the law in place. -/
theorem exists_inlineLaw (h : TimeTriggered c s m m' a left windowed source ranges parts report)
    {r : WindowRange α} (mem : r ∈ report) {law : Expr α} (found : s.laws.find? r.mode = some law)
    {w : Mode α} (stored : (s.inlineLaws (s.lawOfWindow report) windowed).mode? r.windowMode =
      some w) : ∃ original : Mode α, w = original.inlineLaw s.sampled law := by
  rw [Sampling.mode?_inlineLaws, h.find?_lawOfWindow mem, found, Option.map_eq_some_iff] at stored
  obtain ⟨original, _, rfl⟩ := stored
  exact ⟨original, rfl⟩

/-- The ways out of a window with a law are transitions with the law in place. -/
theorem exists_substitute (h : TimeTriggered c s m m' a left windowed source ranges parts report)
    {r : WindowRange α} (mem : r ∈ report) {law : Expr α} (found : s.laws.find? r.mode = some law)
    {t : Transition α} (leaves :
      t ∈ (s.inlineLaws (s.lawOfWindow report) windowed).transitionsFrom r.windowMode) :
    ∃ original : Transition α, t = original.mapExprs (·.substitute s.sampled law) := by
  obtain ⟨inside, from_⟩ := List.mem_filter.mp leaves
  rw [Sampling.transitions_inlineLaws] at inside
  obtain ⟨original, _, rfl⟩ := List.mem_map.mp inside
  rw [Transition.inlined_source, beq_iff_eq] at from_
  rw [from_, h.find?_lawOfWindow mem, found]
  exact ⟨original, rfl⟩

/-- A window with a law that does not mention the sampled variable is without that variable. -/
theorem eliminates (h : TimeTriggered c s m m' a left windowed source ranges parts report)
    {r : WindowRange α} (mem : r ∈ report) {law : Expr α} (found : s.laws.find? r.mode = some law)
    (free : s.sampled ∉ law.names) :
    (s.inlineLaws (s.lawOfWindow report) windowed).Eliminates r.windowMode s.sampled := by
  refine { rates := ?_, invariant := ?_, guards := ?_, values := ?_ }
  · intro m stored y rate given ne
    obtain ⟨original, rfl⟩ := h.exists_inlineLaw mem found stored
    rw [Mode.flowOf?_inlineLaw, Option.map_eq_some_iff] at given
    obtain ⟨before, _, rfl⟩ := given
    rw [if_neg ne]
    exact Expr.not_mem_names_substitute free
  · intro m stored
    obtain ⟨original, rfl⟩ := h.exists_inlineLaw mem found stored
    exact Expr.not_mem_names_substitute free
  · intro t leaves
    obtain ⟨original, rfl⟩ := h.exists_substitute mem found leaves
    exact Expr.not_mem_names_substitute free
  · intro t leaves entry given
    obtain ⟨original, rfl⟩ := h.exists_substitute mem found leaves
    obtain ⟨before, _, rfl⟩ := List.mem_map.mp given
    exact Expr.not_mem_names_substitute free

/-- A law that mentions a variable shows it in a guard of each of its windows. -/
theorem exists_guard (h : TimeTriggered c s m m' a left windowed source ranges parts report)
    {r : WindowRange α} (mem : r ∈ report) {law : Expr α} (found : s.laws.find? r.mode = some law)
    {name : String} (mentioned : name ∈ law.names) :
    ∃ t ∈ (s.inlineLaws (s.lawOfWindow report) windowed).transitionsFrom r.windowMode,
      name ∈ t.guard.names := by
  obtain ⟨t, inside, from_, guard⟩ := h.exists_lowerJump mem found
  refine ⟨t, List.mem_filter.mpr ⟨inside, beq_iff_eq.mpr from_⟩, ?_⟩
  rw [guard]
  exact List.mem_append_left _ mentioned

/-- Time is kept in the windows by the variable that was found or introduced for them. -/
theorem keepsTime (h : TimeTriggered c s m m' a left windowed source ranges parts report)
    (kept : left.WellFormed) {r : WindowRange α} (mem : r ∈ report) :
    ∃ w one, (s.inlineLaws (s.lawOfWindow report) windowed).mode? r.windowMode = some w ∧
      w.flowOf? source.name = some (.exact (.num one)) ∧ IsOne one ∧
      source.name ∈ w.invariant.names := by
  obtain ⟨_, hsource⟩ := h.windows.clock
  obtain ⟨name, index, clocked, rate, plan, w, window, rfl⟩ := h.windows.made.mem_report.mp mem
  obtain ⟨named, _, flows, invariant, _⟩ := windowMode_eq_ok window.made
  have stored : windowed.mode? plan.range.windowMode = some w :=
    h.windows.made.mode?_eq_some_iff.mpr
      (.inr ⟨_, _, _, _, _, _, window, named ▸ List.mem_cons_self⟩)
  have hasFlow : clocked.hasFlow = true := Mode.hasFlow_of_flowOf? window.sampled
  obtain ⟨one, measured, isOne⟩ :=
    h.windows.made.clock_rate hsource stored (flows.trans hasFlow)
  refine ⟨_, one, by rw [Sampling.mode?_inlineLaws, stored, Option.map_some],
    Mode.flowOf?_inlined_of_num measured, isOne,
    Mode.mem_names_invariant_inlined ?_ (h.clock_ne_sampled kept)⟩
  rw [invariant]
  exact clock_mem_names_windowInvariant

/-- The initial regions get a condition on the time variable at most. -/
theorem not_mem_names_init
    (h : TimeTriggered c s m m' a left windowed source ranges parts report)
    (ne : s.clock ≠ source.name) : ∀ entry ∈ m'.init.entries, s.clock ∉ entry.2.names := by
  have removed : ∀ entry ∈ (m.withoutClock left s.clock).init.entries,
      s.clock ∉ entry.2.names := by
    intro entry mem
    obtain ⟨original, _, rfl⟩ := List.mem_map.mp mem
    exact fun mem => (Expr.mem_names_of_withoutConjunctsMentioning mem).2 rfl
  intro entry mem
  replace mem : entry ∈ ((m.withoutClock left s.clock).withClock left source).init.entries :=
    h.windows.init ▸ mem
  cases source with
  | existing => exact removed entry mem
  | introduced time =>
      obtain ⟨original, stored, rfl⟩ := List.mem_map.mp mem
      rw [Expr.mem_names_and]
      rintro (mem | mem)
      · exact removed original stored mem
      · exact ne (by simpa [Expr.names, ClockSource.name] using mem)

/-- Nothing of the clock is left if no law brings it back and time has another name. -/
theorem freeOf (h : TimeTriggered c s m m' a left windowed source ranges parts report)
    (read : s.IsReadOff a) (ne : s.clock ≠ source.name)
    (laws : ∀ r ∈ report, ∀ law, s.laws.find? r.mode = some law → s.clock ∉ law.names) :
    m'.FreeOf s.clock := by
  have windows := h.windows.made.freeOf ne
    (fun mode m found => by
      obtain ⟨original, stored, rfl⟩ := Continuized.mode?_clocked found
      exact (h.leaves.mode_freeOf stored).withClock ne)
    (fun t mem => h.leaves.transition_freeOf (Automaton.withClock_transitions source left ▸ mem))
    (fun mode m rate _ _ => by
      rw [Continuization.watched, h.target, h.sampled]
      simpa [Expr.names] using read.apart.symm)
  have lawFree {name : String} : ∀ law, (s.lawOfWindow report).find? name = some law →
      s.clock ∉ law.names := by
    intro law found
    obtain ⟨r, mem, _, found⟩ := Sampling.exists_of_find?_lawOfWindow found
    exact laws r mem law found
  refine ⟨?_, ?_, h.not_mem_names_init ne, ?_⟩
  · intro result inside mode mem
    obtain rfl := List.mem_singleton.mp (h.automata ▸ inside)
    obtain ⟨key, found⟩ := Automaton.mem_values_iff.mp mem
    rw [Sampling.mode?_inlineLaws, Option.map_eq_some_iff] at found
    obtain ⟨original, found, rfl⟩ := found
    exact (windows.1 key original found).inlined lawFree
  · intro result inside t mem
    obtain rfl := List.mem_singleton.mp (h.automata ▸ inside)
    rw [Sampling.transitions_inlineLaws] at mem
    obtain ⟨original, before, rfl⟩ := List.mem_map.mp mem
    exact (windows.2 original before).inlined lawFree
  · intro entry mem
    rw [h.forbidden] at mem
    obtain ⟨mode, given, _⟩ := Continuized.mem_forbiddenRegions mem
    obtain ⟨original, _, same⟩ := List.mem_map.mp given
    have region : original.2.withoutConjunctsMentioning s.clock = entry.2 :=
      congrArg Prod.snd same
    rw [← region]
    exact fun mem => (Expr.mem_names_of_withoutConjunctsMentioning mem).2 rfl

/-- If nothing of the clock is left, time has another name. -/
theorem clock_ne_of_freeOf (h : TimeTriggered c s m m' a left windowed source ranges parts report)
    (kept : left.WellFormed) (free : m'.FreeOf s.clock) : s.clock ≠ source.name := by
  intro same
  obtain ⟨_, _, _, _, _, _, window⟩ := h.exists_window kept
  obtain ⟨w, _, stored, _, _, mentioned⟩ :=
    h.keepsTime kept (h.windows.made.mem_report.mpr ⟨_, _, _, _, _, _, window, rfl⟩)
  exact (free.modes _ (h.automata ▸ List.mem_singleton_self _) w
    (Automaton.mem_values_of_mode? stored)).invariant (same ▸ mentioned)

/-- If nothing of the clock is left, no law that is put in place mentions it. -/
theorem not_mem_names_of_freeOf
    (h : TimeTriggered c s m m' a left windowed source ranges parts report)
    (free : m'.FreeOf s.clock) {r : WindowRange α} (mem : r ∈ report) {law : Expr α}
    (found : s.laws.find? r.mode = some law) : s.clock ∉ law.names := by
  intro mentioned
  obtain ⟨t, leaves, guarded⟩ := h.exists_guard mem found mentioned
  exact (free.transitions _ (h.automata ▸ List.mem_singleton_self _) t
    (List.mem_filter.mp leaves).1).guard guarded

end TimeTriggered

/-- What a time-triggered continuization leaves of a sampling: no loop; in the windows of a mode,
the sampled variable exactly if the law of the mode mentions it; and the clock exactly if a law
mentions it, or the variable that measures time in the windows has its name. -/
structure SamplingLeft (s : Sampling α) (a : Automaton α) (count : Nat) (m' : Model α)
    (a' : Automaton α) (time : String) : Prop where
  result : m'.automaton = .ok a'
  windows : 0 < count
  loops : ∀ t ∈ a'.transitions, t.source = t.target → t.reset.entries = []
  sampled : ∀ mode law, a.continuizes s.sampled mode = true → a.Samples mode s.sampled law →
    ∀ index < count,
      (a'.Eliminates (windowName mode index) s.sampled ↔ s.sampled ∉ law.names)
  measured : ∀ mode, a.continuizes s.sampled mode = true → ∀ index < count,
    ∃ w one, a'.mode? (windowName mode index) = some w ∧
      w.flowOf? time = some (.exact (.num one)) ∧ IsOne one ∧ time ∈ w.invariant.names
  clock : m'.FreeOf s.clock ↔ s.clock ≠ time ∧
    ∀ mode law, a.continuizes s.sampled mode = true → a.Samples mode s.sampled law →
      s.clock ∉ law.names

theorem Model.continuizeTimeTriggered_samplingLeft {m m' : Model α} {p : MacroSteps α}
    {ctx : Context α} {pass : String} {report : List (WindowRange α)} (valid : m.Valid)
    (success : m.continuizeTimeTriggered p ctx pass = .ok (m', report)) :
    ∃ count a s a' time, p.check m.settings.horizon pass = .ok count ∧ m.automaton = .ok a ∧
      Sampling.read a ctx.tolerance = .ok s ∧ SamplingLeft s a count m' a' time := by
  obtain ⟨count, s, a, left, windowed, source, ranges, parts, checked, success, steps⟩ :=
    continuizeTimeTriggered_steps success
  have read := Sampling.read_eq_ok (valid.storedByName steps.flat) success
  have kept := steps.wellFormed_left read (valid_iff.mp valid)
  have windows {mode : String} (continuized : a.continuizes s.sampled mode = true) {index : Nat}
      (hindex : index < count) :
      ∃ r ∈ report, r.mode = mode ∧ r.windowMode = windowName mode index :=
    steps.exists_mem_report read kept continuized
      (by simpa [MacroSteps.toContinuization] using hindex)
  have count_pos : 0 < count := by
    simpa [MacroSteps.toContinuization] using
      List.length_pos_of_ne_nil steps.windows.accepted.nonempty
  refine ⟨count, a, s, _, source.name, checked, steps.flat, success, {
    result := steps.result
    windows := count_pos
    loops := fun t mem => steps.reset_of_self kept mem
    sampled := ?_
    measured := ?_
    clock := ?_ }⟩
  · intro mode law continuized samples index hindex
    obtain ⟨r, mem, rfl, named⟩ := windows continuized hindex
    have found := (read.laws r.mode law).mpr samples
    rw [← named]
    constructor
    · intro eliminated mentioned
      obtain ⟨t, leaves, guarded⟩ := steps.exists_guard mem found mentioned
      exact eliminated.guards t leaves guarded
    · exact steps.eliminates mem found
  · intro mode continuized index hindex
    obtain ⟨r, mem, _, named⟩ := windows continuized hindex
    exact named ▸ steps.keepsTime kept mem
  · constructor
    · intro free
      refine ⟨steps.clock_ne_of_freeOf kept free, ?_⟩
      intro mode law continuized samples
      obtain ⟨r, mem, rfl, _⟩ := windows continuized count_pos
      exact steps.not_mem_names_of_freeOf free mem ((read.laws r.mode law).mpr samples)
    · rintro ⟨ne, laws⟩
      exact steps.freeOf read ne fun r mem law found =>
        laws r.mode law (steps.continuizes_of_mem read kept mem) ((read.laws r.mode law).mp found)

/-- With the law `x`, nothing is left of `u` in the mode of the meter, and nothing of the clock. -/
theorem meter_samplingLeft : (meter ℚ (.var "x") ("", "")).Valid ∧ ∃ m' report a',
    (meter ℚ (.var "x") ("", "")).continuizeTimeTriggered (meterSteps ℚ) (meterContext ℚ (-2) 0)
        "continuize" = .ok (m', report) ∧
      m'.automaton = .ok a' ∧ a'.Eliminates "on" "u" ∧ m'.FreeOf "c" := by
  have valid := meter_valid ℚ
  obtain ⟨⟨m', report⟩, success, stopped⟩ := exists_ok_of_any
    (p := fun result => result.1.root.automata.all fun a =>
      (a.mode? "on").all fun w => (w.flowOf? "c").isNone)
    (x := (meter ℚ (.var "x") ("", "")).continuizeTimeTriggered (meterSteps ℚ)
      (meterContext ℚ (-2) 0) "continuize") (by decide +kernel)
  obtain ⟨count, a, s, a', time, _, flat, read, left⟩ :=
    Model.continuizeTimeTriggered_samplingLeft valid success
  obtain rfl : meterAutomaton ℚ (.var "x") = a := Except.ok.inj flat
  obtain rfl : meterSampling ℚ (.var "x") = s :=
    Except.ok.inj ((meter_read ℚ (.var "x")).symm.trans read)
  have samples : (meterAutomaton ℚ (.var "x")).Samples "on" "u" (.var "x") :=
    (meter_samples_iff ℚ _).mpr ⟨rfl, rfl⟩
  obtain ⟨w, _, found, rate, _⟩ := left.measured "on" rfl 0 left.windows
  have other : "c" ≠ time := by
    rintro rfl
    rw [Model.automaton_eq_ok_iff.mp left.result, Component.automata] at stopped
    simp [show windowName "on" 0 = "on" from rfl] at found
    simp [found, rate] at stopped
  refine ⟨valid, m', report, a', success, left.result,
    (left.sampled "on" _ rfl samples 0 left.windows).mpr (by decide), left.clock.mpr ⟨other, ?_⟩⟩
  intro mode law _ samples
  obtain ⟨_, rfl⟩ := (meter_samples_iff ℚ _).mp samples
  decide

/-- A law that mentions both the sampled variable and the clock. -/
def feedbackLaw : Expr (Extended ℚ) := .add (.add (.var "x") (.var "u")) (.var "c")

/-- With that law, the ways out of the window of the meter depend on both. -/
theorem feedbackMeter_not_eliminates : (meter ℚ feedbackLaw ("", "")).Valid ∧
    (meterAutomaton ℚ feedbackLaw).Samples "on" "u" feedbackLaw ∧
    ∃ m' report a', (meter ℚ feedbackLaw ("", "")).continuizeTimeTriggered (meterSteps ℚ)
        (meterContext ℚ (-2) 0) "continuize" = .ok (m', report) ∧
      m'.automaton = .ok a' ∧ ¬a'.Eliminates "on" "u" ∧ ¬m'.FreeOf "c" := by
  have valid : (meter ℚ feedbackLaw ("", "")).Valid := by
    rw [Model.Valid]
    decide +kernel
  obtain ⟨⟨m', report⟩, success, mentioned⟩ := exists_ok_of_any
    (p := fun result => result.1.root.automata.any fun a =>
      (a.transitionsFrom "on").any fun t => t.guard.mentions "u" && t.guard.mentions "c")
    (x := (meter ℚ feedbackLaw ("", "")).continuizeTimeTriggered (meterSteps ℚ)
      (meterContext ℚ (-2) 0) "continuize") (by decide +kernel)
  obtain ⟨_, _, _, _, _, _, _, _, _, _, steps⟩ := Model.continuizeTimeTriggered_steps success
  refine ⟨valid, (meter_samples_iff ℚ _).mpr ⟨rfl, rfl⟩, m', report, _, success, steps.result, ?_⟩
  rw [steps.automata] at mentioned
  simp only [List.any_cons, List.any_nil, Bool.or_false, List.any_eq_true, Bool.and_eq_true,
    Expr.mentions_iff] at mentioned
  obtain ⟨t, mem, sampled, clock⟩ := mentioned
  constructor
  · intro eliminated
    exact eliminated.guards t mem sampled
  · intro free
    exact (free.transitions _ (steps.automata ▸ List.mem_singleton_self _) t
      (List.mem_filter.mp mem).1).guard clock

end HybridAutomata
