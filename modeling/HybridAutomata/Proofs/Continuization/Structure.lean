import HybridAutomata.Proofs.Continuization.EventTriggered

/-!
# The structure of a continuized automaton

A continuized mode becomes one window mode and two error modes per window, and all names in the
result are distinct. Error modes are dead ends with a single way in. The transitions of the model
are copied for every window where an end of them is continuized, and the clock measures time
wherever it passes.
-/

namespace HybridAutomata

open Continuization

variable {α : Type} [Scalar α]

namespace Continuization

/-! ## Sizes -/

theorem length_madeNames (count : Nat) (mode : String) :
    (madeNames count mode).length = 3 * count := by
  rw [madeNames, List.length_flatMap]
  simp [windowNames, Nat.mul_comm]

/-- A continuized mode is replaced by three modes per window. -/
theorem length_namesAfter (count : Nat) (continuized : String → Bool) (modes : List String) :
    (namesAfter count continuized modes).length + modes.countP continuized =
      modes.length + 3 * count * modes.countP continuized := by
  induction modes with
  | nil => simp [namesAfter]
  | cons mode modes ih =>
      have unfolded : namesAfter count continuized (mode :: modes) =
          (if continuized mode then madeNames count mode else [mode]) ++
            namesAfter count continuized modes := List.flatMap_cons
      rw [unfolded, List.length_append, List.countP_cons, List.length_cons]
      cases continuized mode with
      | true =>
          rw [if_pos rfl, if_pos rfl, length_madeNames, Nat.mul_add]
          omega
      | false =>
          simp only [Bool.false_eq_true, ↓reduceIte, List.length_singleton, Nat.add_zero]
          omega

/-! ## Copies of transitions -/

/-- The name of what stands for a mode in a window. -/
def standIn (continuized : String → Bool) (name : String) (index : Nat) : String :=
  if continuized name then windowName name index else name

/-- The copy of a transition for a window: an end that is continuized is the mode of the window, and
who enters from outside enters the window to which the time belongs. -/
def copyFor (clock : String) (continuized : String → Bool) (t : Transition α) (index : Nat)
    (window : Interval α) : Transition α :=
  { t with
    source := standIn continuized t.source index
    target := standIn continuized t.target index
    guard :=
      if !continuized t.source && continuized t.target then
        t.guard.and (insideWindow clock index window)
      else t.guard }

omit [Scalar α] in
/-- The four kinds of transitions, told apart by their ends, in one form. -/
theorem windowTransitions_eq (clock : String) (windows : List (Interval α))
    (continuized : String → Bool) (t : Transition α) :
    windowTransitions clock windows continuized t =
      if continuized t.source || continuized t.target then
        windows.mapIdx (copyFor clock continuized t)
      else [t] := by
  unfold windowTransitions copyFor standIn
  split <;> next source target => simp [source, target]

/-! ## Names of error modes -/

/-- An error mode of a window. -/
def IsErrorName (name window : String) : Prop :=
  name = lowerErrorName window ∨ name = upperErrorName window

theorem numbered_ne_error {name mode window : String} {index : Nat} (h : 0 < index)
    (error : IsErrorName name window) : numbered mode index ≠ name := by
  obtain rfl | rfl := error
  · exact numbered_ne_lowerErrorName h
  · exact numbered_ne_upperErrorName h

section

variable {modes : List String} {count i : Nat} {mode name : String}

theorem IsErrorName.mem_windowNames (error : IsErrorName name (windowName mode i)) :
    name ∈ windowNames mode i :=
  Continuization.mem_windowNames.mpr (.inr error)

/-- Error modes are new. -/
theorem IsErrorName.not_mem (error : IsErrorName name (windowName mode i))
    (fresh : Fresh modes count mode) (hi : i < count) : name ∉ modes := by
  intro mem
  obtain ⟨rfl, rfl⟩ := fresh.eq_of_mem hi error.mem_windowNames mem
  obtain h | h := error
  · exact windowName_append_ne_self name _ 0 (by simp) h.symm
  · exact windowName_append_ne_self name _ 0 (by simp) h.symm

/-- No window mode of a mode of the automaton is an error mode. -/
theorem windowName_ne_error {other : String} (error : IsErrorName name (windowName mode i))
    (fresh : Fresh modes count mode) (hi : i < count) (hother : other ∈ modes) (j : Nat) :
    windowName other j ≠ name := by
  obtain rfl | positive := Nat.eq_zero_or_pos j
  · rintro rfl
    exact error.not_mem fresh hi hother
  · exact numbered_ne_error positive error

end

/-! ## Ways into an error mode -/

section

variable (clock : String) (watched : Expr α) {name : String} {plan : WindowPlan α}

omit [Scalar α] in
/-- The jumps of a window enter each of its error modes once. -/
theorem filter_windowJumps_of_error (error : IsErrorName name plan.range.windowMode)
    (hnext : ∀ next, plan.nextMode = some next → next ≠ name) :
    ∃ t, (windowJumps clock watched plan).filter (·.target == name) = [t] ∧
      t.source = plan.range.windowMode := by
  have others := lowerErrorName_ne_upperErrorName plan.range.windowMode plan.range.windowMode
  rw [windowJumps]
  obtain rfl | rfl := error <;> split
  · next next found => simp [others.symm, hnext next found]
  · simp [others.symm]
  · next next found => simp [others, hnext next found]
  · simp [others]

omit [Scalar α] in
theorem filter_windowJumps_of_not_error (h : ¬IsErrorName name plan.range.windowMode)
    (hnext : ∀ next, plan.nextMode = some next → next ≠ name) :
    (windowJumps clock watched plan).filter (·.target == name) = [] := by
  obtain ⟨lower, upper⟩ := not_or.mp h
  rw [windowJumps]
  split
  · next next found =>
      simp [Ne.symm lower, Ne.symm upper, hnext next found]
  · simp [Ne.symm lower, Ne.symm upper]

end

omit [Scalar α] in
theorem source_of_windowJumps {clock : String} {watched : Expr α} {plan : WindowPlan α}
    {t : Transition α} (h : t ∈ windowJumps clock watched plan) :
    t.source = plan.range.windowMode := by
  rw [windowJumps] at h
  split at h <;> simp only [List.cons_append, List.nil_append, List.append_nil, List.mem_cons,
    List.not_mem_nil, or_false] at h
  · obtain rfl | rfl | rfl := h <;> rfl
  · obtain rfl | rfl := h <;> rfl

omit [Scalar α] in
/-- The jumps of a window change no value, and end in an error mode or in the next window. -/
theorem target_of_windowJumps {clock next : String} {index count : Nat} {watched : Expr α}
    {plan : WindowPlan α} {t : Transition α}
    (hnext : plan.nextMode = if index + 1 < count then some next else none)
    (h : t ∈ windowJumps clock watched plan) :
    t.reset = ∅ ∧ (IsErrorName t.target plan.range.windowMode ∨
      index + 1 < count ∧ t.target = next) := by
  rw [windowJumps] at h
  rw [hnext] at h
  split at h <;> simp only [List.cons_append, List.nil_append, List.append_nil, List.mem_cons,
    List.not_mem_nil, or_false] at h
  · next found =>
      split at found
      · next more =>
          cases found
          obtain rfl | rfl | rfl := h
          · exact ⟨rfl, .inl (.inl rfl)⟩
          · exact ⟨rfl, .inl (.inr rfl)⟩
          · exact ⟨rfl, .inr ⟨more, rfl⟩⟩
      · cases found
  · obtain rfl | rfl := h
    · exact ⟨rfl, .inl (.inl rfl)⟩
    · exact ⟨rfl, .inl (.inr rfl)⟩

namespace WindowOf

variable {c : Continuization α} {a : Automaton α} {clock name : String}
  {ranges : NameMap (List (Interval α))} {index : Nat} {m w : Mode α} {rate : Perturbed α}
  {plan : WindowPlan α}

theorem mem_keys (h : WindowOf c a clock ranges name index m rate plan w) :
    name ∈ a.modes.keys ∧ name ∈ ranges.keys := by
  obtain ⟨found, hfound, _⟩ := h.raw
  exact ⟨NameMap.mem_keys_iff.mpr ⟨m, h.mode⟩, NameMap.mem_keys_iff.mpr ⟨found, hfound⟩⟩

/-- The next window of a mode is no error mode. -/
theorem next_ne_error (h : WindowOf c a clock ranges name index m rate plan w)
    {error window : String} (isError : IsErrorName error window) (next : String)
    (hnext : plan.nextMode = some next) : next ≠ error := by
  rw [h.nextMode] at hnext
  split at hnext
  · cases hnext
    exact numbered_ne_error (Nat.succ_pos index) isError
  · cases hnext

end WindowOf

namespace Synthesized

variable {c : Continuization α} {a a' : Automaton α} {clock : String}
  {ranges : NameMap (List (Interval α))} {parts : List (ModeWindows α)}
  {report : List (WindowRange α)}

/-- The check of names was passed in every window. -/
theorem fresh (h : Synthesized c a clock ranges parts a' report) {name : String}
    (mem : name ∈ a.modes.keys) (continuized : name ∈ ranges.keys) :
    Fresh a.modes.keys c.windows.length name := by
  intro index hindex
  obtain ⟨m, found⟩ := NameMap.mem_keys_iff.mp mem
  obtain ⟨rate, plan, w, window⟩ := h.windows name continuized m found index hindex
  exact window.names

/-- Among the jumps that were made, one enters a given error mode, and it comes from the window mode
to which that error mode belongs. -/
theorem filter_jumps_of_error (h : Synthesized c a clock ranges parts a' report)
    {name error : String} {index : Nat} {m w : Mode α} {rate : Perturbed α} {plan : WindowPlan α}
    (window : WindowOf c a clock ranges name index m rate plan w)
    (isError : IsErrorName error (windowName name index)) :
    ∃ t, (parts.flatMap ModeWindows.jumps).filter (·.target == error) = [t] ∧
      t.source = windowName name index := by
  have mem := (h.members _).mpr (.inr ⟨name, index, m, rate, plan, w, window, rfl⟩)
  have made : error ∈ (c.windowPart clock rate plan w).modes.map Prod.fst := by
    rw [windowPart, keys_modesOf window.modeName]
    exact isError.mem_windowNames
  have nodup : (parts.flatMap fun part => part.modes.map Prod.fst).Nodup := by
    rw [← List.map_flatMap, ← h.entries]
    exact a'.modes.nodup
  have isError' : IsErrorName error plan.range.windowMode := window.rangeWindowMode ▸ isError
  obtain ⟨t, only, source⟩ := filter_windowJumps_of_error clock
    (c.watched rate.expr) isError' (window.next_ne_error isError)
  refine ⟨t, ?_, source.trans window.rangeWindowMode⟩
  rw [List.filter_flatMap, flatMap_eq_of_key nodup ?_ mem made]
  · exact only
  · intro part hpart absent
    obtain ⟨_, _, _, _, rfl⟩ | ⟨name', index', m', rate', plan', w', window', rfl⟩ :=
        (h.members part).mp hpart
    · rfl
    · refine filter_windowJumps_of_not_error _ _ ?_ (window'.next_ne_error isError)
      intro isError
      apply absent
      rw [windowPart, keys_modesOf window'.modeName]
      rw [window'.rangeWindowMode] at isError
      exact isError.mem_windowNames

/-- No transition that was copied has an error mode at an end. -/
theorem copy_ne_error (h : Synthesized c a clock ranges parts a' report)
    {name error : String} {index : Nat} {m w : Mode α} {rate : Perturbed α} {plan : WindowPlan α}
    (window : WindowOf c a clock ranges name index m rate plan w)
    (isError : IsErrorName error (windowName name index)) {t t' : Transition α}
    (hsource : t.source ∈ a.modes.keys) (htarget : t.target ∈ a.modes.keys)
    (copied : t' ∈ windowTransitions clock c.windows ranges.contains t) :
    t'.source ≠ error ∧ t'.target ≠ error := by
  obtain ⟨mem, continuized⟩ := window.mem_keys
  have fresh := h.fresh mem continuized
  have original {mode : String} (hmode : mode ∈ a.modes.keys) : mode ≠ error := by
    rintro rfl
    exact isError.not_mem fresh window.lt_windows hmode
  have numbered {mode : String} (hmode : mode ∈ a.modes.keys) (j : Nat) :
      windowName mode j ≠ error :=
    windowName_ne_error isError fresh window.lt_windows hmode j
  rw [windowTransitions_eq] at copied
  split at copied
  · obtain ⟨j, hj, rfl⟩ := List.mem_mapIdx.mp copied
    have end_ne {mode : String} (hmode : mode ∈ a.modes.keys) :
        standIn ranges.contains mode j ≠ error := by
      rw [standIn]
      split
      · exact numbered hmode j
      · exact original hmode
    exact ⟨end_ne hsource, end_ne htarget⟩
  · cases List.mem_singleton.mp copied
    exact ⟨original hsource, original htarget⟩

end Synthesized

end Continuization

/-! ## The law -/

/-- How the automaton `a'` is made from `a` by a continuization with a clock from `source`. -/
structure WindowLaw (c : Continuization α) (a : Automaton α) (source : ClockSource)
    (a' : Automaton α) : Prop where
  /-- A continuized mode gives way to the names of its windows, in order; another one stays. -/
  keys : a'.modes.keys =
    namesAfter c.breakpoints.length (a.continuizes c.sampled) a.modes.keys
  distinct : a'.modes.keys.Nodup
  size : a'.modes.size + a.modes.keys.countP (a.continuizes c.sampled) =
    a.modes.size + 3 * c.breakpoints.length * a.modes.keys.countP (a.continuizes c.sampled)
  stored : a'.StoredByName
  /-- Other modes change at most by the entry for an introduced clock. -/
  stays : ∀ name mode, a.mode? name = some mode → a.continuizes c.sampled name = false →
    a'.mode? name = some (mode.withClock source)
  windows : ∀ name, a.continuizes c.sampled name = true → ∀ index < c.breakpoints.length,
    (a'.mode? (windowName name index)).isSome = true
  /-- Error modes are urgent, without flow and with the invariant `true`; nothing leaves them, and
  they are entered from their window mode alone. -/
  errors : ∀ name, a.continuizes c.sampled name = true → ∀ index < c.breakpoints.length,
    ∀ error, IsErrorName error (windowName name index) →
      a'.mode? error = some (.instant error) ∧ a'.transitionsFrom error = [] ∧
        ∃ t, a'.transitionsTo error = [t] ∧ t.source = windowName name index
  clock : ∀ name mode, a'.mode? name = some mode → mode.hasFlow = true →
    ∃ one, mode.flowOf? source.name = some (.exact (.num one)) ∧ IsOne one
  /-- There is a copy per window of a transition with a continuized end. What is inserted leaves a
  window for its error modes or for the next window. -/
  transitions : ∃ inserted, a'.transitions = (a.transitions.flatMap fun t =>
      if a.continuizes c.sampled t.source || a.continuizes c.sampled t.target then
        c.windows.mapIdx (copyFor source.name (a.continuizes c.sampled) t)
      else [t]) ++ inserted ∧
    ∀ t ∈ inserted, ∃ name index, a.continuizes c.sampled name = true ∧
      index < c.breakpoints.length ∧ t.source = windowName name index ∧ t.reset = ∅ ∧
      (IsErrorName t.target (windowName name index) ∨
        index + 1 < c.breakpoints.length ∧ t.target = windowName name (index + 1))

namespace Continuization

/-- A rate that does not mention the sampled variable is the rate in every window. -/
theorem WindowOf.flowOf?_of_not_mentions {c : Continuization α} {a : Automaton α}
    {clock name y : String} {ranges : NameMap (List (Interval α))} {index : Nat} {m w : Mode α}
    {rate rate' : Perturbed α} {plan : WindowPlan α}
    (h : WindowOf c a clock ranges name index m rate plan w) (found : m.flowOf? y = some rate')
    (absent : rate'.expr.mentions c.sampled = false) : w.flowOf? y = some rate' := by
  obtain ⟨none, _⟩ | ⟨rate, installed, before, after, widen⟩ :=
      (windowMode_eq_ok h.made).2.2.2.2 y
  · rw [found] at none
    cases none
  · obtain rfl := Option.some.inj (found.symm.trans before)
    rw [widenRate_of_not_mentions absent] at widen
    cases widen
    exact after

theorem Synthesized.clock_rate {c : Continuization α} {a a' : Automaton α} {source : ClockSource}
    {ranges : NameMap (List (Interval α))} {parts : List (ModeWindows α)}
    {report : List (WindowRange α)}
    (h : Synthesized c (a.withClock source) source.name ranges parts a' report) {pass : String}
    (hsource : c.clockSource a pass = .ok source) {name : String} {mode : Mode α}
    (found : a'.mode? name = some mode) (flows : mode.hasFlow = true) :
    ∃ one, mode.flowOf? source.name = some (.exact (.num one)) ∧ IsOne one := by
  obtain ⟨found, _⟩ | ⟨name, index, m, rate, plan, w, window, mem⟩ :=
      h.mode?_eq_some_iff.mp found
  · exact Continuization.clock_rate hsource found flows
  · simp only [modesOf, List.map_cons, List.map_nil, List.mem_cons, Prod.mk.injEq, List.not_mem_nil,
      or_false] at mem
    obtain ⟨_, rfl⟩ | ⟨_, rfl⟩ | ⟨_, rfl⟩ := mem
    · rw [(windowMode_eq_ok window.made).2.2.1] at flows
      obtain ⟨one, measured, isOne⟩ := Continuization.clock_rate hsource window.mode flows
      exact ⟨one, window.flowOf?_of_not_mentions measured rfl, isOne⟩
    · cases flows
    · cases flows

end Continuization

namespace Continuized

variable {c : Continuization α} {m m' : Model α} {a a' : Automaton α} {source : ClockSource}
  {ranges : NameMap (List (Interval α))} {parts : List (ModeWindows α)}
  {report : List (WindowRange α)}

/-- A continuized mode has all its windows. -/
theorem exists_windowOf (h : Continuized c m m' a a' source ranges parts report)
    (stored : a.StoredByName) {name : String} (continuized : a.continuizes c.sampled name = true)
    {index : Nat} (hindex : index < c.breakpoints.length) :
    ∃ mode rate plan w,
      WindowOf c (a.withClock source) source.name ranges name index mode rate plan w := by
  obtain ⟨mode, found, _⟩ := Automaton.continuizes_iff.mp continuized
  rw [← h.contains_eq stored, NameMap.contains_iff] at continuized
  have clocked := Automaton.mode?_withClock source a name
  rw [found, Option.map_some] at clocked
  obtain ⟨rate, plan, w, window⟩ :=
    h.made.windows name continuized _ clocked index (by rwa [length_windows])
  exact ⟨_, rate, plan, w, window⟩

/-- Another mode stays. -/
theorem mode?_of_not_continuizes (h : Continuized c m m' a a' source ranges parts report)
    (stored : a.StoredByName) {name : String} {mode : Mode α}
    (found : (a.withClock source).mode? name = some mode)
    (other : a.continuizes c.sampled name = false) : a'.mode? name = some mode := by
  refine h.made.mode?_eq_some_iff.mpr (.inl ⟨found, ?_⟩)
  rw [← NameMap.contains_iff, h.contains_eq stored, other]
  exact Bool.false_ne_true

theorem errorMode (h : Continuized c m m' a a' source ranges parts report)
    (endpoints : ∀ t ∈ a.transitions, t.source ∈ a.modes.keys ∧ t.target ∈ a.modes.keys)
    {name error : String} {index : Nat} {mode w : Mode α} {rate : Perturbed α}
    {plan : WindowPlan α}
    (window : WindowOf c (a.withClock source) source.name ranges name index mode rate plan w)
    (isError : IsErrorName error (windowName name index)) :
    a'.mode? error = some (.instant error) ∧ a'.transitionsFrom error = [] ∧
      ∃ t, a'.transitionsTo error = [t] ∧ t.source = windowName name index := by
  obtain ⟨t, only, source_t⟩ := h.made.filter_jumps_of_error window isError
  have copies {t t' : Transition α} (mem : t ∈ a.transitions)
      (copied : t' ∈ windowTransitions source.name c.windows ranges.contains t) :
      t'.source ≠ error ∧ t'.target ≠ error := by
    obtain ⟨hsource, htarget⟩ := endpoints t mem
    rw [← Automaton.keys_withClock source] at hsource htarget
    exact h.made.copy_ne_error window isError hsource htarget copied
  refine ⟨h.made.mode?_eq_some_iff.mpr (.inr ⟨_, _, _, _, _, _, window, ?_⟩), ?_, t, ?_, source_t⟩
  · rw [modesOf, window.modeName]
    obtain rfl | rfl := isError <;> simp
  · rw [Automaton.transitionsFrom, h.made.transitions, List.filter_append, List.append_eq_nil_iff,
      List.filter_eq_nil_iff, List.filter_eq_nil_iff]
    constructor
    · intro t' mem
      rw [Automaton.withClock_transitions, List.mem_flatMap] at mem
      obtain ⟨t, mem, copied⟩ := mem
      simpa using (copies mem copied).1
    · intro t' mem
      obtain ⟨name', index', mode', rate', plan', w', window', jump⟩ := h.made.mem_jumps.mp mem
      rw [source_of_windowJumps jump, window'.rangeWindowMode]
      obtain ⟨hmode, continuized⟩ := window.mem_keys
      simpa using windowName_ne_error isError (h.made.fresh hmode continuized) window.lt_windows
        window'.mem_keys.1 index'
  · rw [Automaton.transitionsTo, h.made.transitions, List.filter_append, only,
      List.filter_eq_nil_iff.mpr, List.nil_append]
    intro t' mem
    rw [Automaton.withClock_transitions, List.mem_flatMap] at mem
    obtain ⟨t, mem, copied⟩ := mem
    simpa using (copies mem copied).2

/-- A name made for a window of a continuized mode is no other mode of the automaton. -/
theorem name_free (h : Continuized c m m' a a' source ranges parts report)
    (stored : a.StoredByName) {mode name : String} {index : Nat}
    (continuized : a.continuizes c.sampled mode = true) (hindex : index < c.breakpoints.length)
    (made : name ∈ windowNames mode index) (mem : name ∈ a.modes.keys) : name = mode := by
  obtain ⟨_, _, _, _, window⟩ := h.exists_windowOf stored continuized hindex
  exact window.names name made (by rwa [Automaton.keys_withClock])

theorem windowLaw (h : Continuized c m m' a a' source ranges parts report)
    (stored : a.StoredByName)
    (endpoints : ∀ t ∈ a.transitions, t.source ∈ a.modes.keys ∧ t.target ∈ a.modes.keys) :
    WindowLaw c a source a' := by
  have contains := h.contains_eq stored
  have keys : a'.modes.keys =
      namesAfter c.breakpoints.length (a.continuizes c.sampled) a.modes.keys := by
    rw [h.made.keys, contains, length_windows, Automaton.keys_withClock]
  have size (a : Automaton α) : a.modes.size = a.modes.keys.length :=
    (List.length_map Prod.fst).symm
  obtain ⟨pass, hsource⟩ := h.clock
  exact {
    keys
    distinct := a'.modes.keys_nodup
    size := by rw [size, size, keys, length_namesAfter]
    stored := by
      intro name mode found
      obtain ⟨found, _⟩ | ⟨_, _, _, _, _, w, window, mem⟩ :=
          h.made.mode?_eq_some_iff.mp found
      · obtain ⟨original, kept, rfl⟩ := mode?_clocked found
        rw [Mode.withClock_name, stored name original kept]
      · simp only [modesOf, List.map_cons, List.map_nil, List.mem_cons, Prod.mk.injEq,
          List.not_mem_nil, or_false] at mem
        obtain ⟨rfl, rfl⟩ | ⟨rfl, rfl⟩ | ⟨rfl, rfl⟩ := mem <;> rfl
    stays := by
      intro name mode found other
      refine h.mode?_of_not_continuizes stored ?_ other
      rw [Automaton.mode?_withClock, found, Option.map_some]
    windows := by
      intro name continuized index hindex
      obtain ⟨_, _, _, _, window⟩ := h.exists_windowOf stored continuized hindex
      exact Option.isSome_iff_exists.mpr ⟨_, h.made.mode?_windowName window⟩
    errors := by
      intro name continuized index hindex error isError
      obtain ⟨_, _, _, _, window⟩ := h.exists_windowOf stored continuized hindex
      exact h.errorMode endpoints window isError
    clock := fun name mode found flows => h.made.clock_rate hsource found flows
    transitions := by
      refine ⟨parts.flatMap ModeWindows.jumps, ?_, ?_⟩
      · have form := funext (windowTransitions_eq source.name c.windows (a.continuizes c.sampled))
        rw [h.made.transitions, Automaton.withClock_transitions, contains, form]
      · intro t mem
        obtain ⟨name, index, _, _, plan, _, window, jump⟩ := h.made.mem_jumps.mp mem
        refine ⟨name, index, ?_, ?_, ?_⟩
        · rw [← contains, NameMap.contains_iff]
          exact window.mem_keys.2
        · exact length_windows c ▸ window.lt_windows
        · have next := window.nextMode
          rw [← window.rangeWindowMode]
          rw [length_windows] at next
          exact ⟨source_of_windowJumps jump, target_of_windowJumps next jump⟩ }

end Continuized

/-- A continuization of a valid model obeys the law of windows, or does not succeed; it does not
succeed if a name made for a window is another mode of the model. -/
theorem Model.continuize_windowLaw {m : Model α} {a : Automaton α} (valid : m.Valid)
    (flat : m.automaton = .ok a) (c : Continuization α) (ctx : Context α) (pass : String) :
    (∀ m' report, m.continuize c ctx pass = .ok (m', report) →
      ∃ source a', c.clockSource a pass = .ok source ∧ m'.automaton = .ok a' ∧
        WindowLaw c a source a') ∧
    ∀ mode index name, a.continuizes c.sampled mode = true → index < c.breakpoints.length →
      name ∈ windowNames mode index → name ≠ mode → name ∈ a.modes.keys →
        ∀ result, m.continuize c ctx pass ≠ .ok result := by
  have stored := valid.storedByName flat
  constructor
  · intro m' report success
    obtain ⟨a₀, a', source, ranges, parts, hsource, steps⟩ := continuize_eq_ok success
    obtain rfl : a₀ = a := Except.ok.inj (steps.flat.symm.trans flat)
    exact ⟨source, a', hsource, steps.result, steps.windowLaw stored (valid.endpoints flat)⟩
  · rintro mode index name continuized hindex made ne mem ⟨m', report⟩ success
    obtain ⟨a₀, a', source, ranges, parts, hsource, steps⟩ := continuize_eq_ok success
    obtain rfl : a₀ = a := Except.ok.inj (steps.flat.symm.trans flat)
    exact ne (steps.name_free stored continuized hindex made mem)

/-- The ramp with a mode under the name of its second window. -/
def crowdedRamp : Model (Extended ℚ) where
  root := .flat { rampAutomaton ℚ with
    modes := (rampAutomaton ℚ).modes.insert "rise_2" (.instant "rise_2") }
  init := .ofList [("rise", .bool true)]
  settings := .initial

/-- The ramp gives way to its windows; the crowded ramp cannot. -/
theorem ramp_windowLaw :
    (∃ m' report a',
      (ramp ℚ).continuize (rampSampling ℚ) (rampContext ℚ) "continuize" = .ok (m', report) ∧
        m'.automaton = .ok a' ∧
        WindowLaw (rampSampling ℚ) (rampAutomaton ℚ) (.introduced "t") a') ∧
      ∀ result, crowdedRamp.continuize (rampSampling ℚ) (rampContext ℚ) "continuize" ≠
        .ok result := by
  constructor
  · obtain ⟨m', report, success⟩ := ramp_continuize ℚ "continuize"
    obtain ⟨source, a', clock, result, law⟩ := (Model.continuize_windowLaw (ramp_valid ℚ) rfl
      (rampSampling ℚ) (rampContext ℚ) "continuize").1 m' report success
    obtain rfl : .introduced "t" = source :=
      Except.ok.inj ((ramp_clockSource ℚ "continuize").symm.trans clock)
    exact ⟨m', report, a', success, result, law⟩
  · have valid : crowdedRamp.Valid := by
      rw [Model.Valid]
      decide +kernel
    exact (Model.continuize_windowLaw valid rfl (rampSampling ℚ) (rampContext ℚ)
      "continuize").2 "rise" 1 "rise_2" (by decide +kernel) (by decide) (by decide) (by decide)
      (by decide)

end HybridAutomata
