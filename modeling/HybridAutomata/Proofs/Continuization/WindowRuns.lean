import Mathlib.Analysis.Calculus.Deriv.Pow
import HybridAutomata.Proofs.Continuization.InsideWindows
import HybridAutomata.Proofs.Continuization.Structure

/-!
# Windows lose no run

Every run of a model up to the last breakpoint is a run of its continuization, with a window mode in
place of a continuized one. A run is followed with the number of a window that contains the clock. A
delay that leaves the window is split at its end, where the jump to the next window is enabled and
lands inside it; a transition keeps the clock, and so the window, and its copy for the window is
enabled.
-/

namespace HybridAutomata

open Continuization Success Extended

namespace Continuization

/-! ## Runs with windows -/

/-- A mode of the result that stands for a mode: the mode itself, or one of its windows if it is
continuized. -/
def Stands (c : Continuization (Extended ℝ)) (continuized : String → Bool)
    (name name' : String) : Prop :=
  ∃ index < c.windows.length, name' = standIn continuized name index

/-- The jump that is inserted at the end of a window. -/
def nextJump (clock name : String) (index : Nat) (window : Interval (Extended ℝ)) :
    Transition (Extended ℝ) where
  source := windowName name index
  target := windowName name (index + 1)
  guard := .ge (.var clock) (.num window.max)

/-- How the moves from a mode `name` are made in the result, from a mode `name'` with the same
values `x`. Delays are taken in parts and transitions have copies, and nothing is inserted but jumps
from a window to the next one. -/
inductive Windowed (c : Continuization (Extended ℝ)) (clock : String)
    (continuized : String → Bool) :
    String → String → Valuation → List Move → List Move → Prop where
  | nil {name name' : String} {x : Valuation} (stands : c.Stands continuized name name') :
      Windowed c clock continuized name name' x [] []
  | delay {name name' : String} {duration : ℝ} {path : ℝ → Valuation} {moves moves' : List Move}
      (stands : c.Stands continuized name name') (nonneg : 0 ≤ duration)
      (rest : Windowed c clock continuized name name' (path duration) moves moves') :
      Windowed c clock continuized name name' (path 0) (.delay duration path :: moves)
        (.delay duration path :: moves')
  | split {name name' : String} {x : Valuation} {duration first : ℝ} {path : ℝ → Valuation}
      {moves moves' : List Move} (nonneg : 0 ≤ first) (le : first ≤ duration)
      (parts : Windowed c clock continuized name name' x
        (.delay first path :: .delay (duration - first) (fun t => path (first + t)) :: moves)
        moves') :
      Windowed c clock continuized name name' x (.delay duration path :: moves) moves'
  | jump {t t' : Transition (Extended ℝ)} {x after : Valuation} {moves moves' : List Move}
      (stands : c.Stands continuized t.source t'.source)
      (copy : t' ∈ windowTransitions clock c.windows continuized t)
      (rest : Windowed c clock continuized t.target t'.target after moves moves') :
      Windowed c clock continuized t.source t'.source x (.jump t after :: moves)
        (.jump t' after :: moves')
  | next {name : String} {index : Nat} {window : Interval (Extended ℝ)} {x : Valuation}
      {moves moves' : List Move} (isContinuized : continuized name = true)
      (found : c.windows[index]? = some window)
      (rest : Windowed c clock continuized name (windowName name (index + 1)) x moves moves') :
      Windowed c clock continuized name (windowName name index) x moves
        (.jump (nextJump clock name index window) x :: moves')

namespace Windowed

variable {c : Continuization (Extended ℝ)} {clock name name' : String}
  {continuized : String → Bool} {x : Valuation} {moves moves' : List Move}

theorem visits_start (h : Windowed c clock continuized name name' x moves moves') :
    Visits ⟨name, x⟩ moves 0 ⟨name, x⟩ := by
  induction h with
  | nil => exact ⟨rfl, rfl⟩
  | delay _ nonneg => exact .inl ⟨⟨le_rfl, nonneg⟩, rfl⟩
  | split nonneg le _ ih => exact (visits_split nonneg le).mpr ih
  | jump => exact .inl ⟨rfl, rfl⟩
  | next _ _ _ ih => exact ih

/-- What the moves visit, the moves in the result visit at the same time, in a mode that stands for
the one visited. -/
theorem visits (h : Windowed c clock continuized name name' x moves moves') {time : ℝ} {n : String}
    {y : Valuation} (visits : Visits ⟨name, x⟩ moves time ⟨n, y⟩) :
    ∃ n', c.Stands continuized n n' ∧ Visits ⟨name', x⟩ moves' time ⟨n', y⟩ := by
  induction h generalizing time with
  | nil stands =>
      obtain ⟨rfl, eq⟩ := visits
      cases eq
      exact ⟨_, stands, rfl, rfl⟩
  | delay stands _ _ ih =>
      obtain ⟨inside, eq⟩ | later := visits
      · cases eq
        exact ⟨_, stands, .inl ⟨inside, rfl⟩⟩
      · obtain ⟨n', stands', later'⟩ := ih later
        exact ⟨n', stands', .inr later'⟩
  | split nonneg le _ ih => exact ih ((visits_split nonneg le).mp visits)
  | jump stands _ _ ih =>
      obtain ⟨rfl, eq⟩ | later := visits
      · cases eq
        exact ⟨_, stands, .inl ⟨rfl, rfl⟩⟩
      · obtain ⟨n', stands', later'⟩ := ih later
        exact ⟨n', stands', .inr later'⟩
  | next _ _ _ ih =>
      obtain ⟨n', stands', later'⟩ := ih visits
      exact ⟨n', stands', .inr later'⟩

/-- What the moves in the result visit stands for something that the moves visit. -/
theorem visits_of_result (h : Windowed c clock continuized name name' x moves moves')
    {time : ℝ} {n' : String} {y : Valuation} (visits : Visits ⟨name', x⟩ moves' time ⟨n', y⟩) :
    ∃ n, c.Stands continuized n n' ∧ Visits ⟨name, x⟩ moves time ⟨n, y⟩ := by
  induction h generalizing time with
  | nil stands =>
      obtain ⟨rfl, eq⟩ := visits
      cases eq
      exact ⟨_, stands, rfl, rfl⟩
  | delay stands _ _ ih =>
      obtain ⟨inside, eq⟩ | later := visits
      · cases eq
        exact ⟨_, stands, .inl ⟨inside, rfl⟩⟩
      · obtain ⟨n, stands', later'⟩ := ih later
        exact ⟨n, stands', .inr later'⟩
  | split nonneg le _ ih =>
      obtain ⟨n, stands, parts⟩ := ih visits
      exact ⟨n, stands, (visits_split nonneg le).mpr parts⟩
  | jump stands _ _ ih =>
      obtain ⟨rfl, eq⟩ | later := visits
      · cases eq
        exact ⟨_, stands, .inl ⟨rfl, rfl⟩⟩
      · obtain ⟨n, stands', later'⟩ := ih later
        exact ⟨n, stands', .inr later'⟩
  | next isContinuized found rest ih =>
      obtain ⟨rfl, eq⟩ | later := visits
      · cases eq
        refine ⟨_, ⟨_, (List.getElem?_eq_some_iff.mp found).1, ?_⟩, rest.visits_start⟩
        exact (if_pos isContinuized).symm
      · exact ih later

end Windowed

/-- From the window `index`, the moves of `a` to a final state are made in `a'`, up to a window of
that state. -/
def Matches (c : Continuization (Extended ℝ)) (source : ClockSource)
    (a a' : Automaton (Extended ℝ)) (s : State) (index : Nat) (moves : List Move)
    (final : State) : Prop :=
  ∃ moves' last, c.Inside source.name last final.values ∧
    a'.Run ⟨standIn (a.continuizes c.sampled) s.mode index, s.values⟩ moves'
      ⟨standIn (a.continuizes c.sampled) final.mode last, final.values⟩ ∧
    Windowed c source.name (a.continuizes c.sampled) s.mode
      (standIn (a.continuizes c.sampled) s.mode index) s.values moves moves' ∧
    ((a.withClock source).Prompt s moves →
      a'.Prompt ⟨standIn (a.continuizes c.sampled) s.mode index, s.values⟩ moves')

namespace Matches

variable {c : Continuization (Extended ℝ)} {source : ClockSource} {name : String}
  {a a' : Automaton (Extended ℝ)} {index : Nat} {moves : List Move} {final : State}
  {duration : ℝ} {path : ℝ → Valuation}

/-- A delay in what stands for a mode is made as it is. -/
theorem delay {w : Mode (Extended ℝ)} {later : Nat}
    (found : a'.mode? (standIn (a.continuizes c.sampled) name index) = some w)
    (evolves : w.Evolves duration path) (hindex : index < c.windows.length)
    (same : standIn (a.continuizes c.sampled) name later =
      standIn (a.continuizes c.sampled) name index)
    (waits : (a.withClock source).Waits name duration path →
      a'.Waits (standIn (a.continuizes c.sampled) name index) duration path)
    (rest : c.Matches source a a' ⟨name, path duration⟩ later moves final) :
    c.Matches source a a' ⟨name, path 0⟩ index (.delay duration path :: moves) final := by
  obtain ⟨moves', last, inside, run, windowed, prompt⟩ := rest
  rw [same] at run windowed prompt
  have admitted := evolves.invariant 0 ⟨le_rfl, evolves.nonneg⟩
  exact ⟨_, last, inside, .cons ⟨w, found, admitted⟩ (.delay found evolves) run,
    .delay ⟨index, hindex, rfl⟩ evolves.nonneg windowed, .imp waits prompt⟩

theorem split {s : State} {first : ℝ} (nonneg : 0 ≤ first) (le : first ≤ duration)
    (parts : c.Matches source a a' s index
      (.delay first path :: .delay (duration - first) (fun t => path (first + t)) :: moves)
      final) :
    c.Matches source a a' s index (.delay duration path :: moves) final := by
  obtain ⟨moves', last, inside, run, windowed, prompt⟩ := parts
  exact ⟨moves', last, inside, run, .split nonneg le windowed,
    fun h => prompt (h.split nonneg le)⟩

/-- When a window is over, the jump to the next one is enabled, and it changes nothing. -/
theorem next {x : Valuation} {window : Interval (Extended ℝ)}
    (continuized : a.continuizes c.sampled name = true) (found : c.windows[index]? = some window)
    (admits : a'.Admits ⟨standIn (a.continuizes c.sampled) name index, x⟩)
    (mem : nextJump source.name name index window ∈ a'.transitions)
    (ended : window.max ≤ finite (x source.name))
    (rest : c.Matches source a a' ⟨name, x⟩ (index + 1) moves final) :
    c.Matches source a a' ⟨name, x⟩ index moves final := by
  have named (i : Nat) : standIn (a.continuizes c.sampled) name i = windowName name i :=
    if_pos continuized
  simp only [Matches, named] at admits rest ⊢
  obtain ⟨moves', last, inside, run, windowed, prompt⟩ := rest
  have jumps : a'.Makes ⟨windowName name index, x⟩
      (.jump (nextJump source.name name index window) x) ⟨windowName name (index + 1), x⟩ :=
    .jump mem (Expr.holdsAt_ge.mpr ended) fun _ => rfl
  exact ⟨_, last, inside, .cons admits jumps run, .next continuized found windowed, prompt⟩

end Matches

/-- In the window that contains the clock, a transition has a copy that is enabled if the transition
is. -/
theorem exists_copy {c : Continuization (Extended ℝ)} {clock : String} {index : Nat}
    {x : Valuation} (inside : c.Inside clock index x) (continuized : String → Bool)
    {t : Transition (Extended ℝ)} (enabled : t.guard.HoldsAt x) :
    ∃ t' ∈ windowTransitions clock c.windows continuized t,
      t'.source = standIn continuized t.source index ∧
      t'.target = standIn continuized t.target index ∧ t'.reset = t.reset ∧
      t'.guard.HoldsAt x := by
  obtain ⟨window, found, holds⟩ := inside
  rw [windowTransitions_eq]
  split
  · obtain ⟨bound, item⟩ := List.getElem?_eq_some_iff.mp found
    refine ⟨copyFor clock continuized t index window, ?_, rfl, rfl, rfl, ?_⟩
    · rw [List.mem_mapIdx]
      exact ⟨index, bound, by rw [item]⟩
    · change (if _ then _ else _ : Expr (Extended ℝ)).HoldsAt x
      split
      · refine Expr.holdsAt_and.mpr ⟨enabled, ?_⟩
        have notOver := Expr.holdsAt_le.mpr holds.2
        rw [insideWindow]
        split
        · exact notOver
        · exact Expr.holdsAt_and.mpr ⟨Expr.holdsAt_ge.mpr holds.1, notOver⟩
      · exact enabled
  · next stays =>
      simp only [Bool.or_eq_true, not_or, Bool.not_eq_true] at stays
      refine ⟨t, List.mem_singleton_self t, ?_, ?_, rfl, enabled⟩
      · simp [standIn, stays.1]
      · simp [standIn, stays.2]

end Continuization

namespace Continuized

variable {c : Continuization (Extended ℝ)} {m m' : Model (Extended ℝ)}
  {a a' : Automaton (Extended ℝ)} {source : ClockSource}
  {ranges : NameMap (List (Interval (Extended ℝ)))} {parts : List (ModeWindows (Extended ℝ))}
  {report : List (WindowRange (Extended ℝ))}

/-- What stands for a mode in a window allows there what the mode does. -/
theorem exists_standIn (h : Continuized c m m' a a' source ranges parts report)
    (stored : a.StoredByName) {name : String} {index : Nat} {mode : Mode (Extended ℝ)}
    (found : (a.withClock source).mode? name = some mode) (hindex : index < c.windows.length) :
    ∃ w, a'.mode? (standIn (a.continuizes c.sampled) name index) = some w ∧
      w.Covers mode (c.Inside source.name index) := by
  rw [standIn]
  split
  · next continuized =>
      rw [length_windows] at hindex
      obtain ⟨mode', _, _, w, window⟩ := h.exists_windowOf stored continuized hindex
      obtain rfl := Option.some.inj (found.symm.trans window.mode)
      exact ⟨w, h.made.mode?_windowName window, window.covers h.accepted⟩
  · next other =>
      have stays := h.mode?_of_not_continuizes stored found (Bool.not_eq_true _ ▸ other)
      exact ⟨mode, stays, .refl mode _⟩

theorem admits (h : Continuized c m m' a a' source ranges parts report) (stored : a.StoredByName)
    {s : State} {index : Nat} (admitted : (a.withClock source).Admits s)
    (inside : c.Inside source.name index s.values) :
    a'.Admits ⟨standIn (a.continuizes c.sampled) s.mode index, s.values⟩ := by
  obtain ⟨mode, found, holds⟩ := admitted
  obtain ⟨w, found', covers⟩ := h.exists_standIn stored found inside.lt_windows
  exact ⟨w, found', covers.invariant _ inside holds⟩

/-- What leaves a mode that stays is a copy of a transition that leaves it, and is enabled only if
that is. -/
theorem exists_original (h : Continuized c m m' a a' source ranges parts report)
    (stored : a.StoredByName) {name : String} (mem : name ∈ a.modes.keys)
    (other : a.continuizes c.sampled name = false) {t' : Transition (Extended ℝ)}
    (mem' : t' ∈ a'.transitions) (leaves : t'.source = name) :
    ∃ t ∈ a.transitions, t.source = name ∧ ∀ x, t'.guard.HoldsAt x → t.guard.HoldsAt x := by
  have not_window {window : String} (continuized : a.continuizes c.sampled window = true)
      {index : Nat} (hindex : index < c.windows.length) : windowName window index ≠ name := by
    intro eq
    have made : name ∈ windowNames window index := mem_windowNames.mpr (.inl eq.symm)
    have same := h.name_free stored continuized (by rwa [length_windows] at hindex) made mem
    rw [same, continuized] at other
    cases other
  rw [h.made.transitions, List.mem_append, h.contains_eq stored] at mem'
  obtain copied | inserted := mem'
  · rw [Automaton.withClock_transitions, List.mem_flatMap] at copied
    obtain ⟨t, mem, copied⟩ := copied
    refine ⟨t, mem, ?_⟩
    rw [windowTransitions_eq] at copied
    split at copied
    · obtain ⟨index, bound, rfl⟩ := List.mem_mapIdx.mp copied
      constructor
      · change standIn _ t.source index = name at leaves
        rw [standIn] at leaves
        split at leaves
        · next continuized => exact absurd leaves (not_window continuized bound)
        · exact leaves
      · intro x enabled
        change (if _ then _ else _ : Expr (Extended ℝ)).HoldsAt x at enabled
        split at enabled
        · exact (Expr.holdsAt_and.mp enabled).1
        · exact enabled
    · cases List.mem_singleton.mp copied
      exact ⟨leaves, fun x enabled => enabled⟩
  · obtain ⟨window, index, _, _, _, _, part, jump⟩ := h.made.mem_jumps.mp inserted
    have continuized : a.continuizes c.sampled window = true := by
      rw [← h.contains_eq stored, NameMap.contains_iff]
      exact part.mem_keys.2
    rw [source_of_windowJumps jump, part.rangeWindowMode] at leaves
    exact absurd leaves (not_window continuized part.lt_windows)

/-- What stands for a mode waits where the mode does. -/
theorem waits (h : Continuized c m m' a a' source ranges parts report) (stored : a.StoredByName)
    {name : String} {index : Nat} {mode : Mode (Extended ℝ)} {duration : ℝ} {path : ℝ → Valuation}
    (found : (a.withClock source).mode? name = some mode) (hindex : index < c.windows.length)
    (waiting : (a.withClock source).Waits name duration path) :
    a'.Waits (standIn (a.continuizes c.sampled) name index) duration path := by
  obtain ⟨w, found', covers⟩ := h.exists_standIn stored found hindex
  intro w' found'' urgent time inside t' mem leaves enabled
  obtain rfl := Option.some.inj (found'.symm.trans found'')
  rw [covers.urgent] at urgent
  obtain ⟨original, hmode, rfl⟩ := mode?_clocked found
  cases continuized : a.continuizes c.sampled name with
  | true =>
      obtain ⟨mode, hmode', notUrgent, _⟩ := Automaton.continuizes_iff.mp continuized
      obtain rfl := Option.some.inj (hmode.symm.trans hmode')
      rw [Mode.withClock_urgent, notUrgent] at urgent
      cases urgent
  | false =>
      have named : standIn (a.continuizes c.sampled) name index = name :=
        if_neg (by simp [continuized])
      obtain ⟨t, mem, leaves', imp⟩ := h.exists_original stored
        (NameMap.mem_keys_iff.mpr ⟨_, hmode⟩) continuized mem (leaves.trans named)
      rw [← Automaton.withClock_transitions source] at mem
      exact waiting _ found urgent time inside t mem leaves' (imp _ enabled)

/-- At the end of a window there is a jump to the next one. -/
theorem nextJump_mem (h : Continuized c m m' a a' source ranges parts report)
    (stored : a.StoredByName) {name : String} (continuized : a.continuizes c.sampled name = true)
    {index : Nat} {window : Interval (Extended ℝ)} (found : c.windows[index]? = some window)
    (more : index + 1 < c.windows.length) :
    nextJump source.name name index window ∈ a'.transitions := by
  have hindex : index < c.breakpoints.length := by
    rw [← length_windows]
    omega
  obtain ⟨mode, rate, plan, w, window'⟩ := h.exists_windowOf stored continuized hindex
  rw [h.made.transitions, List.mem_append]
  refine .inr (h.made.mem_jumps.mpr ⟨name, index, mode, rate, plan, w, window', ?_⟩)
  obtain rfl := Option.some.inj (window'.window.symm.trans found)
  have next := window'.nextMode
  rw [if_pos more] at next
  simp [windowJumps, next, window'.rangeWindowMode, nextJump]

/-- With the clock in place, it measures time along a path. -/
theorem clock_of_evolves (h : Continuized c m m' a a' source ranges parts report) {name : String}
    {mode : Mode (Extended ℝ)} (found : (a.withClock source).mode? name = some mode)
    {duration : ℝ} {path : ℝ → Valuation} (evolves : mode.Evolves duration path) {t : ℝ}
    (ht : t ∈ Set.Icc 0 duration) : path t source.name = path 0 source.name + t := by
  obtain ⟨pass, hsource⟩ := h.clock
  obtain ⟨one, measured, isOne⟩ := Continuization.clock_rate hsource found evolves.hasFlow
  refine evolves.clock measured ?_ ht
  rintro x derivative ⟨value, noise, evaluated, holds, rfl⟩
  have value_eq : one = finite value := Except.ok.inj evaluated
  have noise_eq : noise = 0 := by
    have zero : Interval.Holds (Interval.zero : Interval (Extended ℝ)) noise := holds
    rwa [Interval.zero, zero_eq, Interval.holds_point] at zero
  rw [noise_eq, add_zero]
  obtain rfl | equal := isOne
  · rw [ofNat_eq, Nat.cast_one] at value_eq
    exact (Extended.finite.inj value_eq).symm
  · rw [value_eq, ofNat_eq, Nat.cast_one, finite_beq_finite, decide_eq_true_eq] at equal
    exact equal

/-- A delay in a continuized mode is split where a window ends. -/
theorem matches_delay_of_continuizes (h : Continuized c m m' a a' source ranges parts report)
    (stored : a.StoredByName) {name : String} {mode : Mode (Extended ℝ)} {duration : ℝ}
    {path : ℝ → Valuation} {index : Nat} {moves : List Move} {final : State}
    (found : (a.withClock source).mode? name = some mode)
    (continuized : a.continuizes c.sampled name = true) (evolves : mode.Evolves duration path)
    (inside : c.Inside source.name index (path 0))
    (within : c.WithinWindows (path duration source.name))
    (rest : ∀ last, c.Inside source.name last (path duration) →
      c.Matches source a a' ⟨name, path duration⟩ last moves final) :
    c.Matches source a a' ⟨name, path 0⟩ index (.delay duration path :: moves) final := by
  have measures {t : ℝ} (ht : t ∈ Set.Icc 0 duration) := h.clock_of_evolves found evolves ht
  have hindex := inside.lt_windows
  have waits {T : ℝ} (waiting : (a.withClock source).Waits name T path) :=
    h.waits stored found hindex waiting
  obtain ⟨window, hwindow, holds⟩ := inside
  obtain ⟨lo, hi, rfl, _, _⟩ := h.accepted.bounds hwindow
  obtain ⟨lower, upper⟩ : lo ≤ path 0 source.name ∧ path 0 source.name ≤ hi := holds
  obtain ⟨w, found', covers⟩ := h.exists_standIn stored found hindex
  -- Up to a time at which the window is not over, the window mode allows the path.
  have allowed {T : ℝ} (nonneg : 0 ≤ T) (le : T ≤ duration) (notOver : path T source.name ≤ hi) :
      w.Evolves T path ∧ c.Inside source.name index (path T) := by
    have insideAt : ∀ t ∈ Set.Icc 0 T, c.Inside source.name index (path t) := by
      intro t ⟨positive, before⟩
      refine ⟨_, hwindow, ?_⟩
      rw [measures ⟨nonneg, le⟩] at notOver
      rw [measures ⟨positive, before.trans le⟩]
      exact ⟨finite_le_finite.mpr (by linarith), finite_le_finite.mpr (by linarith)⟩
    exact ⟨covers.evolves (evolves.before nonneg le) insideAt, insideAt T ⟨nonneg, le_rfl⟩⟩
  by_cases notOver : path duration source.name ≤ hi
  · obtain ⟨evolves', inside'⟩ := allowed evolves.nonneg le_rfl notOver
    exact .delay found' evolves' hindex rfl waits (rest index inside')
  · obtain ⟨following, hfollowing, begins⟩ :=
      h.accepted.exists_next hwindow rfl (not_le.mp notOver) within
    have more := (List.getElem?_eq_some_iff.mp hfollowing).1
    obtain ⟨first, hfirst⟩ : ∃ first, first = hi - path 0 source.name := ⟨_, rfl⟩
    have nonneg : 0 ≤ first := by linarith
    have le : first ≤ duration := by
      have total := measures ⟨evolves.nonneg, le_rfl⟩
      linarith
    have ended : path first source.name = hi := by
      rw [measures ⟨nonneg, le⟩]
      linarith
    obtain ⟨evolves', _⟩ := allowed nonneg le ended.le
    have inside' : c.Inside source.name (index + 1) (path (first + 0)) := by
      rw [add_zero]
      exact ⟨following, hfollowing, ended ▸ begins⟩
    have later := h.matches_delay_of_continuizes stored found continuized
      (evolves.after nonneg le) inside' (by rwa [add_sub_cancel]) (by rwa [add_sub_cancel])
    rw [add_zero] at later
    have admitted := evolves'.invariant first ⟨nonneg, le_rfl⟩
    have jumped := later.next continuized hwindow ⟨w, found', admitted⟩
      (h.nextJump_mem stored continuized hwindow more) (finite_le_finite.mpr ended.ge)
    exact .split nonneg le (.delay found' evolves' hindex rfl waits jumped)
termination_by c.windows.length - index
decreasing_by exact Nat.sub_succ_lt_self _ _ hindex

/-- A delay goes on from every window that contains the clock. -/
theorem matches_delay (h : Continuized c m m' a a' source ranges parts report)
    (stored : a.StoredByName) {name : String} {mode : Mode (Extended ℝ)} {duration : ℝ}
    {path : ℝ → Valuation} {index : Nat} {moves : List Move} {final : State}
    (found : (a.withClock source).mode? name = some mode) (evolves : mode.Evolves duration path)
    (inside : c.Inside source.name index (path 0))
    (within : c.WithinWindows (path duration source.name))
    (rest : ∀ last, c.Inside source.name last (path duration) →
      c.Matches source a a' ⟨name, path duration⟩ last moves final) :
    c.Matches source a a' ⟨name, path 0⟩ index (.delay duration path :: moves) final := by
  cases continuized : a.continuizes c.sampled name with
  | true =>
      exact h.matches_delay_of_continuizes stored found continuized evolves inside within rest
  | false =>
      have named (i : Nat) : standIn (a.continuizes c.sampled) name i = name :=
        if_neg (by simp [continuized])
      have stays := h.mode?_of_not_continuizes stored found continuized
      rw [← named index] at stays
      obtain ⟨_, hwindow, holds⟩ := id inside
      obtain ⟨lo, hi, rfl, positive, _⟩ := h.accepted.bounds hwindow
      have nonneg : 0 ≤ path duration source.name := by
        have measured := h.clock_of_evolves found evolves ⟨evolves.nonneg, le_rfl⟩
        have lower : lo ≤ path 0 source.name := holds.1
        linarith [evolves.nonneg]
      obtain ⟨last, inside'⟩ := h.accepted.exists_inside nonneg within
      exact .delay stays evolves inside.lt_windows ((named last).trans (named index).symm)
        (h.waits stored found inside.lt_windows) (rest last inside')

/-- The clock does not go back if no transition sets it. -/
theorem clock_le_of_run (h : Continuized c m m' a a' source ranges parts report)
    (keeps : ∀ t ∈ a.transitions, t.reset.find? source.name = none) {start final : State}
    {moves : List Move} (run : (a.withClock source).Run start moves final) :
    start.values source.name ≤ final.values source.name := by
  induction run with
  | nil => exact le_rfl
  | cons _ makes _ ih =>
      refine le_trans ?_ ih
      cases makes with
      | delay found evolves =>
          have measured := h.clock_of_evolves found evolves ⟨evolves.nonneg, le_rfl⟩
          exact (le_add_of_nonneg_right evolves.nonneg).trans measured.ge
      | jump mem _ sets =>
          rw [Automaton.withClock_transitions] at mem
          exact (sets.of_none (keeps _ mem)).ge

/-- A jump keeps the clock, and so the window. -/
theorem matches_jump (h : Continuized c m m' a a' source ranges parts report)
    (stored : a.StoredByName) (keeps : ∀ t ∈ a.transitions, t.reset.find? source.name = none)
    {t : Transition (Extended ℝ)} {before after : Valuation} {index : Nat} {moves : List Move}
    {final : State} (mem : t ∈ a.transitions) (enabled : t.guard.HoldsAt before)
    (sets : t.Sets before after) (admits : (a.withClock source).Admits ⟨t.source, before⟩)
    (inside : c.Inside source.name index before)
    (rest : c.Inside source.name index after →
      c.Matches source a a' ⟨t.target, after⟩ index moves final) :
    c.Matches source a a' ⟨t.source, before⟩ index (.jump t after :: moves) final := by
  have same := sets.of_none (keeps t mem)
  have inside' : c.Inside source.name index after := by
    obtain ⟨window, found, holds⟩ := inside
    exact ⟨window, found, same ▸ holds⟩
  obtain ⟨t', copy, fromSource, toTarget, reset, enabled'⟩ :=
    exists_copy inside (a.continuizes c.sampled) enabled
  obtain ⟨moves', last, insideLast, run, windowed, prompt⟩ := rest inside'
  have admitted := h.admits stored admits inside
  have mem' : t' ∈ a'.transitions := by
    rw [h.made.transitions, Automaton.withClock_transitions, h.contains_eq stored]
    exact List.mem_append_left _ (List.mem_flatMap.mpr ⟨t, mem, copy⟩)
  have sets' : t'.Sets before after := by
    intro y
    rw [reset]
    exact sets y
  rw [← toTarget] at run windowed prompt
  rw [← fromSource] at admitted
  refine ⟨.jump t' after :: moves', last, insideLast, ?_, ?_, prompt⟩
  · rw [← fromSource]
    exact .cons admitted (.jump mem' enabled' sets') run
  · rw [← fromSource]
    exact .jump ⟨index, inside.lt_windows, fromSource⟩ copy windowed

/-- From every window that contains the clock, a run up to the last breakpoint is made in the
result. -/
theorem matches_run (h : Continuized c m m' a a' source ranges parts report)
    (stored : a.StoredByName) (keeps : ∀ t ∈ a.transitions, t.reset.find? source.name = none)
    {start final : State} {moves : List Move} (run : (a.withClock source).Run start moves final)
    (within : c.WithinWindows (final.values source.name)) {index : Nat}
    (inside : c.Inside source.name index start.values) :
    c.Matches source a a' start index moves final := by
  induction run generalizing index with
  | nil admits =>
      exact ⟨[], index, inside, .nil (h.admits stored admits inside),
        .nil ⟨index, inside.lt_windows, rfl⟩, id⟩
  | cons admits makes rest ih =>
      have soFar := within.mono (h.clock_le_of_run keeps rest)
      cases makes with
      | delay found evolves =>
          exact h.matches_delay stored found evolves inside soFar fun _ => ih within
      | jump mem enabled sets =>
          rw [Automaton.withClock_transitions] at mem
          exact h.matches_jump stored keeps mem enabled sets admits inside (ih within)

end Continuized

/-- The state is in the initial region of its mode. -/
def Model.Starts (m : Model (Extended ℝ)) (s : State) : Prop :=
  ∃ region, m.init.find? s.mode = some region ∧ region.HoldsAt s.values

/-- A run of the result that stands for a run: it ends with the same values, its delays and
transitions are those of the run but for jumps that are inserted between windows, and it visits the
same values at the same times. -/
structure StandsForRun (c : Continuization (Extended ℝ)) (source : ClockSource)
    (a a' : Automaton (Extended ℝ)) (start : State) (moves : List Move) (final : State)
    (moves' : List Move) (final' : State) : Prop where
  run : a'.Run start moves' final'
  stands : c.Stands (a.continuizes c.sampled) final.mode final'.mode
  values : final'.values = final.values
  /-- Urgent modes are left at once if they are in the run. -/
  prompt : (a.withClock source).Prompt start moves → a'.Prompt start moves'
  windowed : c.Windowed source.name (a.continuizes c.sampled) start.mode start.mode start.values
    moves moves'
  visits : ∀ time name x, Visits start moves time ⟨name, x⟩ → ∃ name',
    c.Stands (a.continuizes c.sampled) name name' ∧ Visits start moves' time ⟨name', x⟩
  visited : ∀ time name' x, Visits start moves' time ⟨name', x⟩ → ∃ name,
    c.Stands (a.continuizes c.sampled) name name' ∧ Visits start moves time ⟨name, x⟩

/-- Every run that begins in an initial region, with the clock in the first window, and ends before
the last breakpoint, is a run of the continuization, if no transition sets the clock. -/
theorem Model.continuize_keeps_runs {m m' : Model (Extended ℝ)} {a : Automaton (Extended ℝ)}
    {c : Continuization (Extended ℝ)} {ctx : Context (Extended ℝ)} {pass : String}
    {report : List (WindowRange (Extended ℝ))} (valid : m.Valid) (flat : m.automaton = .ok a)
    (success : m.continuize c ctx pass = .ok (m', report)) :
    ∃ source a', c.clockSource a pass = .ok source ∧ m'.automaton = .ok a' ∧
      ((∀ t ∈ a.transitions, t.reset.find? source.name = none) →
        ∀ start moves final, (m.withClock a source).Starts start →
          (a.withClock source).Run start moves final → 0 ≤ start.values source.name →
          (∀ first, c.breakpoints.head? = some first →
            finite (start.values source.name) ≤ first) →
          c.WithinWindows (final.values source.name) →
          m'.Starts start ∧
            ∃ moves' final', StandsForRun c source a a' start moves final moves' final') := by
  obtain ⟨a₀, a', source, ranges, parts, hsource, steps⟩ := continuize_eq_ok success
  obtain rfl : a₀ = a := Except.ok.inj (steps.flat.symm.trans flat)
  have stored := valid.storedByName flat
  refine ⟨source, a', hsource, steps.result, ?_⟩
  intro keeps start moves final starts run nonneg first within
  have inside := steps.accepted.inside_zero nonneg first
  have same : standIn (a₀.continuizes c.sampled) start.mode 0 = start.mode := by
    rw [standIn]
    split <;> rfl
  obtain ⟨moves', last, inside', run', windowed, prompt⟩ :=
    steps.matches_run stored keeps run within inside
  rw [same] at run' windowed prompt
  refine ⟨?_, moves', _, {
    run := run'
    stands := ⟨last, inside'.lt_windows, rfl⟩
    values := rfl
    prompt
    windowed
    visits := fun time name x => windowed.visits
    visited := fun time name' x => windowed.visits_of_result }⟩
  rw [Starts]
  rw [steps.init]
  exact starts

/-- The ramp from zero: `u` and the clock are the time, and `y` is the area below `u`. -/
noncomputable def rampPath (t : ℝ) (name : String) : ℝ :=
  if name = "u" ∨ name = "t" then t else if name = "y" then t ^ 2 / (2 : ℕ) else 0

theorem rampPath_eq {name : String} (h : name = "u" ∨ name = "t") (t : ℝ) :
    rampPath t name = t :=
  if_pos h

theorem ramp_evolves : (clockedRise ℝ).Evolves 2 rampPath where
  nonneg := zero_le_two
  hasFlow := rfl
  invariant _ _ := rfl
  continuous y := by
    unfold rampPath
    split_ifs <;> fun_prop
  moves := by
    intro y rate found t ht
    have mem : (y, rate) ∈ [("u", .exact (.num 1)), ("y", .exact (.var "u")),
      ("t", .exact (.num 1))] := NameMap.find?_eq_some_iff.mp found
    simp only [List.mem_cons, Prod.mk.injEq, List.not_mem_nil, or_false] at mem
    have rises {y : String} (name : y = "u" ∨ y = "t") : ∃ derivative,
        (Perturbed.exact (.num 1) : Perturbed (Extended ℝ)).Allows (rampPath t) derivative ∧
          HasDerivWithinAt (rampPath · y) derivative (Set.Ici t) t := by
      have path : (rampPath · y) = fun t => t := funext (rampPath_eq name)
      refine ⟨1, ⟨1, 0, ?_, Interval.holds_zero, (add_zero 1).symm⟩, ?_⟩
      · simp [Perturbed.exact, Expr.eval]
      · rw [path]
        exact hasDerivWithinAt_id t _
    obtain ⟨rfl, rfl⟩ | ⟨rfl, rfl⟩ | ⟨rfl, rfl⟩ := mem
    · exact rises (.inl rfl)
    · refine ⟨t, ⟨rampPath t "u", 0, rfl, Interval.holds_zero, ?_⟩, ?_⟩
      · rw [rampPath_eq (.inl rfl), add_zero]
      · have square := (hasDerivAt_pow 2 t).div_const 2
        have slope : (2 : ℕ) * t ^ (2 - 1) / 2 = t := by norm_num
        rw [slope] at square
        exact square.hasDerivWithinAt
    · exact rises (.inr rfl)
  still := by
    intro y found t ht
    have absent : y ∉ ["u", "y", "t"] := NameMap.find?_eq_none_iff.mp found
    simp only [List.mem_cons, List.not_mem_nil, or_false, not_or] at absent
    simp [rampPath, absent]

/-- The run of the ramp for two units of time is a run with its windows. -/
theorem ramp_keeps_run : ∃ m' report a' moves' final',
    (ramp ℝ).continuize (rampSampling ℝ) (rampContext ℝ) "continuize" = .ok (m', report) ∧
      m'.automaton = .ok a' ∧ m'.Starts ⟨"rise", rampPath 0⟩ ∧
      StandsForRun (rampSampling ℝ) (.introduced "t") (rampAutomaton ℝ) a' ⟨"rise", rampPath 0⟩
        [.delay 2 rampPath] ⟨"rise", rampPath 2⟩ moves' final' := by
  obtain ⟨m', report, success⟩ := ramp_continuize ℝ "continuize"
  obtain ⟨source, a', clock, result, keeps⟩ :=
    Model.continuize_keeps_runs (ramp_valid ℝ) rfl success
  obtain rfl : .introduced "t" = source :=
    Except.ok.inj ((ramp_clockSource ℝ "continuize").symm.trans clock)
  have time (t : ℝ) : rampPath t "t" = t := rampPath_eq (.inr rfl) t
  have run : ((rampAutomaton ℝ).withClock (.introduced "t")).Run ⟨"rise", rampPath 0⟩
      [.delay 2 rampPath] ⟨"rise", rampPath 2⟩ :=
    .cons ⟨_, ramp_mode? ℝ, rfl⟩ (.delay (ramp_mode? ℝ) ramp_evolves)
      (.nil ⟨_, ramp_mode? ℝ, rfl⟩)
  have starts : ((ramp ℝ).withClock (rampAutomaton ℝ) (.introduced "t")).Starts
      ⟨"rise", rampPath 0⟩ := by
    refine ⟨.eq (.var "t") (.num 0), rfl, ?_⟩
    simp [Expr.HoldsAt, Expr.holds, Expr.eval, Expr.assign, Comparison.apply, time, bind,
      Except.bind, pure, Except.pure]
  have first : ∀ first, (rampSampling ℝ).breakpoints.head? = some first →
      finite (rampPath 0 "t") ≤ first := by
    intro first isFirst
    obtain rfl := Option.some.inj isFirst
    simp [time]
  have within : (rampSampling ℝ).WithinWindows (rampPath 2 "t") := by
    intro last isLast
    obtain rfl := Option.some.inj isLast
    simp [time]
  obtain ⟨starts', moves', final', stands⟩ :=
    keeps (by simp [rampAutomaton]) _ _ _ starts run (time 0).ge first within
  exact ⟨m', report, a', moves', final', success, result, starts', stands⟩

end HybridAutomata
