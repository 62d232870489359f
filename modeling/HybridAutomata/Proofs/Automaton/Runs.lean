import Mathlib.Analysis.Calculus.Deriv.Comp
import Mathlib.Analysis.Calculus.MeanValue
import Mathlib.Topology.Algebra.Module.ModuleTopology
import HybridAutomata.Automaton.Basic
import HybridAutomata.Proofs.Exact.Intervals
import HybridAutomata.Proofs.Exact.Values

/-!
# Runs of an automaton

A state is a mode with a real number for every name, and it is admitted if the invariant of the mode
holds. A run is a list of moves from one admitted state to the next. Time passes along a path on
which every name moves at a rate that the mode allows, names without a rate stand still, and the
invariant holds at every instant. A transition whose guard holds sets the names for which it has a
new value.

Any mode with a flow lets time pass; that an urgent one is left as soon as a transition is enabled
is a condition on runs of its own.

A rate that is known up to an interval may change at any time, so a path is continuous and has a
derivative to the right at every instant; a differentiable path is such a path.
-/

namespace HybridAutomata

open Extended Success

/-! ## Conditions and rates -/

namespace Expr

variable {K : Type} [Field K] [LinearOrder K] [FloorRing K] [Functions K]
  {l r : Expr (Extended K)} {x : String → K}

/-- A condition holds for the numbers that the names stand for. -/
def HoldsAt (e : Expr (Extended K)) (x : String → K) : Prop := e.holds (assign x) = .ok true

@[simp] theorem holdsAt_true : (bool true : Expr (Extended K)).HoldsAt x := rfl

theorem holdsAt_binary_and :
    (binary (.logic .and) l r).HoldsAt x ↔ l.HoldsAt x ∧ r.HoldsAt x := by
  unfold HoldsAt
  rw [holds]
  cases l.holds (assign x) with
  | error => simp [bind, Except.bind]
  | ok value => cases value <;> simp [bind, Except.bind, pure, Except.pure]

/-- A conjunction holds exactly if both parts do, however it is built. -/
theorem holdsAt_and : (l.and r).HoldsAt x ↔ l.HoldsAt x ∧ r.HoldsAt x := by
  induction l, r using Expr.and.induct with
  | case1 r₁ r₂ => simp [Expr.and]
  | case2 r₁ r₂ l notTrue ih₁ ih₂ =>
      rw [Expr.and, ih₂, ih₁, holdsAt_binary_and, and_assoc]
      exact notTrue
  | case3 l => simp
  | case4 r notAnd notTrue => simp [Expr.and]
  | case5 r notAnd notTrue l notTrue' =>
      rw [← holdsAt_binary_and, Expr.and]
      · exact notAnd
      · exact notTrue
      · exact notTrue'

theorem holdsAt_le {name : String} {bound : Extended K} :
    (le (.var name) (.num bound)).HoldsAt x ↔ finite (x name) ≤ bound := by
  simp [HoldsAt, holds, eval, assign, Comparison.apply, bind, Except.bind, pure, Except.pure]

theorem holdsAt_ge {name : String} {bound : Extended K} :
    (ge (.var name) (.num bound)).HoldsAt x ↔ bound ≤ finite (x name) := by
  simp [HoldsAt, holds, eval, assign, Comparison.apply, bind, Except.bind, pure, Except.pure]

end Expr

/-- The number is the value of the formula plus a number from the interval. -/
def Perturbed.Allows {K : Type} [Field K] [LinearOrder K] [FloorRing K] [Functions K]
    (p : Perturbed (Extended K)) (x : String → K) (number : K) : Prop :=
  ∃ value noise, p.expr.eval (Expr.assign x) = .ok (finite value) ∧ p.noiseOrZero.Holds noise ∧
    number = value + noise

/-! ## Time -/

/-- A real number for every name. -/
abbrev Valuation := String → ℝ

namespace Mode

/-- Time passes for `duration` along a path that the mode allows. -/
structure Evolves (m : Mode (Extended ℝ)) (duration : ℝ) (path : ℝ → Valuation) : Prop where
  nonneg : 0 ≤ duration
  hasFlow : m.hasFlow = true
  invariant : ∀ t ∈ Set.Icc 0 duration, m.invariant.HoldsAt (path t)
  continuous : ∀ y, ContinuousOn (path · y) (Set.Icc 0 duration)
  moves : ∀ y rate, m.flowOf? y = some rate → ∀ t ∈ Set.Ico 0 duration, ∃ derivative,
    rate.Allows (path t) derivative ∧ HasDerivWithinAt (path · y) derivative (Set.Ici t) t
  still : ∀ y, m.flowOf? y = none → ∀ t ∈ Set.Icc 0 duration, path t y = path 0 y

namespace Evolves

variable {m : Mode (Extended ℝ)} {duration first : ℝ} {path : ℝ → Valuation}

/-- The beginning of a path. -/
theorem before (h : m.Evolves duration path) (nonneg : 0 ≤ first) (le : first ≤ duration) :
    m.Evolves first path where
  nonneg
  hasFlow := h.hasFlow
  invariant t ht := h.invariant t (Set.Icc_subset_Icc_right le ht)
  continuous y := (h.continuous y).mono (Set.Icc_subset_Icc_right le)
  moves y rate found t ht := h.moves y rate found t (Set.Ico_subset_Ico_right le ht)
  still y found t ht := h.still y found t (Set.Icc_subset_Icc_right le ht)

/-- The rest of a path. -/
theorem after (h : m.Evolves duration path) (nonneg : 0 ≤ first) (le : first ≤ duration) :
    m.Evolves (duration - first) (fun t => path (first + t)) := by
  have later {t : ℝ} (ht : t ∈ Set.Icc 0 (duration - first)) :
      first + t ∈ Set.Icc 0 duration := by
    obtain ⟨lower, upper⟩ := ht
    constructor <;> linarith
  refine {
    nonneg := sub_nonneg.mpr le
    hasFlow := h.hasFlow
    invariant := fun t ht => h.invariant _ (later ht)
    continuous := fun y => (h.continuous y).comp (by fun_prop) fun t ht => later ht
    moves := ?_
    still := ?_ }
  · intro y rate found t ht
    obtain ⟨derivative, allowed, has⟩ := h.moves y rate found (first + t)
      ⟨(later ⟨ht.1, ht.2.le⟩).1, by linarith [ht.2]⟩
    refine ⟨derivative, allowed, ?_⟩
    have shift : HasDerivWithinAt (fun s => first + s) 1 (Set.Ici t) t :=
      (hasDerivWithinAt_id t _).const_add first
    have maps : Set.MapsTo (fun s => first + s) (Set.Ici t) (Set.Ici (first + t)) := by
      intro s hs
      exact add_le_add_right hs first
    have composed := has.scomp t shift maps
    rwa [one_smul] at composed
  · intro y found t ht
    rw [h.still y found _ (later ht), add_zero, h.still y found first ⟨nonneg, le⟩]

/-- A name with the rate one measures time. -/
theorem clock (h : m.Evolves duration path) {name : String} {rate : Perturbed (Extended ℝ)}
    (found : m.flowOf? name = some rate) (one : ∀ x derivative, rate.Allows x derivative →
      derivative = 1) {t : ℝ} (ht : t ∈ Set.Icc 0 duration) :
    path t name = path 0 name + t := by
  have continuous : ContinuousOn (fun s => path s name - s) (Set.Icc 0 duration) :=
    (h.continuous name).sub continuousOn_id
  have derivative : ∀ s ∈ Set.Ico 0 duration,
      HasDerivWithinAt (fun s => path s name - s) 0 (Set.Ici s) s := by
    intro s hs
    obtain ⟨derivative, allowed, has⟩ := h.moves name rate found s hs
    rw [one _ _ allowed] at has
    have difference := has.sub (hasDerivWithinAt_id s _)
    rwa [sub_self] at difference
  have constant := constant_of_has_deriv_right_zero continuous derivative t ht
  linarith

end Evolves

/-- As long as the values are in a region, the mode `w` allows what `m` does. -/
structure Covers (w m : Mode (Extended ℝ)) (region : Valuation → Prop) : Prop where
  urgent : w.urgent = m.urgent
  hasFlow : w.hasFlow = m.hasFlow
  invariant : ∀ x, region x → m.invariant.HoldsAt x → w.invariant.HoldsAt x
  moves : ∀ y rate, m.flowOf? y = some rate → ∃ rate', w.flowOf? y = some rate' ∧
    ∀ x derivative, rate.Allows x derivative → rate'.Allows x derivative
  still : ∀ y, m.flowOf? y = none → w.flowOf? y = none

theorem Covers.refl (m : Mode (Extended ℝ)) (region : Valuation → Prop) : m.Covers m region where
  urgent := rfl
  hasFlow := rfl
  invariant _ _ holds := holds
  moves _ rate found := ⟨rate, found, fun _ _ allowed => allowed⟩
  still _ found := found

theorem Covers.evolves {w m : Mode (Extended ℝ)} {region : Valuation → Prop} {duration : ℝ}
    {path : ℝ → Valuation} (h : w.Covers m region) (evolves : m.Evolves duration path)
    (inside : ∀ t ∈ Set.Icc 0 duration, region (path t)) : w.Evolves duration path where
  nonneg := evolves.nonneg
  hasFlow := h.hasFlow.trans evolves.hasFlow
  invariant t ht := h.invariant _ (inside t ht) (evolves.invariant t ht)
  continuous := evolves.continuous
  moves y rate' found' t ht := by
    cases found : m.flowOf? y with
    | none =>
        rw [h.still y found] at found'
        cases found'
    | some rate =>
        obtain ⟨_, found'', allows⟩ := h.moves y rate found
        obtain rfl := Option.some.inj (found'.symm.trans found'')
        obtain ⟨derivative, allowed, has⟩ := evolves.moves y rate found t ht
        exact ⟨derivative, allows _ _ allowed, has⟩
  still y found' t ht := by
    cases found : m.flowOf? y with
    | none => exact evolves.still y found t ht
    | some rate =>
        obtain ⟨_, found'', _⟩ := h.moves y rate found
        rw [found'] at found''
        cases found''

end Mode

/-! ## Moves -/

/-- A mode, and the values of all names. -/
structure State where
  mode : String
  values : Valuation

/-- What a run is made of. -/
inductive Move where
  | delay (duration : ℝ) (path : ℝ → Valuation)
  /-- A transition, and the values behind it. -/
  | jump (t : Transition (Extended ℝ)) (values : Valuation)

/-- Names with a new value get one that is allowed; the other ones keep theirs. -/
def Transition.Sets (t : Transition (Extended ℝ)) (before after : Valuation) : Prop :=
  ∀ y, match t.reset.find? y with
    | some value => value.Allows before (after y)
    | none => after y = before y

theorem Transition.Sets.of_none {t : Transition (Extended ℝ)} {before after : Valuation}
    {name : String} (h : t.Sets before after) (kept : t.reset.find? name = none) :
    after name = before name := by
  have values := h name
  rwa [kept] at values

namespace Automaton

variable (a : Automaton (Extended ℝ))

/-- The mode exists and its invariant holds. -/
def Admits (s : State) : Prop :=
  ∃ m, a.mode? s.mode = some m ∧ m.invariant.HoldsAt s.values

/-- One move, from a state to a state. -/
inductive Makes : State → Move → State → Prop where
  | delay {name : String} {m : Mode (Extended ℝ)} {duration : ℝ} {path : ℝ → Valuation}
      (found : a.mode? name = some m) (evolves : m.Evolves duration path) :
      Makes ⟨name, path 0⟩ (.delay duration path) ⟨name, path duration⟩
  | jump {t : Transition (Extended ℝ)} {before after : Valuation} (mem : t ∈ a.transitions)
      (enabled : t.guard.HoldsAt before) (sets : t.Sets before after) :
      Makes ⟨t.source, before⟩ (.jump t after) ⟨t.target, after⟩

/-- A list of moves through states that the automaton admits. -/
inductive Run : State → List Move → State → Prop where
  | nil {s : State} (admits : a.Admits s) : Run s [] s
  | cons {s middle final : State} {move : Move} {moves : List Move} (admits : a.Admits s)
      (makes : a.Makes s move middle) (rest : Run middle moves final) :
      Run s (move :: moves) final

/-- Time passes in an urgent mode only while no transition out of it is enabled. -/
def Waits (name : String) (duration : ℝ) (path : ℝ → Valuation) : Prop :=
  ∀ m, a.mode? name = some m → m.urgent = true → ∀ time ∈ Set.Ico 0 duration,
    ∀ t ∈ a.transitions, t.source = name → ¬t.guard.HoldsAt (path time)

/-- Urgent modes are left as soon as a transition is enabled. -/
def Prompt (s : State) : List Move → Prop
  | [] => True
  | .delay duration path :: rest =>
      a.Waits s.mode duration path ∧ Prompt ⟨s.mode, path duration⟩ rest
  | .jump t values :: rest => Prompt ⟨t.target, values⟩ rest

variable {a}

theorem Prompt.split {s : State} {duration first : ℝ} {path : ℝ → Valuation} {rest : List Move}
    (h : a.Prompt s (.delay duration path :: rest)) (nonneg : 0 ≤ first) (le : first ≤ duration) :
    a.Prompt s
      (.delay first path :: .delay (duration - first) (fun t => path (first + t)) :: rest) := by
  obtain ⟨waits, prompt⟩ := h
  refine ⟨?_, ?_, ?_⟩
  · intro m found urgent t ht
    exact waits m found urgent t ⟨ht.1, ht.2.trans_le le⟩
  · intro m found urgent t ht
    exact waits m found urgent (first + t) ⟨add_nonneg nonneg ht.1, by linarith [ht.2]⟩
  · change a.Prompt ⟨s.mode, path (first + (duration - first))⟩ rest
    rwa [add_sub_cancel]

theorem Run.admits {s final : State} {moves : List Move} (h : a.Run s moves final) :
    a.Admits s := by
  cases h with
  | nil admits => exact admits
  | cons admits _ _ => exact admits

end Automaton

/-- In a state from which a number of moves is made, the state at a time, counted from there. A
transition takes no time, so there can be several. -/
def Visits (s : State) : List Move → ℝ → State → Prop
  | [], time, visited => time = 0 ∧ visited = s
  | .delay duration path :: rest, time, visited =>
      (time ∈ Set.Icc 0 duration ∧ visited = ⟨s.mode, path time⟩) ∨
        Visits ⟨s.mode, path duration⟩ rest (time - duration) visited
  | .jump t values :: rest, time, visited =>
      (time = 0 ∧ visited = s) ∨ Visits ⟨t.target, values⟩ rest time visited

namespace Automaton

variable {a : Automaton (Extended ℝ)} {s middle visited final : State} {move : Move}
  {moves : List Move} {time : ℝ}

/-- A run visits the state from which it starts. -/
theorem Run.visits_start (h : a.Run s moves final) : Visits s moves 0 s := by
  cases h with
  | nil => exact ⟨rfl, rfl⟩
  | cons _ makes _ =>
      cases makes with
      | delay _ evolves => exact .inl ⟨⟨le_rfl, evolves.nonneg⟩, rfl⟩
      | jump => exact .inl ⟨rfl, rfl⟩

/-- What is visited after the first move is visited. -/
theorem Makes.exists_visits (h : a.Makes s move middle) (later : Visits middle moves time visited) :
    ∃ time', Visits s (move :: moves) time' visited := by
  cases h with
  | @delay _ _ duration _ _ _ =>
      refine ⟨time + duration, .inr ?_⟩
      rwa [add_sub_cancel_right]
  | jump => exact ⟨time, .inr later⟩

/-- All states that a run visits are admitted. -/
theorem Run.admits_of_visits (h : a.Run s moves final) (visits : Visits s moves time visited) :
    a.Admits visited := by
  induction h generalizing time with
  | nil admits =>
      obtain ⟨_, rfl⟩ := visits
      exact admits
  | cons admits makes _ ih =>
      cases makes with
      | delay found evolves =>
          obtain ⟨inside, rfl⟩ | later := visits
          · exact ⟨_, found, evolves.invariant _ inside⟩
          · exact ih later
      | jump =>
          obtain ⟨_, rfl⟩ | later := visits
          · exact admits
          · exact ih later

end Automaton

/-- A delay visits what its two parts do. -/
theorem visits_split {s visited : State} {duration first time : ℝ} {path : ℝ → Valuation}
    {rest : List Move} (nonneg : 0 ≤ first) (le : first ≤ duration) :
    Visits s (.delay duration path :: rest) time visited ↔
      Visits s (.delay first path :: .delay (duration - first) (fun t => path (first + t)) :: rest)
        time visited := by
  simp only [Visits, add_sub_cancel, sub_sub, ← or_assoc]
  refine or_congr_left ⟨?_, ?_⟩
  · rintro ⟨⟨lower, upper⟩, rfl⟩
    obtain before | after := le_total time first
    · exact .inl ⟨⟨lower, before⟩, rfl⟩
    · exact .inr ⟨⟨sub_nonneg.mpr after, sub_le_sub_right upper first⟩, rfl⟩
  · rintro (⟨⟨lower, upper⟩, rfl⟩ | ⟨⟨lower, upper⟩, rfl⟩)
    · exact ⟨⟨lower, upper.trans le⟩, rfl⟩
    · exact ⟨⟨nonneg.trans (sub_nonneg.mp lower), (sub_le_sub_iff_right first).mp upper⟩, rfl⟩

end HybridAutomata
