import HybridAutomata.Proofs.Automaton.Runs
import HybridAutomata.Proofs.Flatten.States

/-!
# Runs of a tree

The flat automata of a tree run side by side over the names at its root, each of them with its own
names for some of these. In a state every automaton is in a mode. Time passes for all of them
together: all invariants hold, all rates are kept, and what no automaton moves stands still. A
transition is taken by one automaton, and the others keep their modes. A tree that is one automaton
runs as the automaton does.
-/

namespace HybridAutomata

open Extended

/-! ## Modes by name -/

namespace Component

variable {α : Type}

/-- The automata at some places in the modes with some names. -/
def inModes : List (Place (Automaton α)) → List String → Option (JointState α)
  | [], [] => some []
  | p :: places, name :: names =>
      (p.item.mode? name).bind fun mode =>
        (inModes places names).map (Local.mk p mode :: ·)
  | _, _ => none

/-- The state in which the automata of a tree are in the modes with some names. -/
def state? (c : Component α) (names : List String) : Option (JointState α) :=
  inModes c.members names

end Component

/-! ## Time -/

/-- Time passes for `duration` along a path that the modes of all automata allow. -/
structure JointState.Evolves (s : JointState (Extended ℝ)) (duration : ℝ) (path : ℝ → Valuation) :
    Prop where
  nonneg : 0 ≤ duration
  hasFlow : ∀ l ∈ s, l.mode.hasFlow = true
  invariant : ∀ l ∈ s, ∀ t ∈ Set.Icc 0 duration,
    l.mode.invariant.HoldsAt (path t ∘ l.place.rename)
  continuous : ∀ z, ContinuousOn (path · z) (Set.Icc 0 duration)
  moves : ∀ l ∈ s, ∀ y rate, l.mode.flowOf? y = some rate → ∀ t ∈ Set.Ico 0 duration,
    ∃ derivative, rate.Allows (path t ∘ l.place.rename) derivative ∧
      HasDerivWithinAt (path · (l.place.rename y)) derivative (Set.Ici t) t
  still : ∀ z, (∀ l ∈ s, ∀ y, l.place.rename y = z → l.mode.flowOf? y = none) →
    ∀ t ∈ Set.Icc 0 duration, path t z = path 0 z

/-! ## Moves -/

/-- The name of a mode for each automaton of a tree, and the values of the names at its root. -/
structure TreeState where
  modes : List String
  values : Valuation

/-- What a run of a tree is made of. -/
inductive TreeMove where
  | delay (duration : ℝ) (path : ℝ → Valuation)
  /-- A transition of the automaton with a number, and the values behind it. -/
  | jump (index : ℕ) (t : Transition (Extended ℝ)) (values : Valuation)

/-- Names at the root with a new value get one that is allowed; the other ones keep theirs. -/
structure Place.Sets (p : Place (Automaton (Extended ℝ))) (t : Transition (Extended ℝ))
    (before after : Valuation) : Prop where
  sets : ∀ y value, t.reset.find? y = some value →
    value.Allows (before ∘ p.rename) (after (p.rename y))
  keeps : ∀ z, (∀ y, p.rename y = z → t.reset.find? y = none) → after z = before z

namespace Component

variable (c : Component (Extended ℝ))

/-- The modes exist and their invariants hold. -/
def Admits (s : TreeState) : Prop :=
  ∃ joint, c.state? s.modes = some joint ∧
    ∀ l ∈ joint, l.mode.invariant.HoldsAt (s.values ∘ l.place.rename)

/-- One move, from a state to a state. -/
inductive Makes : TreeState → TreeMove → TreeState → Prop where
  | delay {names : List String} {s : JointState (Extended ℝ)} {duration : ℝ} {path : ℝ → Valuation}
      (found : c.state? names = some s) (evolves : s.Evolves duration path) :
      Makes ⟨names, path 0⟩ (.delay duration path) ⟨names, path duration⟩
  | jump {names : List String} {index : ℕ} {p : Place (Automaton (Extended ℝ))}
      {t : Transition (Extended ℝ)} {before after : Valuation}
      (member : c.members[index]? = some p) (mem : t ∈ p.item.transitions)
      (source : names[index]? = some t.source) (enabled : t.guard.HoldsAt (before ∘ p.rename))
      (sets : p.Sets t before after) :
      Makes ⟨names, before⟩ (.jump index t after) ⟨names.set index t.target, after⟩

/-- A list of moves through states that the tree admits. -/
inductive Run : TreeState → List TreeMove → TreeState → Prop where
  | nil {s : TreeState} (admits : c.Admits s) : Run s [] s
  | cons {s middle final : TreeState} {move : TreeMove} {moves : List TreeMove}
      (admits : c.Admits s) (makes : c.Makes s move middle) (rest : Run middle moves final) :
      Run s (move :: moves) final

/-- While an automaton is in an urgent mode, time passes only as long as no automaton can leave its
mode. -/
def Waits (names : List String) (duration : ℝ) (path : ℝ → Valuation) : Prop :=
  ∀ s, c.state? names = some s → (∃ l ∈ s, l.mode.urgent = true) → ∀ time ∈ Set.Ico 0 duration,
    ∀ index : ℕ, ∀ p : Place (Automaton (Extended ℝ)), c.members[index]? = some p →
      ∀ t ∈ p.item.transitions, names[index]? = some t.source →
        ¬t.guard.HoldsAt (path time ∘ p.rename)

/-- Urgent modes are left as soon as a transition is enabled. -/
def Prompt (s : TreeState) : List TreeMove → Prop
  | [] => True
  | .delay duration path :: rest =>
      c.Waits s.modes duration path ∧ Prompt ⟨s.modes, path duration⟩ rest
  | .jump index t values :: rest => Prompt ⟨s.modes.set index t.target, values⟩ rest

end Component

/-! ## One automaton -/

/-- The state of a tree that is one automaton. -/
def State.alone (s : State) : TreeState := ⟨[s.mode], s.values⟩

theorem State.alone_injective : Function.Injective State.alone := by
  rintro ⟨mode, values⟩ ⟨mode', values'⟩ same
  obtain ⟨modes, rfl⟩ := TreeState.mk.inj same
  obtain rfl := (List.cons.inj modes).1
  rfl

/-- The move of a tree that is one automaton. -/
def Move.alone : Move → TreeMove
  | .delay duration path => .delay duration path
  | .jump t values => .jump 0 t values

section

variable {a : Automaton (Extended ℝ)} {s s' : State} {move : Move} {moves : List Move}

theorem JointState.evolves_alone_iff {m : Mode (Extended ℝ)} {duration : ℝ} {path : ℝ → Valuation} :
    JointState.Evolves [⟨.here a, m⟩] duration path ↔ m.Evolves duration path := by
  constructor
  · intro h
    have here : (⟨.here a, m⟩ : Local (Extended ℝ)) ∈ [⟨.here a, m⟩] := List.mem_singleton_self _
    exact {
      nonneg := h.nonneg
      hasFlow := h.hasFlow _ here
      invariant := h.invariant _ here
      continuous := h.continuous
      moves := h.moves _ here
      still := fun y none => h.still y (List.forall_mem_singleton.mpr fun y' same => by
        rwa [show y' = y from same]) }
  · intro h
    exact {
      nonneg := h.nonneg
      hasFlow := List.forall_mem_singleton.mpr h.hasFlow
      invariant := List.forall_mem_singleton.mpr h.invariant
      continuous := h.continuous
      moves := List.forall_mem_singleton.mpr h.moves
      still := fun y none => h.still y (List.forall_mem_singleton.mp none y rfl) }

theorem Place.sets_here_iff {t : Transition (Extended ℝ)} {before after : Valuation} :
    (Place.here a).Sets t before after ↔ t.Sets before after := by
  constructor
  · intro h y
    cases found : t.reset.find? y with
    | some value => exact h.sets y value found
    | none =>
        refine h.keeps y fun y' same => ?_
        rwa [show y' = y from same]
  · intro h
    refine ⟨fun y value found => ?_, fun z none => h.of_none (none z rfl)⟩
    have allowed := h y
    rwa [found] at allowed

namespace Component

theorem state?_flat (name : String) :
    (flat a).state? [name] = (a.mode? name).map fun mode => [⟨.here a, mode⟩] := by
  rw [state?, members]
  simp only [inModes, Option.map_some]
  exact Option.map_eq_bind.symm

theorem admits_alone_iff : (flat a).Admits s.alone ↔ a.Admits s := by
  simp only [Admits, State.alone, state?_flat, Option.map_eq_some_iff]
  constructor
  · rintro ⟨_, ⟨m, found, rfl⟩, holds⟩
    exact ⟨m, found, holds _ (List.mem_singleton_self _)⟩
  · rintro ⟨m, found, holds⟩
    exact ⟨_, ⟨m, found, rfl⟩, List.forall_mem_singleton.mpr holds⟩

theorem makes_alone_iff {final : TreeState} : (flat a).Makes s.alone move.alone final ↔
    ∃ s', final = s'.alone ∧ a.Makes s move s' := by
  obtain ⟨mode, values⟩ := s
  constructor
  · intro h
    cases move with
    | delay duration path =>
        cases h with
        | delay found evolves =>
            obtain ⟨m, stored, rfl⟩ :=
              Option.map_eq_some_iff.mp ((state?_flat mode).symm.trans found)
            exact ⟨_, rfl, .delay stored (JointState.evolves_alone_iff.mp evolves)⟩
    | jump t after =>
        cases h with
        | jump member mem source enabled sets =>
            obtain rfl := Option.some.inj member
            obtain rfl := Option.some.inj source
            exact ⟨⟨t.target, after⟩, rfl, .jump mem enabled (Place.sets_here_iff.mp sets)⟩
  · rintro ⟨s', rfl, makes⟩
    cases makes with
    | @delay _ m _ _ found evolves =>
        have alone : (flat a).state? [mode] = some [⟨.here a, m⟩] := by
          rw [state?_flat, found, Option.map_some]
        exact .delay alone (JointState.evolves_alone_iff.mpr evolves)
    | @jump t _ after mem enabled sets =>
        have made : (flat a).Makes ⟨[t.source], values⟩ (.jump 0 t after)
            ⟨[t.source].set 0 t.target, after⟩ :=
          .jump (p := .here a) rfl mem rfl enabled (Place.sets_here_iff.mpr sets)
        exact made

/-- A tree that is one automaton runs as the automaton does. -/
theorem run_alone_iff :
    (flat a).Run s.alone (moves.map Move.alone) s'.alone ↔ a.Run s moves s' := by
  constructor
  · intro h
    induction moves generalizing s with
    | nil =>
        generalize same : s'.alone = final at h
        cases h with
        | nil admits =>
            obtain rfl := State.alone_injective same
            exact .nil (admits_alone_iff.mp admits)
    | cons move moves ih =>
        cases h with
        | cons admits makes rest =>
            obtain ⟨middle, rfl, made⟩ := makes_alone_iff.mp makes
            exact .cons (admits_alone_iff.mp admits) made (ih rest)
  · intro h
    induction h with
    | nil admits => exact .nil (admits_alone_iff.mpr admits)
    | cons admits makes _ ih =>
        exact .cons (admits_alone_iff.mpr admits) (makes_alone_iff.mpr ⟨_, rfl, makes⟩) ih

theorem waits_alone_iff {name : String} {duration : ℝ} {path : ℝ → Valuation} :
    (flat a).Waits [name] duration path ↔ a.Waits name duration path := by
  constructor
  · intro h m found urgent time inside t mem source
    have alone : (flat a).state? [name] = some [⟨.here a, m⟩] := by
      rw [state?_flat, found, Option.map_some]
    exact h _ alone ⟨_, List.mem_singleton_self _, urgent⟩ time inside 0 (.here a) rfl t mem
      (congrArg some source.symm)
  · intro h s found urgent time inside index p member t mem source
    obtain ⟨m, stored, rfl⟩ := Option.map_eq_some_iff.mp ((state?_flat name).symm.trans found)
    obtain ⟨l, here, urgent⟩ := urgent
    obtain rfl := List.mem_singleton.mp here
    obtain _ | index := index
    · obtain rfl := Option.some.inj member
      exact h m stored urgent time inside t mem (Option.some.inj source).symm
    · cases source

/-- Urgent modes are left as promptly by the tree as by the automaton. -/
theorem prompt_alone_iff : (flat a).Prompt s.alone (moves.map Move.alone) ↔ a.Prompt s moves := by
  induction moves generalizing s with
  | nil => exact Iff.rfl
  | cons move moves ih =>
      cases move with
      | delay duration path => exact and_congr waits_alone_iff (ih (s := ⟨s.mode, path duration⟩))
      | jump t values => exact ih (s := ⟨t.target, values⟩)

end Component

end

end HybridAutomata
