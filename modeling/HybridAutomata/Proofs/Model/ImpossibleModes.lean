import HybridAutomata.Proofs.Automaton.Runs
import HybridAutomata.Proofs.Exact.Contradictions
import HybridAutomata.Proofs.Model.Rewriting

/-!
# Runs without impossible modes

A mode is removed if its invariant is a plain contradiction. In a state in which the invariant holds
and all of it is defined it is no contradiction, so the mode stays; and a run through such states
stays a run, for it neither uses a transition of a mode that is gone nor rests in one.
-/

namespace HybridAutomata

open Extended

namespace Automaton

/-! ## Modes that stay -/

section

variable {α : Type} [Scalar α] {a : Automaton α} {name : String} {m : Mode α}

/-- Where modes are stored under their own names, those are removed whose invariants are plain
contradictions. -/
theorem mem_impossibleModes_iff (stored : ∀ entry ∈ a.modes.entries, entry.2.name = entry.1)
    (found : a.mode? name = some m) :
    name ∈ a.impossibleModes ↔ m.invariant.isPlainlyUnsatisfiable = true := by
  have given := NameMap.find?_eq_some_iff.mp found
  constructor
  · intro gone
    obtain ⟨m', impossible, named⟩ := List.mem_map.mp gone
    obtain ⟨listed, plain⟩ := List.mem_filter.mp impossible
    obtain ⟨⟨key, m'⟩, mem, rfl⟩ := List.mem_map.mp listed
    have found' : a.mode? name = some m' :=
      NameMap.find?_eq_some_iff.mpr (by rwa [← named, stored _ mem])
    rwa [Option.some.inj (found.symm.trans found')]
  · intro plain
    refine List.mem_map.mpr ⟨m, List.mem_filter.mpr ⟨List.mem_map_of_mem given, plain⟩, ?_⟩
    exact stored _ given

/-- The modes that stay are what they were. -/
theorem mode?_withoutImpossibleModes : a.withoutImpossibleModes.mode? name = some m ↔
    a.mode? name = some m ∧ name ∉ a.impossibleModes := by
  rw [mode?, withoutImpossibleModes, NameMap.find?_filter, Option.filter_eq_some_iff,
    Bool.not_eq_true', Bool.eq_false_iff, Ne, List.contains_iff_mem]
  rfl

/-- Where no mode is impossible nothing is removed. -/
theorem withoutImpossibleModes_of_none (none : a.impossibleModes = []) :
    a.withoutImpossibleModes = a := by
  have modes : a.modes.filter (fun _ _ => true) = a.modes :=
    NameMap.ext (List.filter_eq_self.mpr fun _ _ => rfl)
  have transitions : a.transitions.filter (fun _ => true) = a.transitions :=
    List.filter_eq_self.mpr fun _ _ => rfl
  rw [withoutImpossibleModes, none]
  change { a with
    modes := a.modes.filter fun _ _ => true
    transitions := a.transitions.filter fun _ => true } = a
  rw [modes, transitions]

end

end Automaton

/-! ## Runs -/

namespace Automaton

variable {a : Automaton (Extended ℝ)} {s middle final : State} {move : Move} {moves : List Move}

/-- Wherever the run is, all of the invariant of its mode is defined. -/
def DefinedAlong (a : Automaton (Extended ℝ)) (s : State) (moves : List Move) : Prop :=
  ∀ time visited m, Visits s moves time visited → a.mode? visited.mode = some m →
    m.invariant.DefinedThroughout (Expr.assign visited.values)

/-- A mode in which a state is admitted stays if all of its invariant is defined there. -/
theorem Admits.withoutImpossibleModes
    (stored : ∀ entry ∈ a.modes.entries, entry.2.name = entry.1) (admits : a.Admits s)
    (defined : ∀ m, a.mode? s.mode = some m →
      m.invariant.DefinedThroughout (Expr.assign s.values)) :
    a.withoutImpossibleModes.mode? s.mode = a.mode? s.mode ∧ a.withoutImpossibleModes.Admits s := by
  obtain ⟨m, found, holds⟩ := admits
  have stays : a.withoutImpossibleModes.mode? s.mode = some m := by
    refine mode?_withoutImpossibleModes.mpr ⟨found, fun gone => ?_⟩
    have plain := (mem_impossibleModes_iff stored found).mp gone
    exact Expr.holds_ne_true_of_isPlainlyUnsatisfiable plain (defined m found) holds
  exact ⟨stays.trans found.symm, m, stays, holds⟩

/-- A move between states that are still admitted is still made. -/
theorem Makes.withoutImpossibleModes (makes : a.Makes s move middle)
    (source : a.withoutImpossibleModes.Admits s) (target : a.withoutImpossibleModes.Admits middle) :
    a.withoutImpossibleModes.Makes s move middle := by
  obtain ⟨m, foundSource, _⟩ := source
  obtain ⟨_, foundTarget, _⟩ := target
  obtain ⟨given, sourceStays⟩ := mode?_withoutImpossibleModes.mp foundSource
  obtain ⟨_, targetStays⟩ := mode?_withoutImpossibleModes.mp foundTarget
  cases makes with
  | delay found evolves =>
      obtain rfl := Option.some.inj (given.symm.trans found)
      exact .delay foundSource evolves
  | jump mem enabled sets =>
      refine .jump (List.mem_filter.mpr ⟨mem, ?_⟩) enabled sets
      simpa using ⟨sourceStays, targetStays⟩

/-- A run along which the invariants are defined is a run without the impossible modes. -/
theorem Run.withoutImpossibleModes
    (stored : ∀ entry ∈ a.modes.entries, entry.2.name = entry.1) (run : a.Run s moves final)
    (defined : a.DefinedAlong s moves) : a.withoutImpossibleModes.Run s moves final := by
  induction run with
  | nil admits =>
      exact .nil (admits.withoutImpossibleModes stored fun m => defined 0 _ m ⟨rfl, rfl⟩).2
  | @cons s middle final move moves admits makes rest ih =>
      have start : Visits s (move :: moves) 0 s := (Run.cons admits makes rest).visits_start
      have later := ih fun time visited m visits found =>
        have ⟨time', visits'⟩ := makes.exists_visits visits
        defined time' visited m visits' found
      have still := (admits.withoutImpossibleModes stored fun m => defined 0 s m start).2
      exact .cons still (makes.withoutImpossibleModes still later.admits) later

end Automaton

/-! ## Models -/

namespace Model

/-- Every automaton loses its impossible modes, also where a model without any is returned as it
is. -/
theorem automata_withoutImpossibleModes {α : Type} [Scalar α] (m : Model α) :
    m.withoutImpossibleModes.root.automata =
      m.root.automata.map Automaton.withoutImpossibleModes := by
  rw [withoutImpossibleModes]
  split
  · next none =>
      have unchanged : ∀ a ∈ m.root.automata, a.withoutImpossibleModes = a := fun a mem =>
        Automaton.withoutImpossibleModes_of_none
          (List.isEmpty_iff.mp (List.all_eq_true.mp none a mem))
      rw [List.map_congr_left unchanged, List.map_id']
  · exact Component.automata_mapAutomata m.root

/-- The removal of impossible modes is exact. An invariant that counts as a plain contradiction
holds nowhere where all of it is defined; and an invariant that is simplified to a conjunction of
constants and of comparisons of one variable with one number counts as a plain contradiction if
nothing satisfies it. So every automaton of the model, its modes being stored under their own names,
keeps each mode that a run can be in while all of the invariant is defined, and a run along which
the invariants are defined is a run of what is left. -/
theorem withoutImpossibleModes_exact {K α : Type} [Field K] [LinearOrder K] [DenselyOrdered K]
    [NoMinOrder K] [NoMaxOrder K] [Scalar α] [ExactScalar K α] :
    (∀ (e : Expr α) (env : String → Option α), e.isPlainlyUnsatisfiable = true →
        e.DefinedThroughout env → e.holds env ≠ .ok true) ∧
      (∀ e : Expr α, (∀ c ∈ e.simplify.conjuncts, c.IsSimpleConjunct) →
        (∀ v : String → K,
          e.simplify.holds (fun name => some (ExactScalar.number (v name))) ≠ .ok true) →
        e.isPlainlyUnsatisfiable = true) ∧
      ∀ m : Model (Extended ℝ),
        (∀ a ∈ m.root.automata, ∀ entry ∈ a.modes.entries, entry.2.name = entry.1) →
        m.withoutImpossibleModes.root.automata =
            m.root.automata.map Automaton.withoutImpossibleModes ∧
          ∀ a ∈ m.root.automata, ∀ s moves final, a.Run s moves final →
            (∀ time visited, Visits s moves time visited →
              (∀ mode, a.mode? visited.mode = some mode →
                mode.invariant.DefinedThroughout (Expr.assign visited.values)) →
              a.withoutImpossibleModes.mode? visited.mode = a.mode? visited.mode) ∧
            (a.DefinedAlong s moves → a.withoutImpossibleModes.Run s moves final) := by
  refine ⟨fun e env plain defined => Expr.holds_ne_true_of_isPlainlyUnsatisfiable plain defined,
    fun e simple => Expr.isPlainlyUnsatisfiable_of_unsatisfiable simple, fun m stored => ?_⟩
  refine ⟨m.automata_withoutImpossibleModes, fun a mem s moves final run => ⟨?_, ?_⟩⟩
  · intro time visited visits defined
    exact ((run.admits_of_visits visits).withoutImpossibleModes (stored a mem) defined).1
  · exact run.withoutImpossibleModes (stored a mem)

end Model

/-! ## A mode at rest -/

/-- No number is at least one and below zero. -/
noncomputable def apart : Expr (Extended ℝ) :=
  .binary (.logic .and) (.ge (.var "x") (.num (finite 1))) (.lt (.var "x") (.num (finite 0)))

/-- In one mode nothing moves, and in the other one there is nothing. -/
noncomputable def restingAutomaton : Automaton (Extended ℝ) where
  vars := .ofList ["x"]
  modes := .ofList [
    ("rest", { name := "rest", invariant := .le (.var "x") (.num (finite 1)) }),
    ("never", { name := "never", invariant := apart })]
  transitions := [{ source := "rest", target := "never" }]

/-- The automaton at rest loses the other mode and keeps its run. -/
theorem resting_keeps_run :
    let start : State := ⟨"rest", fun _ => 0⟩
    (∀ c ∈ apart.simplify.conjuncts, c.IsSimpleConjunct) ∧ apart.isPlainlyUnsatisfiable = true ∧
      apart.DefinedThroughout (Expr.assign start.values) ∧
      apart.holds (Expr.assign start.values) ≠ .ok true ∧
      restingAutomaton.Run start [.delay 1 fun _ => start.values] start ∧
      restingAutomaton.DefinedAlong start [.delay 1 fun _ => start.values] ∧
      restingAutomaton.withoutImpossibleModes.Run start [.delay 1 fun _ => start.values] start := by
  intro start
  obtain ⟨sound, complete, keeps⟩ := Model.withoutImpossibleModes_exact (K := ℝ) (α := Extended ℝ)
  have simple : ∀ c ∈ apart.simplify.conjuncts, c.IsSimpleConjunct := by
    intro c mem
    obtain rfl | rfl := List.mem_pair.mp mem
    · exact .left "x" 1 (by decide)
    · exact .left "x" 0 (by decide)
  have plain := complete apart simple fun v holds => by
    obtain ⟨atLeast, below⟩ := Expr.holdsAt_binary_and.mp (holds : apart.HoldsAt v)
    have less : finite (v "x") < finite 0 := of_decide_eq_true (Except.ok.inj below)
    have ordered := (finite_le_finite.mp (Expr.holdsAt_ge.mp atLeast)).trans_lt
      (finite_lt_finite.mp less)
    norm_num at ordered
  have x : Expr.Means (Expr.assign start.values) (.var "x") (.number 0) := .var rfl
  have defined : apart.DefinedThroughout (Expr.assign start.values) := by
    have tooSmall : Expr.Means (Expr.assign start.values) (.ge (.var "x") (.num (finite 1)))
        (.truth false) :=
      Expr.means_compare.mpr ⟨0, 1, x, .num 1, by simp [Comparison.apply, ExactScalar.number]⟩
    exact Expr.definedThroughout_of_means (.decided tooSmall (.compare x (.num 0)))
  have invariant : Expr.Means (Expr.assign start.values) (.le (.var "x") (.num (finite 1)))
      (.truth true) :=
    Expr.means_compare.mpr ⟨0, 1, x, .num 1, by simp [Comparison.apply, ExactScalar.number]⟩
  have holds := Expr.holds_of_means _ invariant
  have found : restingAutomaton.mode? "rest" =
      some { name := "rest", invariant := .le (.var "x") (.num (finite 1)) } := rfl
  have evolves : Mode.Evolves { name := "rest", invariant := .le (.var "x") (.num (finite 1)) } 1
      fun _ => start.values := {
    nonneg := zero_le_one
    hasFlow := rfl
    invariant := fun _ _ => holds
    continuous := fun _ => continuousOn_const
    moves := fun _ _ given => by cases given
    still := fun _ _ _ _ => rfl }
  have run : restingAutomaton.Run start [.delay 1 fun _ => start.values] start :=
    .cons ⟨_, found, holds⟩ (.delay found evolves) (.nil ⟨_, found, holds⟩)
  have along : restingAutomaton.DefinedAlong start [.delay 1 fun _ => start.values] := by
    intro time visited m visits given
    obtain rfl : visited = start := by
      obtain ⟨_, here⟩ | ⟨_, here⟩ := visits <;> exact here
    obtain rfl := Option.some.inj (found.symm.trans given)
    exact Expr.definedThroughout_of_means invariant
  have stored : ∀ a ∈ (Component.flat restingAutomaton).automata, ∀ entry ∈ a.modes.entries,
      entry.2.name = entry.1 := by
    intro a mem entry given
    obtain rfl := List.mem_singleton.mp mem
    obtain rfl | rfl := List.mem_pair.mp given <;> rfl
  have kept := (keeps { root := .flat restingAutomaton, settings := .initial } stored).2
    restingAutomaton (List.mem_singleton_self _) _ _ _ run
  exact ⟨simple, plain, defined, sound apart _ plain defined, run, along, kept.2 along⟩

end HybridAutomata
