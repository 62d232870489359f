import HybridAutomata.Continuization.SamplingLoop
import HybridAutomata.Proofs.Automaton.Rules
import HybridAutomata.Proofs.Success

/-!
# What is read off sampling loops

A transition that was read as a sampling loop sets a clock of its mode back to zero and a variable
that the mode holds to the value of a law. All loops that are read share the clock and the variable,
and no mode has two of them, so the law of a mode is the one new value of the sampled variable among
the transitions of the mode to itself.
-/

namespace HybridAutomata

open Success

variable {α : Type}

namespace Automaton

/-- A transition of the mode to itself sets the variable to the value of the law. -/
def Samples (a : Automaton α) (mode sampled : String) (law : Expr α) : Prop :=
  ∃ t ∈ a.transitions, t.source = mode ∧ t.target = mode ∧
    t.reset.find? sampled = some ⟨law, none⟩

end Automaton

variable [Scalar α]

namespace SamplingLoop

/-- What is known of a transition and its mode once a loop was read off it. -/
structure IsReadOff (l : SamplingLoop α) (t : Transition α) (m : Mode α) : Prop where
  mode : l.mode = m.name
  measures : m.isClock l.clock = true
  held : (m.flowOf? l.sampled).any Perturbed.isExactZero = true
  law : t.reset.find? l.sampled = some ⟨l.law, none⟩
  apart : l.sampled ≠ l.clock

theorem mem_clocks {m : Mode α} {t : Transition α} {clock : String} (h : clock ∈ clocks m t) :
    m.isClock clock = true := by
  obtain ⟨_, kept, rfl⟩ := List.mem_map.mp h
  obtain ⟨_, kept⟩ := List.mem_filter.mp kept
  exact ((Bool.and_eq_true _ _).mp kept).2

/-- The sampled variable is held in the mode, and set to the law beside the clock. -/
theorem sampledLaw_eq_ok {m : Mode α} {clock sampled : String} {t : Transition α} {law : Expr α}
    (h : sampledLaw m clock t = .ok (sampled, law)) :
    (m.flowOf? sampled).any Perturbed.isExactZero = true ∧
      t.reset.find? sampled = some ⟨law, none⟩ ∧ sampled ≠ clock := by
  rw [sampledLaw] at h
  split at h
  · next name value others =>
      split at h
      · next rules =>
          cases h
          obtain ⟨held, exact⟩ := (Bool.and_eq_true _ _).mp rules
          obtain ⟨mem, ne⟩ := List.mem_filter.mp (others ▸ List.mem_singleton_self (sampled, value))
          refine ⟨held, ?_, bne_iff_ne.mp ne⟩
          rw [NameMap.find?_eq_some_iff.mpr mem]
          obtain ⟨_, noise⟩ := value
          cases noise with
          | none => rfl
          | some => cases exact
      · cases h
  · cases h

theorem read_eq_ok {a : Automaton α} {t : Transition α} {l : SamplingLoop α}
    (h : read a t = .ok l) : ∃ m, a.mode? t.source = some m ∧ l.IsReadOff t m := by
  rw [read] at h
  split at h
  · cases h
  · next m found =>
      split at h
      · next clock only =>
          simp only [bind_eq_ok_iff, pure_eq_ok_iff] at h
          obtain ⟨_, _, ⟨_, _⟩, set, rfl⟩ := h
          obtain ⟨held, law, apart⟩ := sampledLaw_eq_ok set
          have measures := mem_clocks (only ▸ List.mem_singleton_self clock)
          exact ⟨m, found, rfl, measures, held, law, apart⟩
      · cases h

omit [Scalar α] in
/-- A transition of a mode to itself that sets something is a candidate. -/
theorem isCandidate_of_find? {t : Transition α} {name : String} {value : Perturbed α}
    (self : t.source = t.target) (found : t.reset.find? name = some value) :
    isCandidate t = true := by
  have mem := NameMap.find?_eq_some_iff.mp found
  have sets : t.reset.entries.isEmpty = false :=
    List.isEmpty_eq_false_iff.mpr (List.ne_nil_of_mem mem)
  simp [isCandidate, Transition.isSelfLoop, self, sets]

omit [Scalar α] in
theorem self_of_isCandidate {t : Transition α} (h : isCandidate t = true) :
    t.source = t.target :=
  beq_iff_eq.mp ((Bool.and_eq_true _ _).mp h).1

end SamplingLoop

namespace Sampling

omit [Scalar α] in
/-- The laws that are collected are those of the loops, for no mode has two. -/
theorem find?_collectLaws {laws laws' : NameMap (Expr α)} {loops : List (SamplingLoop α)}
    (h : collectLaws laws loops = .ok laws') (mode : String) (law : Expr α) :
    laws'.find? mode = some law ↔
      laws.find? mode = some law ∨ ∃ l ∈ loops, l.mode = mode ∧ l.law = law := by
  induction loops generalizing laws with
  | nil =>
      cases h
      simp
  | cons l loops ih =>
      rw [collectLaws] at h
      split at h
      · cases h
      · next fresh =>
          rw [ih h, NameMap.find?_insert]
          rw [NameMap.contains_iff, ← NameMap.find?_eq_none_iff] at fresh
          by_cases same : mode = l.mode
          · subst same
            simp [fresh]
          · simp [same, Ne.symm same]

/-- What is known of the sampling of an automaton: a mode with a law holds the sampled variable and
measures time by the clock, and the laws are those that are sampled. -/
structure IsReadOff (s : Sampling α) (a : Automaton α) : Prop where
  nonempty : ∃ mode law, s.laws.find? mode = some law
  apart : s.sampled ≠ s.clock
  modes : ∀ mode law, s.laws.find? mode = some law → ∃ m, a.mode? mode = some m ∧
    m.isClock s.clock = true ∧ (m.flowOf? s.sampled).any Perturbed.isExactZero = true
  laws : ∀ mode law, s.laws.find? mode = some law ↔ a.Samples mode s.sampled law

/-- The traversal of the candidates gives a loop for each of them. -/
theorem exists_loop {a : Automaton α} {loops : List (SamplingLoop α)}
    (h : ((a.transitions.filter SamplingLoop.isCandidate).mapM fun t =>
      (SamplingLoop.read a t).mapError
        (Failure.unsupported (.transition t.source t.target .root))) = .ok loops) :
    (∀ l ∈ loops, ∃ t ∈ a.transitions, t.source = t.target ∧
        ∃ m, a.mode? t.source = some m ∧ l.IsReadOff t m) ∧
      ∀ t ∈ a.transitions, SamplingLoop.isCandidate t = true →
        ∃ l ∈ loops, ∃ m, a.mode? t.source = some m ∧ l.IsReadOff t m := by
  constructor
  · intro l mem
    obtain ⟨t, candidate, made⟩ := (mem_of_mapM h).mp mem
    obtain ⟨mem, candidate⟩ := List.mem_filter.mp candidate
    exact ⟨t, mem, SamplingLoop.self_of_isCandidate candidate,
      SamplingLoop.read_eq_ok (mapError_eq_ok_iff.mp made)⟩
  · intro t mem candidate
    obtain ⟨l, hl, made⟩ := exists_of_mapM h (List.mem_filter.mpr ⟨mem, candidate⟩)
    exact ⟨l, hl, SamplingLoop.read_eq_ok (mapError_eq_ok_iff.mp made)⟩

theorem read_eq_ok {a : Automaton α} {tolerance : α} {s : Sampling α}
    (stored : ∀ key m, a.mode? key = some m → m.name = key)
    (h : read a tolerance = .ok s) : s.IsReadOff a := by
  simp only [read, bind_eq_ok_iff] at h
  obtain ⟨loops, success, h⟩ := h
  obtain ⟨readOff, covered⟩ := exists_loop success
  split at h
  · cases h
  next first rest =>
  split at h
  · cases h
  next agree =>
  simp only [bind_eq_ok_iff, pure_eq_ok_iff] at h
  obtain ⟨laws, collected, rfl⟩ := h
  have agree : ∀ l ∈ first :: rest, l.clock = first.clock ∧ l.sampled = first.sampled := by
    intro l mem
    have agrees := List.find?_eq_none.mp agree l mem
    simp only [SamplingLoop.agrees, Bool.not_eq_true', Bool.not_eq_false, Bool.and_eq_true,
      beq_iff_eq] at agrees
    exact agrees.1
  have byLoop (mode : String) (law : Expr α) : laws.find? mode = some law ↔
      ∃ l ∈ first :: rest, l.mode = mode ∧ l.law = law := by
    rw [find?_collectLaws collected mode law]
    exact or_iff_right (by rw [show (∅ : NameMap (Expr α)).find? mode = none from rfl]; simp)
  have ofLoop : ∀ l ∈ first :: rest, ∃ m, a.mode? l.mode = some m ∧
      m.isClock first.clock = true ∧
      (m.flowOf? first.sampled).any Perturbed.isExactZero = true ∧
      a.Samples l.mode first.sampled l.law ∧ first.sampled ≠ first.clock := by
    intro l mem
    obtain ⟨t, ht, self, m, found, read⟩ := readOff l mem
    obtain ⟨clock, sampled⟩ := agree l mem
    have mode : l.mode = t.source := read.mode.trans (stored _ m found)
    refine ⟨m, mode ▸ found, clock ▸ read.measures, sampled ▸ read.held, ?_, ?_⟩
    · exact ⟨t, ht, mode.symm, self.symm.trans mode.symm, sampled ▸ read.law⟩
    · exact clock ▸ sampled ▸ read.apart
  refine ⟨⟨_, _, (byLoop _ _).mpr ⟨first, List.mem_cons_self, rfl, rfl⟩⟩, ?_, ?_, ?_⟩
  · obtain ⟨_, _, _, _, _, apart⟩ := ofLoop first List.mem_cons_self
    exact apart
  · intro mode law found
    obtain ⟨l, mem, rfl, rfl⟩ := (byLoop mode law).mp found
    obtain ⟨m, found, measures, held, _⟩ := ofLoop l mem
    exact ⟨m, found, measures, held⟩
  · intro mode law
    rw [byLoop]
    constructor
    · rintro ⟨l, mem, rfl, rfl⟩
      obtain ⟨_, _, _, _, samples, _⟩ := ofLoop l mem
      exact samples
    · rintro ⟨t, ht, source, target, found⟩
      obtain ⟨l, mem, m, stored', read⟩ := covered t ht
        (SamplingLoop.isCandidate_of_find? (source.trans target.symm) found)
      refine ⟨l, mem, (read.mode.trans (stored _ m stored')).trans source, ?_⟩
      have same := (agree l mem).2 ▸ read.law
      rw [found] at same
      cases same
      rfl

end Sampling

end HybridAutomata
