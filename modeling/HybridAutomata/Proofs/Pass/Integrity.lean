import HybridAutomata.Pass.Registry
import HybridAutomata.Proofs.Exact.Fields
import HybridAutomata.Proofs.Model.ModeNames

/-!
# Passes that keep the rules

Six of the passes turn a model that keeps the rules, with its root at the root path, into one that
does. So does any sequence of them, whatever their parameters, and a pipeline of them never reaches
a model that breaks a rule, also when a step fails and when the check after each step is switched
off.
-/

namespace HybridAutomata

open Success

variable {α : Type} [Scalar α]

/-- A model that keeps the rules, and whose root is where paths begin. -/
structure Model.SoundAtRoot (m : Model α) : Prop extends m.Sound where
  place : m.root.path = .root

namespace Model

variable {m m' : Model α}

theorem SoundAtRoot.simplify (h : m.SoundAtRoot) : m.simplify.SoundAtRoot where
  toSound := h.toSound.simplify
  place :=
    (Component.path_mapAutomata (f := (·.mapExprs .simplify)) (fun _ => rfl) m.root).trans h.place

theorem SoundAtRoot.withoutImpossibleModes (h : m.SoundAtRoot) :
    m.withoutImpossibleModes.SoundAtRoot where
  toSound := h.toSound.withoutImpossibleModes
  place := by
    rw [Model.withoutImpossibleModes]
    split
    · exact h.place
    · have keeps (a : Automaton α) : a.withoutImpossibleModes.toScope = a.toScope := rfl
      exact (Component.path_mapAutomata keeps m.root).trans h.place

theorem SoundAtRoot.of_reduceTo (h : m.SoundAtRoot) {keep : List String} {pass : String}
    (success : m.reduceTo keep pass = .ok m') : m'.SoundAtRoot := by
  obtain ⟨a, flat, declared, rfl⟩ := reduceTo_eq_ok_iff.mp success
  have root := automaton_eq_ok_iff.mp flat
  have covers :=
    (Automaton.isLeast_cone declared).1.covers (h.toSound.automaton flat).toWellFormed
  exact ⟨h.toSound.reduced root covers, (path_of_automaton flat).trans h.place⟩

theorem SoundAtRoot.withTransitions (h : m.SoundAtRoot) {a : Automaton α}
    (flat : m.automaton = .ok a) {transitions : List (Transition α)}
    (kept : a.Sound → ∀ t ∈ transitions, a.KeepsTransition t) :
    (m.withAutomaton { a with transitions }).SoundAtRoot := by
  have root := automaton_eq_ok_iff.mp flat
  exact ⟨h.toSound.withTransitions root (kept (h.toSound.automaton flat)),
    (path_of_automaton flat).trans h.place⟩

theorem SoundAtRoot.of_withIdentityResets (h : m.SoundAtRoot)
    (success : m.withIdentityResets = .ok m') : m'.SoundAtRoot := by
  obtain ⟨a, flat, made⟩ := bind_eq_ok_iff.mp success
  obtain rfl := pure_eq_ok_iff.mp made
  refine h.withTransitions flat fun automaton => List.forall_mem_map.mpr fun t mem => ?_
  exact (automaton.transitions t mem).withIdentities

theorem SoundAtRoot.of_splitDisjunctions (h : m.SoundAtRoot)
    (success : m.splitDisjunctions = .ok m') : m'.SoundAtRoot := by
  obtain ⟨a, flat, made⟩ := bind_eq_ok_iff.mp success
  obtain rfl := pure_eq_ok_iff.mp made
  refine h.withTransitions flat fun automaton t' mem => ?_
  obtain ⟨t, given, part⟩ := List.mem_flatMap.mp mem
  exact (automaton.transitions t given).split part

theorem SoundAtRoot.of_shortenModeNames (h : m.SoundAtRoot) {limit : Nat} {pass : String}
    (success : m.shortenModeNames limit pass = .ok m') : m'.SoundAtRoot := by
  obtain ⟨_, a, flat, rfl⟩ := shortenModeNames_eq_ok_iff.mp success
  have root := automaton_eq_ok_iff.mp flat
  have place := (path_of_automaton flat).trans h.place
  split
  · exact h
  · exact ⟨h.toSound.renameModes root place _, place⟩

end Model

/-! ## Passes -/

namespace Pass

omit [Scalar α] in
/-- What a pass made when it is run on a copy. -/
theorem apply_eq_ok_iff {p : Pass α} {parameters : String} {ctx : Context α} {m m' : Model α} :
    p.apply parameters ctx m = .ok m' ↔ p.rewrite parameters ctx m = (m', .ok ()) := by
  rw [Pass.apply, Prod.ext_iff]
  constructor
  · intro success
    obtain ⟨_, done, same⟩ := bind_eq_ok_iff.mp success
    exact ⟨pure_eq_ok_iff.mp same, done⟩
  · rintro ⟨same, done⟩
    exact bind_eq_ok_iff.mpr ⟨(), done, pure_eq_ok_iff.mpr same⟩

omit [Scalar α] in
/-- A pass with options that succeeds has decoded some and made the transformation for them. -/
theorem exists_decode_of_apply {flag title parameters : String} {grammar : OptionGrammar}
    {decode : Matches → Option (Transformation α)} {ctx : Context α} {m m' : Model α}
    (success : (ofOptions flag title grammar decode).apply parameters ctx m = .ok m') :
    ∃ options transformation,
      decode options = some transformation ∧ transformation ctx m = .ok m' := by
  have done := apply_eq_ok_iff.mp success
  simp only [ofOptions] at done
  split at done
  · next made transformed =>
      obtain rfl : made = m' := congrArg Prod.fst done
      obtain ⟨transformation, read, transformed⟩ := bind_eq_ok_iff.mp transformed
      rw [readOptions, ofPass_eq_ok_iff, mapError_eq_ok_iff, OptionGrammar.decode,
        bind_eq_ok_iff] at read
      obtain ⟨options, _, decoded⟩ := read
      split at decoded
      · next found =>
          obtain rfl := pure_eq_ok_iff.mp decoded
          exact ⟨options, _, found, transformed⟩
      · cases decoded
  · cases congrArg Prod.snd done

/-- The passes that keep the rules of a model. -/
def peers : List (Pass α) :=
  [simplify, orderReduction, identityResets, splitDisjunctions, shortenModeNames,
    removeUnsatInvariants]

/-- One step: each of the passes, with any parameters. -/
theorem soundAtRoot_of_apply {p : Pass α} (peer : p ∈ peers) {parameters : String} {ctx : Context α}
    {m m' : Model α} (h : m.SoundAtRoot) (success : p.apply parameters ctx m = .ok m') :
    m'.SoundAtRoot := by
  simp only [peers, List.mem_cons, List.not_mem_nil, or_false] at peer
  obtain rfl | rfl | rfl | rfl | rfl | rfl := peer <;>
    obtain ⟨options, transformation, decoded, made⟩ := exists_decode_of_apply success <;>
    obtain rfl := Option.some.inj decoded
  · exact Except.ok.inj made ▸ h.simplify
  · exact h.of_reduceTo made
  · exact h.of_withIdentityResets made
  · exact h.of_splitDisjunctions made
  · exact h.of_shortenModeNames made
  · exact Except.ok.inj made ▸ h.withoutImpossibleModes

/-- A pass that was checked as well succeeded. -/
theorem apply_of_run {p : Pass α} {parameters : String} {ctx : Context α} {m m' : Model α}
    (success : p.run parameters ctx m = .ok m') : p.apply parameters ctx m = .ok m' := by
  obtain ⟨made, applied, checked⟩ := bind_eq_ok_iff.mp success
  obtain ⟨_, _, same⟩ := bind_eq_ok_iff.mp checked
  exact pure_eq_ok_iff.mp same ▸ applied

/-- Any number of steps, one after the other. -/
theorem soundAtRoot_of_foldlM {steps : List (Pass α × String)}
    (peers : ∀ step ∈ steps, step.1 ∈ peers) {ctx : Context α} {m m' : Model α}
    (h : m.SoundAtRoot)
    (success : steps.foldlM (fun m step => step.1.apply step.2 ctx m) m = .ok m') :
    m'.SoundAtRoot := by
  induction steps generalizing m with
  | nil => exact pure_eq_ok_iff.mp success ▸ h
  | cons step rest ih =>
      obtain ⟨first, others⟩ := List.forall_mem_cons.mp peers
      rw [List.foldlM_cons, bind_eq_ok_iff] at success
      obtain ⟨next, made, success⟩ := success
      exact ih others (soundAtRoot_of_apply first h made) success

end Pass

/-- The model that a pipeline reaches, whether it gets to its end or not. -/
theorem Pipeline.soundAtRoot_of_runSteps {steps : List (Pass α × String)}
    (peers : ∀ step ∈ steps, step.1 ∈ Pass.peers) (ctx : Context α) {m : Model α}
    (h : m.SoundAtRoot) : (runSteps ctx m steps).1.SoundAtRoot := by
  induction steps generalizing m with
  | nil => exact h
  | cons step rest ih =>
      obtain ⟨first, others⟩ := List.forall_mem_cons.mp peers
      rw [runSteps]
      split
      · next m' made =>
          exact ih others (Pass.soundAtRoot_of_apply first h (Pass.apply_of_run made))
      · exact h

/-- From a valid model at the root, each of the passes that succeeds makes a valid one, and so does
every sequence of them; a pipeline of them is always at a valid one. -/
theorem Pass.peers_keep_valid {m : Model α} (valid : m.Valid) (place : m.root.path = .root)
    (ctx : Context α) :
    (∀ p ∈ Pass.peers, ∀ parameters m', p.apply parameters ctx m = .ok m' → m'.Valid) ∧
    (∀ steps : List (Pass α × String), (∀ step ∈ steps, step.1 ∈ Pass.peers) →
      ∀ m', steps.foldlM (fun m step => step.1.apply step.2 ctx m) m = .ok m' → m'.Valid) ∧
    ∀ pipeline : Pipeline α, (∀ step ∈ pipeline.steps, step.1 ∈ Pass.peers) →
      (pipeline.run ctx m).1.Valid := by
  have start : m.SoundAtRoot := ⟨Model.valid_iff.mp valid, place⟩
  refine ⟨fun p peer parameters m' success => ?_, fun steps peers m' success => ?_,
    fun pipeline peers => ?_⟩
  · exact Model.valid_iff.mpr (Pass.soundAtRoot_of_apply peer start success).toSound
  · exact Model.valid_iff.mpr (Pass.soundAtRoot_of_foldlM peers start success).toSound
  · exact Model.valid_iff.mpr (Pipeline.soundAtRoot_of_runSteps peers ctx start).toSound

/-- A shuttle that turns round at both ends, with a mode that it can never be in. -/
def shuttle : Automaton (Extended ℚ) where
  vars := .ofList ["position", "speed", "way"]
  constants := .ofList [("wall", ⟨1, 2⟩)]
  modes := .ofList
    [("rolling_freely", {
      name := "rolling_freely"
      flow := some (.ofList
        [("position", .exact (.mul (.num 1) (.var "speed"))), ("way", .exact (.var "speed"))]) }),
    ("stuck", {
      name := "stuck"
      invariant := .and (.lt (.var "position") (.num 0)) (.gt (.var "position") (.num 1)) })]
  transitions :=
    [{ source := "rolling_freely"
       target := "rolling_freely"
       guard := .or (.ge (.var "position") (.var "wall")) (.le (.var "position") (.num 0))
       reset := .ofList [("speed", .exact (.neg (.var "speed")))] },
     { source := "rolling_freely", target := "stuck" }]

def shuttleModel : Model (Extended ℚ) where
  root := .flat shuttle
  init := .ofList [("rolling_freely", .eq (.var "way") (.num 0))]
  forbidden := .ofList [("stuck", .bool true)]
  settings := { Settings.initial with plot := ("way", "position") }

/-- All six passes, one after the other. -/
def shuttleSteps : List (Pass (Extended ℚ) × String) :=
  [(.simplify, ""), (.orderReduction, "--keep speed"), (.identityResets, ""),
    (.splitDisjunctions, ""), (.removeUnsatInvariants, ""), (.shortenModeNames, "--max-len 7")]

/-- They succeed on the shuttle, and what they make of it is valid. -/
theorem shuttle_peers_keep_valid :
    shuttleModel.Valid ∧ shuttleModel.root.path = .root ∧
    ∃ m', shuttleSteps.foldlM (fun m step => step.1.apply step.2 .standard m) shuttleModel =
      .ok m' ∧ m'.root.modeNames = ["rolling"] ∧ m'.Valid := by
  have valid : shuttleModel.Valid := by
    rw [Model.Valid]
    decide +kernel
  have peers : ∀ step ∈ shuttleSteps, step.1 ∈ Pass.peers := by
    simp [shuttleSteps, Pass.peers]
  obtain ⟨m', success, names⟩ : ∃ m',
      shuttleSteps.foldlM (fun m step => step.1.apply step.2 .standard m) shuttleModel = .ok m' ∧
        decide (m'.root.modeNames = ["rolling"]) = true :=
    exists_ok_of_any (by decide +kernel)
  exact ⟨valid, rfl, m', success, of_decide_eq_true names,
    (Pass.peers_keep_valid valid rfl .standard).2.1 shuttleSteps peers m' success⟩

end HybridAutomata
