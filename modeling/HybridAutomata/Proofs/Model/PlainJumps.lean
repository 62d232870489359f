import HybridAutomata.Proofs.Automaton.Runs
import HybridAutomata.Proofs.Expr.Connectives
import HybridAutomata.Proofs.Pass.Integrity

/-!
# Plain jumps are the same jumps

At some values an automaton has jumps: each joins two modes and leads to any of a set of values.
Making every new value explicit and splitting guards change the transitions in number and in form,
in whatever order and however often it is done, but not the jumps; provided that the disjuncts of
the guards are all true or false there. A guard that is a disjunction stops at the first disjunct
that holds, and its parts do not.
-/

namespace HybridAutomata

open Extended Success

variable {K : Type} [Field K] [LinearOrder K] [FloorRing K] [Functions K] {x : String → K}

/-! ## Jumps -/

/-- The values that a transition can lead to. -/
def Transition.successors (t : Transition (Extended K)) (x : String → K) : Set (String → K) :=
  {after | ∀ y, match t.reset.find? y with
    | some value => value.Allows x (after y)
    | none => after y = x y}

theorem Transition.mem_successors_iff {t : Transition (Extended ℝ)} {before after : Valuation} :
    after ∈ t.successors before ↔ t.Sets before after := by
  refine forall_congr' fun y => ?_
  cases t.reset.find? y <;> rfl

namespace Automaton

/-- The jumps that are possible at some values: the modes they join, and the values they can lead
to. -/
def jumps (a : Automaton (Extended K)) (x : String → K) :
    Set (String × String × Set (String → K)) :=
  {jump | ∃ t ∈ a.transitions, t.guard.HoldsAt x ∧ jump = (t.source, t.target, t.successors x)}

/-- Every disjunct of every guard is true or false. -/
def Decided (a : Automaton (Extended K)) (x : String → K) : Prop :=
  ∀ t ∈ a.transitions, ∀ part ∈ t.guard.disjuncts, ∃ b, part.holds (Expr.assign x) = .ok b

/-- These are the jumps of runs. -/
theorem exists_makes_jump_iff {a : Automaton (Extended ℝ)} {source target : String}
    {before after : Valuation} :
    (∃ t, a.Makes ⟨source, before⟩ (.jump t after) ⟨target, after⟩) ↔
      ∃ successors, (source, target, successors) ∈ a.jumps before ∧ after ∈ successors := by
  constructor
  · rintro ⟨t, makes⟩
    cases makes with
    | jump mem enabled sets =>
        exact ⟨_, ⟨t, mem, enabled, rfl⟩, Transition.mem_successors_iff.mpr sets⟩
  · rintro ⟨_, ⟨t, mem, enabled, same⟩, sets⟩
    cases same
    exact ⟨t, .jump mem enabled (Transition.mem_successors_iff.mp sets)⟩

end Automaton

/-- A guard of which the disjuncts are true or false holds exactly if one of them does. -/
theorem Expr.holdsAt_iff_exists_disjunct {e : Expr (Extended K)}
    (decided : ∀ part ∈ e.disjuncts, ∃ b, part.holds (assign x) = .ok b) :
    e.HoldsAt x ↔ ∃ part ∈ e.disjuncts, part.HoldsAt x := by
  obtain ⟨b, value, holds⟩ := exists_holds_of_disjuncts (assign x) decided
  rw [HoldsAt, value, Except.ok.injEq]
  exact holds

/-! ## Explicit values -/

/-- A variable that is assigned to itself keeps its value. -/
theorem Perturbed.allows_self {name : String} {number : K} :
    (Perturbed.exact (.var name) : Perturbed (Extended K)).Allows x number ↔ number = x name := by
  have value : (Expr.var name).eval (Expr.assign x) = .ok (finite (x name)) := rfl
  constructor
  · rintro ⟨v, noise, same, held, rfl⟩
    obtain rfl := finite.inj (Except.ok.inj (value.symm.trans same))
    have none : noise = 0 := by
      rw [noiseOrZero, exact, Option.getD_none, Interval.zero, zero_eq] at held
      exact Interval.holds_point.mp held
    rw [none, add_zero]
  · rintro rfl
    exact ⟨x name, 0, value, Interval.holds_zero, (add_zero _).symm⟩

namespace Transition

section

variable {α : Type} {vars : List String} {t : Transition α}

/-- A name keeps its value or is assigned to itself. -/
theorem find?_withIdentities (y : String) :
    (t.withIdentities vars).reset.find? y =
      (t.reset.find? y).or (if y ∈ vars then some (.exact (.var y)) else none) := by
  have step (reset : NameMap (Perturbed α)) (name : String) :
      (if reset.contains name then reset else reset.insert name (.exact (.var name))).find? y =
        (reset.find? y).or (if y = name then some (.exact (.var y)) else none) := by
    by_cases here : y = name
    · subst here
      cases value : reset.find? y with
      | none =>
          have absent : ¬reset.contains y = true :=
            mt NameMap.contains_iff.mp (NameMap.find?_eq_none_iff.mp value)
          rw [if_neg absent, NameMap.find?_insert, if_pos rfl, if_pos rfl, Option.none_or]
      | some _ =>
          rw [if_pos (NameMap.contains_iff.mpr (NameMap.mem_keys_iff.mpr ⟨_, value⟩)), value,
            Option.some_or]
    · rw [if_neg here, Option.or_none]
      split
      · rfl
      · rw [NameMap.find?_insert, if_neg here]
  rw [withIdentities]
  generalize t.reset = reset
  induction vars generalizing reset with
  | nil => simp
  | cons name names ih =>
      rw [List.foldl_cons, ih, step, Option.or_assoc]
      congr 1
      by_cases here : y = name <;> simp [here]

theorem contains_withIdentities {y : String} (mem : y ∈ vars) :
    (t.withIdentities vars).reset.contains y = true := by
  rw [NameMap.contains_iff, NameMap.mem_keys_iff, find?_withIdentities, if_pos mem]
  cases t.reset.find? y with
  | none => exact ⟨_, rfl⟩
  | some value => exact ⟨value, rfl⟩

end

theorem successors_withIdentities (vars : List String) (t : Transition (Extended K)) :
    (t.withIdentities vars).successors x = t.successors x := by
  ext after
  refine forall_congr' fun y => ?_
  rw [find?_withIdentities]
  cases t.reset.find? y with
  | some value => rfl
  | none =>
      by_cases mem : y ∈ vars
      · rw [if_pos mem]
        exact Perturbed.allows_self
      · rw [if_neg mem]
        rfl

end Transition

/-! ## Rewritten automata -/

namespace Automaton

/-- Wherever the guards are decided in the one automaton, they are in the other one, and the jumps
are the same. -/
structure SameJumps (a a' : Automaton (Extended K)) : Prop where
  decided : ∀ x, a.Decided x → a'.Decided x
  jumps : ∀ x, a.Decided x → a'.jumps x = a.jumps x

variable {a a' a'' : Automaton (Extended K)}

theorem SameJumps.refl (a : Automaton (Extended K)) : a.SameJumps a :=
  ⟨fun _ decided => decided, fun _ _ => rfl⟩

theorem SameJumps.trans (h : a.SameJumps a') (h' : a'.SameJumps a'') : a.SameJumps a'' where
  decided x decided := h'.decided x (h.decided x decided)
  jumps x decided := (h'.jumps x (h.decided x decided)).trans (h.jumps x decided)

theorem sameJumps_withIdentities (a : Automaton (Extended K)) :
    a.SameJumps { a with transitions := a.transitions.map (·.withIdentities a.vars.toList) } where
  decided x decided := List.forall_mem_map.mpr decided
  jumps x _ := by
    ext jump
    constructor
    · rintro ⟨_, mem, enabled, rfl⟩
      obtain ⟨t, given, rfl⟩ := List.mem_map.mp mem
      exact ⟨t, given, enabled, by rw [Transition.successors_withIdentities]; rfl⟩
    · rintro ⟨t, given, enabled, rfl⟩
      refine ⟨_, List.mem_map_of_mem given, enabled, ?_⟩
      rw [Transition.successors_withIdentities]
      rfl

omit [Field K] [LinearOrder K] [FloorRing K] [Functions K] in
/-- A copy is made for a disjunct of the guard, and differs in nothing else. -/
theorem mem_flatMap_split {transitions : List (Transition (Extended K))}
    {t' : Transition (Extended K)} :
    t' ∈ transitions.flatMap Transition.split ↔
      ∃ t ∈ transitions, ∃ part ∈ t.guard.disjuncts, { t with guard := part } = t' := by
  simp only [List.mem_flatMap, Transition.split, List.mem_map]

theorem sameJumps_split (a : Automaton (Extended K)) :
    a.SameJumps { a with transitions := a.transitions.flatMap Transition.split } where
  decided x decided := by
    intro t' mem part inside
    obtain ⟨t, given, guard, disjunct, rfl⟩ := mem_flatMap_split.mp mem
    obtain rfl : part = guard :=
      List.mem_singleton.mp (Expr.chain_of_mem_chain disjunct ▸ inside)
    exact decided t given part disjunct
  jumps x decided := by
    ext jump
    constructor
    · rintro ⟨_, mem, enabled, rfl⟩
      obtain ⟨t, given, guard, disjunct, rfl⟩ := mem_flatMap_split.mp mem
      exact ⟨t, given, (Expr.holdsAt_iff_exists_disjunct (decided t given)).mpr
        ⟨guard, disjunct, enabled⟩, rfl⟩
    · rintro ⟨t, given, enabled, rfl⟩
      obtain ⟨guard, disjunct, holds⟩ :=
        (Expr.holdsAt_iff_exists_disjunct (decided t given)).mp enabled
      exact ⟨_, mem_flatMap_split.mpr ⟨t, given, guard, disjunct, rfl⟩, holds, rfl⟩

end Automaton

/-! ## Passes -/

theorem Text.words_empty : Text.words "" = [] := by
  rw [words, String.toList_empty, wordsOf]
  simp

namespace Pass

variable {α : Type}

/-- A pass without parameters makes its transformation. -/
theorem apply_plain (flag title : String)
    (transformation : Model α → Except (Failure α) (Model α)) (ctx : Context α) (m : Model α) :
    (plain flag title transformation).apply "" ctx m = transformation m := by
  have nothing : OptionGrammar.readAll { options := [OptionSpec.help] } [] = .ok {} := rfl
  have read : readOptions flag { options := [OptionSpec.help] }
      (fun _ => some fun (_ : Context α) m => transformation m) "" =
        .ok fun _ m => transformation m := by
    rw [readOptions, Text.words_empty, OptionGrammar.decode, nothing]
    rfl
  simp only [apply, plain, ofOptions, read]
  cases made : transformation m <;> simp [made, bind, Except.bind, pure, Except.pure]

theorem apply_identityResets (ctx : Context α) (m : Model α) (a : Automaton α) :
    identityResets.apply "" ctx (m.withAutomaton a) = .ok (m.withAutomaton
      { a with transitions := a.transitions.map (·.withIdentities a.vars.toList) }) := by
  rw [identityResets, apply_plain]
  rfl

theorem apply_splitDisjunctions (ctx : Context α) (m : Model α) (a : Automaton α) :
    splitDisjunctions.apply "" ctx (m.withAutomaton a) = .ok (m.withAutomaton
      { a with transitions := a.transitions.flatMap Transition.split }) := by
  rw [splitDisjunctions, apply_plain]
  rfl

/-- The passes that rewrite transitions and nothing else. -/
def ofTransitions : List (Pass α) := [identityResets, splitDisjunctions]

theorem identityResets_ne_splitDisjunctions :
    (identityResets : Pass α) ≠ splitDisjunctions := by
  intro same
  have flags := congrArg flag same
  simp [identityResets, splitDisjunctions, plain, ofOptions] at flags

end Pass

/-- Making new values explicit and splitting guards, in any order and any number of times, succeeds
on a flat model and replaces nothing but its transitions. The jumps stay the same. Once new values
were made explicit they remain so, and no guard is a disjunction if the guards were split last. -/
theorem Model.sameJumps_of_transition_passes {m : Model (Extended K)} {a : Automaton (Extended K)}
    (flat : m.automaton = .ok a) (ctx : Context (Extended K)) (passes : List (Pass (Extended K)))
    (allowed : ∀ p ∈ passes, p ∈ Pass.ofTransitions) :
    ∃ transitions, passes.foldlM (fun m p => p.apply "" ctx m) m =
        .ok (m.withAutomaton { a with transitions }) ∧
      a.SameJumps { a with transitions } ∧
      (.identityResets ∈ passes →
        ∀ t ∈ transitions, ∀ name ∈ a.vars.toList, t.reset.contains name = true) ∧
      (passes.getLast? = some .splitDisjunctions →
        ∀ t ∈ transitions, ∀ l r, t.guard ≠ .binary (.logic .or) l r) := by
  induction passes using List.reverseRecOn with
  | nil =>
      have same : m.withAutomaton a = m := by
        rw [withAutomaton, ← automaton_eq_ok_iff.mp flat]
      exact ⟨a.transitions, congrArg Except.ok same.symm, .refl a, by simp, by simp⟩
  | append_singleton passes last ih =>
      obtain ⟨before, final⟩ := List.forall_mem_append.mp allowed
      obtain ⟨transitions, made, jumps, explicit, _⟩ := ih before
      rw [List.foldlM_append, made]
      have final := List.forall_mem_singleton.mp final
      simp only [Pass.ofTransitions, List.mem_cons, List.not_mem_nil, or_false] at final
      obtain rfl | rfl := final
      · refine ⟨transitions.map (·.withIdentities a.vars.toList), ?_,
          jumps.trans (Automaton.sameJumps_withIdentities _), fun _ => ?_, fun split => ?_⟩
        · exact (bind_pure _).trans (Pass.apply_identityResets ctx m _)
        · exact List.forall_mem_map.mpr fun t _ name mem => Transition.contains_withIdentities mem
        · rw [List.getLast?_concat, Option.some.injEq] at split
          exact absurd split Pass.identityResets_ne_splitDisjunctions
      · refine ⟨transitions.flatMap Transition.split, ?_,
          jumps.trans (Automaton.sameJumps_split _), fun mem t' copy => ?_, fun _ t' copy => ?_⟩
        · exact (bind_pure _).trans (Pass.apply_splitDisjunctions ctx m _)
        · obtain ⟨t, given, part, _, rfl⟩ := Automaton.mem_flatMap_split.mp copy
          obtain earlier | here := List.mem_append.mp mem
          · exact explicit earlier t given
          · exact absurd (List.mem_singleton.mp here) Pass.identityResets_ne_splitDisjunctions
        · obtain ⟨t, _, part, disjunct, rfl⟩ := Automaton.mem_flatMap_split.mp copy
          exact Expr.ne_of_mem_chain disjunct

/-- A fan that starts in the heat, in the cold or by hand, at a speed that is not known exactly. -/
def fan : Automaton (Extended ℚ) where
  vars := .ofList ["temperature", "switch", "speed"]
  modes := .ofList [("off", { name := "off" }), ("on", { name := "on" })]
  transitions :=
    [{ source := "off"
       target := "on"
       guard := .binary (.logic .or) (.ge (.var "temperature") (.num 26))
         (.binary (.logic .or) (.lt (.var "temperature") (.num 5)) (.gt (.var "switch") (.num 0)))
       reset := .ofList [("speed", ⟨.num 1, some ⟨0, finite (1 / 2)⟩⟩)] },
     { source := "on"
       target := "off"
       guard := .le (.var "temperature") (.num 20)
       reset := .ofList [("speed", .exact (.num 0))] }]

def fanModel : Model (Extended ℚ) where
  root := .flat fan
  settings := .initial

def fanPasses : List (Pass (Extended ℚ)) := [.splitDisjunctions, .identityResets, .splitDisjunctions]

/-- The guards of the fan can always be decided. -/
theorem fan_decided (x : String → ℚ) : fan.Decided x := by
  intro t mem part inside
  simp only [fan, List.mem_cons, List.not_mem_nil, or_false] at mem
  obtain rfl | rfl := mem
  · simp only [Expr.disjuncts, Expr.chain, Expr.ge, Expr.lt, Expr.gt, if_true, List.cons_append,
      List.nil_append, List.mem_cons, List.not_mem_nil, or_false] at inside
    obtain rfl | rfl | rfl := inside <;> exact ⟨_, rfl⟩
  · obtain rfl := List.mem_singleton.mp inside
    exact ⟨_, rfl⟩

/-- The jumps of the fan, with its guards split twice and its new values made explicit between. -/
theorem fan_sameJumps : fanModel.automaton = .ok fan ∧ (∀ p ∈ fanPasses, p ∈ Pass.ofTransitions) ∧
    ∃ transitions, fanPasses.foldlM (fun m p => p.apply "" .standard m) fanModel =
        .ok (fanModel.withAutomaton { fan with transitions }) ∧
      (∀ x, ({ fan with transitions } : Automaton _).jumps x = fan.jumps x) ∧
      (∀ t ∈ transitions, ∀ name ∈ ["temperature", "switch", "speed"],
        t.reset.contains name = true) ∧
      ∀ t ∈ transitions, ∀ l r, t.guard ≠ .binary (.logic .or) l r := by
  have allowed : ∀ p ∈ fanPasses, p ∈ Pass.ofTransitions := by simp [fanPasses, Pass.ofTransitions]
  obtain ⟨transitions, made, jumps, explicit, whole⟩ :=
    Model.sameJumps_of_transition_passes (m := fanModel) rfl .standard fanPasses allowed
  exact ⟨rfl, allowed, transitions, made, fun x => jumps.jumps x (fan_decided x),
    explicit (by simp [fanPasses]), whole rfl⟩

end HybridAutomata
