import HybridAutomata.Proofs.Automaton.Formulas
import HybridAutomata.Proofs.Exact.Fields
import HybridAutomata.Proofs.Expr.Substitution
import HybridAutomata.Proofs.Model.Rules
import HybridAutomata.Transform.Constants

/-!
# Constants and scopes

A constant that is known exactly may be replaced by its number, and in a network the question is
which declaration a name belongs to. Inside a flat automaton the answer is the automaton's own, as
its formulas mention names that it declares. Substitution follows that rule for variables and for
constants known exactly. It does not for a constant known up to an interval: where a network around
gives the name a number, that number takes the place of the constant.

The main statement says for every flat automaton of a tree which names are replaced, and that a
formula in which no constant is captured keeps its value.
-/

namespace HybridAutomata

open Success

variable {α : Type}

/-! ## Automata and what is around them -/

/-- A flat automaton of a tree, and the declarations of the networks around it, the nearest
first. -/
structure ScopedLeaf (α : Type) where
  around : List (Scope α)
  automaton : Automaton α

namespace Component

mutual

/-- The flat automata of a tree that is inside of the networks `around`. -/
def leaves (around : List (Scope α)) : Component α → List (ScopedLeaf α)
  | flat automaton => [⟨around, automaton⟩]
  | network scope children => childLeaves (scope :: around) children

@[inherit_doc leaves]
def childLeaves (around : List (Scope α)) {taken : List String} :
    Children α taken → List (ScopedLeaf α)
  | .none => []
  | .more _ _ _ child rest => leaves around child ++ childLeaves around rest

end

mutual

theorem map_automaton_leaves (around : List (Scope α)) : ∀ c : Component α,
    (c.leaves around).map ScopedLeaf.automaton = c.automata
  | .flat _ => rfl
  | .network scope children => map_automaton_childLeaves (scope :: around) children

theorem map_automaton_childLeaves (around : List (Scope α)) :
    ∀ {taken : List String} (children : Children α taken),
      (childLeaves around children).map ScopedLeaf.automaton = childAutomata children
  | _, .none => rfl
  | _, .more _ _ _ child rest => by
      rw [childLeaves, List.map_append, map_automaton_leaves around child,
        map_automaton_childLeaves around rest, childAutomata]

end

end Component

variable [Scalar α]

/-! ## Values of constants -/

omit [Scalar α] in
/-- The names that are given no number stay. -/
theorem Expr.mem_names_substituteValues {values : NameMap α} {e : Expr α} {name : String} :
    name ∈ (e.substituteValues values).names ↔ name ∈ e.names ∧ values.find? name = none := by
  have replaced (x : String) : name ∈ (((values.find? x).map Expr.num).getD (.var x)).names ↔
      values.find? x = none ∧ name = x := by
    cases values.find? x <;> simp [Expr.names]
  rw [Expr.substituteValues, Expr.mem_names_substituteWith]
  simp only [replaced]
  constructor
  · rintro ⟨_, occurs, unknown, rfl⟩
    exact ⟨occurs, unknown⟩
  · rintro ⟨occurs, unknown⟩
    exact ⟨name, occurs, unknown, rfl⟩

namespace Scope

/-- The number of a constant that is known exactly. -/
def pointValue? (s : Scope α) (name : String) : Option α :=
  ((s.constants.find? name).filter Interval.isPoint).map Interval.min

/-- The number that the networks around give to a name, the nearest first. A network in which the
name is a variable hides what is around it. -/
def inherited? : List (Scope α) → String → Option α
  | [], _ => none
  | s :: around, name =>
      (s.pointValue? name).or (if s.vars.contains name then none else inherited? around name)

/-- The assignment with the constants that are known exactly at their numbers. -/
def atPoints (s : Scope α) (env : String → Option α) (name : String) : Option α :=
  (s.pointValue? name).or (env name)

theorem find?_pointConstants (s : Scope α) (name : String) :
    s.pointConstants.find? name = s.pointValue? name := by
  rw [pointConstants, NameMap.find?_map, NameMap.find?_filter, pointValue?]

theorem find?_knownValues (s : Scope α) (inherited : NameMap α) (name : String) :
    (s.knownValues inherited).find? name = (s.pointValue? name).or (inherited.find? name) := by
  rw [knownValues, NameMap.find?_insertAll, find?_pointConstants]

omit [Scalar α] in
theorem find?_visibleValues (s : Scope α) (known : NameMap α) (name : String) :
    (s.visibleValues known).find? name =
      if s.vars.contains name then none else known.find? name := by
  rw [visibleValues, NameMap.find?_filter]
  cases known.find? name <;> cases s.vars.contains name <;> rfl

end Scope

namespace ScopedLeaf

/-- The names that stand for a number in the automaton, with it: its own constants that are known
exactly, and what the networks around give to names that are no variables of it. -/
def number? (l : ScopedLeaf α) (name : String) : Option α :=
  (l.automaton.pointValue? name).or
    (if l.automaton.vars.contains name then none else Scope.inherited? l.around name)

/-- A constant of the automaton is known up to an interval, and a network around gives a number to
its name. -/
def Captures (l : ScopedLeaf α) (name : String) : Prop :=
  name ∈ l.automaton.constants.keys ∧ l.automaton.pointValue? name = none ∧
    (Scope.inherited? l.around name).isSome = true

/-- What substitution makes of a formula of the automaton. -/
structure Resolves (l : ScopedLeaf α) (e e' : Expr α) : Prop where
  /-- Variables stay, and so do the constants that are not known exactly, unless they are
  captured. -/
  names : ∀ name, name ∈ e'.names ↔ name ∈ e.names ∧ (name ∈ l.automaton.vars.toList ∨
    (name ∈ l.automaton.constants.keys ∧ l.automaton.pointValue? name = none ∧ ¬l.Captures name))
  /-- The formula stands for what it stood for when every constant known exactly has its number, if
  it mentions no captured constant. -/
  meaning : (∀ name ∈ e.names, ¬l.Captures name) → ∀ env,
    (∀ x, e'.eval env = .ok x ↔ e.eval (l.automaton.atPoints env) = .ok x) ∧
      ∀ b, e'.holds env = .ok b ↔ e.holds (l.automaton.atPoints env) = .ok b

/-- The automaton `a` comes from the one at the leaf: formulas are resolved, and the constants known
exactly are dropped. -/
def Becomes (l : ScopedLeaf α) (a : Automaton α) : Prop :=
  ∃ f : Expr α → Expr α,
    a = { l.automaton.mapExprs f with
      constants := l.automaton.constants.filter fun _ value => !value.isPoint } ∧
    ∀ e ∈ l.automaton.formulas, l.Resolves e (f e)

variable {l : ScopedLeaf α} {name : String}

/-- A variable stands for no number. -/
theorem number?_of_mem_vars (disjoint : ∀ name ∈ l.automaton.constants.keys,
    name ∉ l.automaton.vars.toList) (h : name ∈ l.automaton.vars.toList) :
    l.number? name = none := by
  have noConstant : l.automaton.constants.find? name = none :=
    NameMap.find?_eq_none_iff.mpr fun mem => disjoint name mem h
  simp [number?, Scope.pointValue?, noConstant, NameSet.contains_iff.mpr h]

/-- A constant stands for a number if it is known exactly or captured. -/
theorem number?_of_mem_constants (disjoint : ∀ name ∈ l.automaton.constants.keys,
    name ∉ l.automaton.vars.toList) (h : name ∈ l.automaton.constants.keys) :
    l.number? name = (l.automaton.pointValue? name).or (Scope.inherited? l.around name) := by
  have noVariable : l.automaton.vars.contains name = false := by
    rw [← Bool.not_eq_true, NameSet.contains_iff]
    exact disjoint name h
  simp [number?, noVariable]

theorem number?_eq_none_iff (disjoint : ∀ name ∈ l.automaton.constants.keys,
    name ∉ l.automaton.vars.toList) (declared : name ∈ l.automaton.declared) :
    l.number? name = none ↔ name ∈ l.automaton.vars.toList ∨
      (name ∈ l.automaton.constants.keys ∧ l.automaton.pointValue? name = none ∧
        ¬l.Captures name) := by
  obtain var | const := List.mem_append.mp declared
  · exact iff_of_true (number?_of_mem_vars disjoint var) (.inl var)
  · rw [number?_of_mem_constants disjoint const, Option.or_eq_none_iff]
    constructor
    · rintro ⟨unknown, free⟩
      refine .inr ⟨const, unknown, ?_⟩
      rintro ⟨_, _, given⟩
      rw [free] at given
      cases given
    · rintro (var | ⟨_, unknown, free⟩)
      · exact absurd var (disjoint name const)
      · refine ⟨unknown, ?_⟩
        by_contra given
        exact free ⟨const, unknown, Option.isSome_iff_ne_none.mpr given⟩

/-- Without captured constants, the names that stand for a number are the constants known
exactly. -/
theorem number?_eq_pointValue? (disjoint : ∀ name ∈ l.automaton.constants.keys,
    name ∉ l.automaton.vars.toList) (declared : name ∈ l.automaton.declared)
    (free : ¬l.Captures name) : l.number? name = l.automaton.pointValue? name := by
  cases known : l.automaton.pointValue? name with
  | some value => simp [number?, known]
  | none =>
      refine (number?_eq_none_iff disjoint declared).mpr ?_
      obtain var | const := List.mem_append.mp declared
      · exact .inl var
      · exact .inr ⟨const, known, free⟩

/-- Numbers put in place of the names that stand for them resolve a formula. -/
theorem resolves_substituteValues (sound : l.automaton.Sound) {e : Expr α}
    (mem : e ∈ l.automaton.formulas) {values : NameMap α}
    (known : ∀ name, values.find? name = l.number? name) :
    l.Resolves e (e.substituteValues values) where
  names := by
    intro name
    rw [Expr.mem_names_substituteValues, known name]
    exact and_congr_right fun occurs =>
      number?_eq_none_iff sound.disjoint (sound.closes mem name occurs)
  meaning := by
    intro free env
    have same (name : String) (occurs : name ∈ e.names) :
        Expr.valuesOf (fun name => (values.find? name).map Expr.num) env name =
          l.automaton.atPoints env name := by
      rw [Expr.valuesOf, known name, Scope.atPoints, number?_eq_pointValue? sound.disjoint
        (sound.closes mem name occurs) (free name occurs)]
      cases l.automaton.pointValue? name <;> rfl
    have numeric (name : String) (replacement : Expr α)
        (h : (values.find? name).map Expr.num = some replacement) :
        replacement.isCondition = false := by
      obtain ⟨_, _, rfl⟩ := Option.map_eq_some_iff.mp h
      rfl
    refine ⟨fun x => ?_, fun b => ?_⟩
    · rw [Expr.substituteValues, Expr.eval_substituteWith, Expr.eval_congr e same]
    · rw [Expr.substituteValues, Expr.holds_substituteWith env numeric, Expr.holds_congr e same]

end ScopedLeaf

/-! ## Whole trees -/

namespace Component

mutual

/-- Inside of the networks `around`, with what they give to the names of a tree, substitution makes
of each flat automaton what it is to become. -/
theorem becomes_substituteConstants {around : List (Scope α)} {inherited : NameMap α} :
    ∀ {c : Component α}, (∀ a ∈ c.automata, a.Sound) →
      (∀ name, inherited.find? name =
        if c.scope.vars.contains name then none else Scope.inherited? around name) →
      List.Forall₂ ScopedLeaf.Becomes (c.leaves around) (c.substituteConstants inherited).automata
  | .flat a, sound, given => by
      have known (name : String) :
          (a.knownValues inherited).find? name = (ScopedLeaf.mk around a).number? name := by
        rw [Scope.find?_knownValues, given name]
        rfl
      refine .cons ⟨(·.substituteValues (a.knownValues inherited)), rfl, fun e mem => ?_⟩ .nil
      exact ScopedLeaf.resolves_substituteValues (sound a (List.mem_singleton_self a)) mem known
  | .network scope children, sound, given =>
      becomes_substituteInChildren sound fun name => by
        rw [Scope.find?_knownValues, given name]
        rfl

theorem becomes_substituteInChildren {around : List (Scope α)} {known : NameMap α} :
    ∀ {taken : List String} {children : Children α taken},
      (∀ a ∈ childAutomata children, a.Sound) →
      (∀ name, known.find? name = Scope.inherited? around name) →
      List.Forall₂ ScopedLeaf.Becomes (childLeaves around children)
        (childAutomata (substituteInChildren known children))
  | _, .none, _, _ => .nil
  | _, .more name _ links child rest, sound, given => by
      obtain ⟨first, others⟩ := List.forall_mem_append.mp sound
      refine List.rel_append (becomes_substituteConstants first fun name => ?_)
        (becomes_substituteInChildren others given)
      rw [Scope.find?_visibleValues, given name]

end

end Component

/-- In every flat automaton of a valid model, substitution replaces the constants that are known
exactly and those that are captured, and nothing else, and where none is captured a formula keeps
what it stands for. -/
theorem Model.substituteConstants_resolves {m : Model α} (valid : m.Valid) :
    List.Forall₂ ScopedLeaf.Becomes (m.root.leaves []) m.substituteConstants.root.automata := by
  refine Component.becomes_substituteConstants (valid_iff.mp valid).root.automata fun name => ?_
  rw [Scope.inherited?, ite_self]
  rfl

/-! ## Gains -/

/-- A plant with a gain that is known up to an interval, and an offset that is known exactly. -/
def gainPlant : Automaton (Extended ℚ) where
  vars := .ofList ["x"]
  constants := .ofList [("gain", ⟨0, 1⟩), ("offset", ⟨5, 5⟩)]
  modes := .ofList [("run", {
    name := "run"
    flow := some (.ofList [("x", .exact (.add (.var "gain") (.var "offset")))]) })]

/-- A network in which the gain is two. -/
def amplified (child : Component (Extended ℚ)) : Model (Extended ℚ) where
  root := Component.addChild (.network { constants := .ofList [("gain", ⟨2, 2⟩)] } .none)
    "stage" [] child
  settings := .initial

/-- The plant in a network in which the gain is a variable, inside of that network. -/
def shieldedGain : Model (Extended ℚ) :=
  amplified (Component.addChild (.network { vars := .ofList ["gain"] } .none) "plant" []
    (.flat gainPlant))

/-- The variable hides the number, so the plant keeps its gain and loses its offset only. -/
theorem shieldedGain_resolves : shieldedGain.Valid ∧
    List.Forall₂ ScopedLeaf.Becomes (shieldedGain.root.leaves [])
      shieldedGain.substituteConstants.root.automata ∧
    ∀ l ∈ shieldedGain.root.leaves [], ∀ name, ¬l.Captures name := by
  have valid : shieldedGain.Valid := by
    rw [Model.Valid]
    decide +kernel
  refine ⟨valid, Model.substituteConstants_resolves valid, ?_⟩
  have free : ∀ l ∈ shieldedGain.root.leaves [], ∀ name ∈ l.automaton.constants.keys,
      l.automaton.pointValue? name = none → Scope.inherited? l.around name = none := by
    decide +kernel
  rintro l mem name ⟨const, unknown, given⟩
  rw [free l mem name const unknown] at given
  cases given

/-- The plant directly in the network. -/
def capturedGain : Model (Extended ℚ) := amplified (.flat gainPlant)

/-- The number of the network takes the place of the gain of the plant: with the gain at zero, the
rate was five, and is seven afterwards. -/
theorem capturedGain_changes : capturedGain.Valid ∧ ∃ a a' e e',
    capturedGain.root.automata = [a] ∧ capturedGain.substituteConstants.root.automata = [a'] ∧
      ((a.mode? "run").bind (·.flowOf? "x")).map Perturbed.expr = some e ∧
      ((a'.mode? "run").bind (·.flowOf? "x")).map Perturbed.expr = some e' ∧
      (∃ x, e.eval (a.atPoints fun _ => some 0) = .ok x ∧ (x == 5) = true) ∧
      ∃ x, e'.eval (fun _ => some 0) = .ok x ∧ (x == 7) = true := by
  have valid : capturedGain.Valid := by
    rw [Model.Valid]
    decide +kernel
  refine ⟨valid, _, _, _, _, rfl, rfl, rfl, rfl, ?_, ?_⟩
  · exact Success.exists_ok_of_any (by decide +kernel)
  · exact Success.exists_ok_of_any (by decide +kernel)

end HybridAutomata
