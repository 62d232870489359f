import Mathlib.Order.Bounds.Defs
import HybridAutomata.Proofs.Automaton.Rules
import HybridAutomata.Proofs.Expr.Substitution
import HybridAutomata.Proofs.Success
import HybridAutomata.Transform.Cone

/-!
# Cones and what they keep

A cone grows by one variable that it reads and does not have, until there is none. What it ends with
is the least set of variables that has the wanted ones and those of guards and invariants and reads
none outside. Restricted to such a set, an automaton keeps its rules, and it cannot tell two
assignments apart that agree on the set and on the constants: guards and invariants hold under both
or neither, and the rates and new values that are left are the same.
-/

namespace HybridAutomata

variable {α : Type}

/-- Of the rates, those of a cone are left. -/
theorem Mode.flowOf?_filter (cone : List String) (m : Mode α) (name : String) :
    ({ m with flow := m.flow.map (·.filter fun name _ => cone.contains name) } : Mode α).flowOf?
      name = (m.flowOf? name).filter fun _ => cone.contains name := by
  obtain ⟨_, flow, _, _⟩ := m
  cases flow with
  | none => rfl
  | some flow => exact NameMap.find?_filter _ flow name

namespace Automaton

/-! ## Closed sets -/

/-- A rate or a new value of `name` mentions `other`. -/
def Reads (a : Automaton α) (name other : String) : Prop :=
  (∃ m ∈ a.modes.values, ∃ rate, m.flowOf? name = some rate ∧ other ∈ rate.expr.names) ∨
    ∃ t ∈ a.transitions, ∃ value, t.reset.find? name = some value ∧ other ∈ value.expr.names

/-- A set of variables that has those to keep and those that decide which mode the system is in, and
whatever variables are read by one of it. -/
structure IsCone (a : Automaton α) (keep : List String) (S : Set String) : Prop where
  vars : ∀ name ∈ S, name ∈ a.vars.toList
  keep : ∀ name ∈ keep, name ∈ S
  invariants : ∀ m ∈ a.modes.values, ∀ name ∈ m.invariant.names, name ∈ a.vars.toList → name ∈ S
  guards : ∀ t ∈ a.transitions, ∀ name ∈ t.guard.names, name ∈ a.vars.toList → name ∈ S
  reads : ∀ name ∈ S, ∀ other, a.Reads name other → other ∈ a.vars.toList → other ∈ S

variable {a : Automaton α} {cone keep : List String} {name other : String}

theorem mem_reads : other ∈ a.reads name ↔ a.Reads name other := by
  simp only [reads, Reads, List.mem_flatMap, List.mem_append, List.mem_filterMap, Expr.mem_vars]
  constructor
  · rintro ⟨value, ⟨m, mem, found⟩ | ⟨t, mem, found⟩, occurs⟩
    · exact .inl ⟨m, mem, value, found, occurs⟩
    · exact .inr ⟨t, mem, value, found, occurs⟩
  · rintro (⟨m, mem, value, found, occurs⟩ | ⟨t, mem, value, found, occurs⟩)
    · exact ⟨value, .inl ⟨m, mem, found⟩, occurs⟩
    · exact ⟨value, .inr ⟨t, mem, found⟩, occurs⟩

theorem mem_deciding : name ∈ a.deciding ↔
    (∃ m ∈ a.modes.values, name ∈ m.invariant.names) ∨
      ∃ t ∈ a.transitions, name ∈ t.guard.names := by
  simp [deciding, Expr.mem_vars]

theorem mem_outside : name ∈ a.outside cone ↔ name ∈ a.vars.toList ∧ name ∉ cone := by
  simp [outside]

/-! ## The least cone -/

/-- A name that is added to a cone is a variable that the cone reads. -/
theorem reads_of_escapes? (h : a.escapes? cone = some name) :
    name ∈ a.vars.toList ∧ ∃ reader ∈ cone, a.Reads reader name := by
  have var := (mem_outside.mp (mem_outside_of_escapes? h)).1
  obtain ⟨reader, mem, read⟩ : ∃ reader ∈ cone, name ∈ a.reads reader := by
    simpa using List.find?_some h
  exact ⟨var, reader, mem, mem_reads.mp read⟩

/-- If nothing is added to a cone, it reads no other variable. -/
theorem closed_of_escapes?_eq_none (h : a.escapes? cone = none) (mem : name ∈ cone)
    (read : a.Reads name other) (var : other ∈ a.vars.toList) : other ∈ cone := by
  by_contra absent
  have missed := List.find?_eq_none.mp h other (mem_outside.mpr ⟨var, absent⟩)
  have found : other ∈ cone.flatMap a.reads := List.mem_flatMap.mpr ⟨name, mem, mem_reads.mpr read⟩
  simp [found] at missed

theorem subset_closeCone (a : Automaton α) (cone : List String) : cone ⊆ a.closeCone cone := by
  fun_induction closeCone a cone with
  | case1 cone => exact List.Subset.refl cone
  | case2 cone name _ grown => exact List.Subset.trans (List.subset_cons_self name cone) grown

theorem escapes?_closeCone (a : Automaton α) (cone : List String) :
    a.escapes? (a.closeCone cone) = none := by
  fun_induction closeCone a cone with
  | case1 cone done => exact done
  | case2 cone name _ grown => exact grown

/-- What a cone grows to is in every set that has the cone and what it reads. -/
theorem mem_of_mem_closeCone {S : Set String}
    (reads : ∀ name ∈ S, ∀ other, a.Reads name other → other ∈ a.vars.toList → other ∈ S)
    (start : ∀ name ∈ cone, name ∈ S) (mem : name ∈ a.closeCone cone) : name ∈ S := by
  fun_induction closeCone a cone with
  | case1 cone => exact start name mem
  | case2 cone added found grown =>
      obtain ⟨var, reader, inCone, read⟩ := reads_of_escapes? found
      refine grown (List.forall_mem_cons.mpr ⟨?_, start⟩) mem
      exact reads reader (start reader inCone) added read var

theorem mem_start : name ∈ (keep ++ a.deciding).filter a.vars.contains ↔
    (name ∈ keep ∨ name ∈ a.deciding) ∧ name ∈ a.vars.toList := by
  rw [List.mem_filter, List.mem_append, NameSet.contains_iff]

/-- The cone of variables to keep is the least one. -/
theorem isLeast_cone (declared : ∀ name ∈ keep, name ∈ a.vars.toList) :
    IsLeast {S | a.IsCone keep S} {name | name ∈ a.cone keep} := by
  have start {name : String} (mem : name ∈ keep ∨ name ∈ a.deciding)
      (var : name ∈ a.vars.toList) : name ∈ a.cone keep :=
    subset_closeCone a _ (mem_start.mpr ⟨mem, var⟩)
  constructor
  · exact {
      vars := fun name mem => mem_of_mem_closeCone (S := {name | name ∈ a.vars.toList})
        (fun _ _ _ _ var => var) (fun _ mem => (mem_start.mp mem).2) mem
      keep := fun name mem => start (.inl mem) (declared name mem)
      invariants := fun m mem name occurs =>
        start (.inr (mem_deciding.mpr (.inl ⟨m, mem, occurs⟩)))
      guards := fun t mem name occurs =>
        start (.inr (mem_deciding.mpr (.inr ⟨t, mem, occurs⟩)))
      reads := fun name mem other =>
        closed_of_escapes?_eq_none (escapes?_closeCone a _) mem }
  · intro S cone name mem
    refine mem_of_mem_closeCone cone.reads (fun name mem => ?_) mem
    obtain ⟨kept | decides, var⟩ := mem_start.mp mem
    · exact cone.keep name kept
    · obtain ⟨m, mem, occurs⟩ | ⟨t, mem, occurs⟩ := mem_deciding.mp decides
      · exact cone.invariants m mem name occurs var
      · exact cone.guards t mem name occurs var

/-! ## Restriction -/

theorem mem_vars_restrictTo :
    name ∈ (a.restrictTo cone).vars.toList ↔ name ∈ a.vars.toList ∧ name ∈ cone := by
  simp [restrictTo]

theorem keys_restrictTo : (a.restrictTo cone).modes.keys = a.modes.keys := NameMap.keys_map _ _

/-- What is given to a name of the cone stays. -/
theorem filter_of_mem (inCone : name ∈ cone) (given : Option (Perturbed α)) :
    (given.filter fun _ => cone.contains name) = given := by
  cases given <;> simp [Option.filter, inCone]

/-- A formula is closed afterwards if it mentions no variable outside. -/
theorem closes_restrictTo {e : Expr α} (closed : a.Closes e)
    (inCone : ∀ name ∈ e.names, name ∈ a.vars.toList → name ∈ cone) :
    (a.restrictTo cone).Closes e := by
  intro name occurs
  obtain var | const := List.mem_append.mp (closed name occurs)
  · exact List.mem_append_left _ (mem_vars_restrictTo.mpr ⟨var, inCone name occurs var⟩)
  · exact List.mem_append_right _ const

/-- The formulas that are left mention no variable outside. -/
structure Covers (a : Automaton α) (cone : List String) : Prop where
  invariants : ∀ m ∈ a.modes.values, (a.restrictTo cone).Closes m.invariant
  rates : ∀ m ∈ a.modes.values, ∀ name ∈ cone, ∀ rate, m.flowOf? name = some rate →
    (a.restrictTo cone).Closes rate.expr
  guards : ∀ t ∈ a.transitions, (a.restrictTo cone).Closes t.guard
  values : ∀ t ∈ a.transitions, ∀ name ∈ cone, ∀ value, t.reset.find? name = some value →
    (a.restrictTo cone).Closes value.expr

theorem WellFormed.assigns {t : Transition α} {value : Perturbed α} (h : a.WellFormed)
    (mem : t ∈ a.transitions) (found : t.reset.find? name = some value) :
    a.Assigns (name, value) :=
  (h.transitions t mem).resets (name, value) (NameMap.find?_eq_some_iff.mp found)

theorem IsCone.covers (h : a.IsCone keep {name | name ∈ cone}) (kept : a.WellFormed) :
    a.Covers cone where
  invariants m mem := closes_restrictTo (kept.modes m mem).invariant (h.invariants m mem)
  rates := by
    intro m mem name inCone rate found
    have rates := (Scope.keepsMode_iff.mp (kept.modes m mem)).2
    exact closes_restrictTo (rates name rate found).value fun other occurs =>
      h.reads name inCone other (.inl ⟨m, mem, rate, found, occurs⟩)
  guards t mem := closes_restrictTo (kept.transitions t mem).guard (h.guards t mem)
  values := by
    intro t mem name inCone value found
    exact closes_restrictTo (kept.assigns mem found).value fun other occurs =>
      h.reads name inCone other (.inr ⟨t, mem, value, found, occurs⟩)

/-- Restricted to what covers it, an automaton keeps its rules. -/
theorem WellFormed.restrictTo (h : a.WellFormed) (covers : a.Covers cone) :
    (a.restrictTo cone).WellFormed where
  stored := List.forall_mem_map.mpr h.stored
  modes := by
    intro m' mem
    obtain ⟨_, mapped, rfl⟩ := List.mem_map.mp mem
    obtain ⟨entry, stored, rfl⟩ := List.mem_map.mp mapped
    have given : entry.2 ∈ a.modes.values := List.mem_map_of_mem stored
    refine Scope.keepsMode_iff.mpr ⟨covers.invariants entry.2 given, fun name rate found => ?_⟩
    obtain ⟨found, inCone⟩ := Option.filter_eq_some_iff.mp
      ((Mode.flowOf?_filter cone _ name).symm.trans found)
    rw [List.contains_iff_mem] at inCone
    have target := ((Scope.keepsMode_iff.mp (h.modes entry.2 given)).2 name rate found).target
    exact ⟨mem_vars_restrictTo.mpr ⟨target, inCone⟩,
      covers.rates entry.2 given name inCone rate found⟩
  transitions := by
    intro t' mem
    obtain ⟨t, given, rfl⟩ := List.mem_map.mp mem
    have kept := h.transitions t given
    have keys : (a.restrictTo cone).modes.keys = a.modes.keys := keys_restrictTo
    refine ⟨keys.symm ▸ kept.source, keys.symm ▸ kept.target, covers.guards t given,
      fun entry mem => ?_⟩
    obtain ⟨stored, inCone⟩ := List.mem_filter.mp mem
    rw [List.contains_iff_mem] at inCone
    exact ⟨mem_vars_restrictTo.mpr ⟨(kept.resets entry stored).target, inCone⟩,
      covers.values t given entry.1 inCone entry.2 (NameMap.find?_eq_some_iff.mpr stored)⟩

end Automaton

/-! ## Agreement -/

variable [Scalar α]

/-- The number that the formula stands for, with what is added to it. -/
def Perturbed.valueAt (env : String → Option α) (p : Perturbed α) :
    Except (EvalError α) α × Option (Interval α) :=
  (p.expr.eval env, p.noise)

section

variable (names : Set String) (env env' : String → Option α)

/-- What is seen of a mode under one assignment is what is seen of another mode under another: the
truth of the invariant, and the rates of some names. -/
structure Mode.AgreesOn (m m' : Mode α) : Prop where
  name : m'.name = m.name
  urgent : m'.urgent = m.urgent
  hasFlow : m'.hasFlow = m.hasFlow
  invariant : m'.invariant.holds env' = m.invariant.holds env
  rates : ∀ name ∈ names,
    (m'.flowOf? name).map (·.valueAt env') = (m.flowOf? name).map (·.valueAt env)

/-- The same of a transition: the truth of the guard, and the new values of some names. -/
structure Transition.AgreesOn (t t' : Transition α) : Prop where
  source : t'.source = t.source
  target : t'.target = t.target
  guard : t'.guard.holds env' = t.guard.holds env
  values : ∀ name ∈ names,
    (t'.reset.find? name).map (·.valueAt env') = (t.reset.find? name).map (·.valueAt env)

/-- The same of an automaton, mode by mode and transition by transition. -/
structure Automaton.AgreesOn (a a' : Automaton α) : Prop where
  keys : a'.modes.keys = a.modes.keys
  modes : ∀ key m m', a.mode? key = some m → a'.mode? key = some m' →
    m.AgreesOn names env env' m'
  transitions : List.Forall₂ (Transition.AgreesOn names env env') a.transitions a'.transitions

end

namespace Automaton

variable {a : Automaton α} {cone keep : List String} {env env' : String → Option α}

/-- An automaton does not tell apart two assignments that agree on what covers it and on the
constants. -/
theorem Covers.agreesOn_self (covers : a.Covers cone)
    (agree : ∀ name ∈ (a.restrictTo cone).declared, env name = env' name) :
    a.AgreesOn {name | name ∈ cone} env env' a where
  keys := rfl
  modes := by
    intro key m m' found found'
    obtain rfl := Option.some.inj (found.symm.trans found')
    have given : m ∈ a.modes.values := List.mem_map_of_mem (NameMap.find?_eq_some_iff.mp found)
    refine ⟨rfl, rfl, rfl, ?_, fun name inCone => Option.map_congr fun rate found => ?_⟩
    · refine Expr.holds_congr _ fun name occurs => (agree name ?_).symm
      exact covers.invariants m given name occurs
    · refine congrArg (·, rate.noise) (Expr.eval_congr _ fun other occurs => (agree other ?_).symm)
      exact covers.rates m given name inCone rate found other occurs
  transitions := by
    refine List.forall₂_same.mpr fun t given => ?_
    refine ⟨rfl, rfl, ?_, fun name inCone => Option.map_congr fun value found => ?_⟩
    · refine Expr.holds_congr _ fun name occurs => (agree name ?_).symm
      exact covers.guards t given name occurs
    · refine congrArg (·, value.noise) (Expr.eval_congr _ fun other occurs => (agree other ?_).symm)
      exact covers.values t given name inCone value found other occurs

/-- Under one assignment, what is left of an automaton is what it was. -/
theorem agreesOn_restrictTo (a : Automaton α) (cone : List String) (env : String → Option α) :
    a.AgreesOn {name | name ∈ cone} env env (a.restrictTo cone) where
  keys := keys_restrictTo
  modes := by
    intro key m m' found found'
    rw [mode?, restrictTo, NameMap.find?_map, ← mode?, found] at found'
    obtain rfl := Option.some.inj found'
    refine ⟨rfl, rfl, Option.isSome_map, rfl, fun name inCone => ?_⟩
    rw [Mode.flowOf?_filter, filter_of_mem inCone]
  transitions := by
    refine List.forall₂_map_right_iff.mpr (List.forall₂_same.mpr fun t _ => ?_)
    refine ⟨rfl, rfl, rfl, fun name inCone => ?_⟩
    rw [NameMap.find?_filter, filter_of_mem inCone]

/-- Agreement is passed on. -/
theorem AgreesOn.trans {names : Set String} {a a' a'' : Automaton α}
    {env'' : String → Option α} (h : a.AgreesOn names env env' a')
    (h' : a'.AgreesOn names env' env'' a'') : a.AgreesOn names env env'' a'' where
  keys := h'.keys.trans h.keys
  modes := by
    intro key m m'' found found''
    obtain ⟨m', found'⟩ : ∃ m', a'.mode? key = some m' := by
      rw [mode?, ← NameMap.mem_keys_iff, h.keys]
      exact NameMap.mem_keys_iff.mpr ⟨m, found⟩
    have first := h.modes key m m' found found'
    have second := h'.modes key m' m'' found' found''
    exact {
      name := second.name.trans first.name
      urgent := second.urgent.trans first.urgent
      hasFlow := second.hasFlow.trans first.hasFlow
      invariant := second.invariant.trans first.invariant
      rates := fun name mem => (second.rates name mem).trans (first.rates name mem) }
  transitions := by
    refine (Success.forall₂_comp h.transitions h'.transitions).imp ?_
    rintro t t'' ⟨t', first, second⟩
    exact {
      source := second.source.trans first.source
      target := second.target.trans first.target
      guard := second.guard.trans first.guard
      values := fun name mem => (second.values name mem).trans (first.values name mem) }

end Automaton

end HybridAutomata
