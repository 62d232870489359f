import HybridAutomata.Continuization.TimeTriggered
import HybridAutomata.Proofs.Continuization.Integrity
import HybridAutomata.Proofs.Continuization.SamplingLoop
import HybridAutomata.Proofs.Expr.DerivativeNames

/-!
# Removing sampling loops

Without its loops, an automaton lets the sampled variable follow the laws, and has no condition on
the clock, no rate for it and no new value. The clock may still be declared, for rates and new
values of other variables may mention it. The automaton keeps the rules that it kept before: the
rate at which a law changes mentions names of the law and of the flow, and a variable that is
dropped is mentioned by nothing.
-/

namespace HybridAutomata

open Success

variable {α : Type}

/-! ## Dropping a variable -/

namespace Automaton

/-- What is referenced is mentioned by a mode or a transition, or changed by one. -/
theorem mem_referenced {a : Automaton α} {name : String} : name ∈ a.referenced.toList ↔
    (∃ m ∈ a.modes.values, name ∈ m.invariant.names ∨
      ∃ entry ∈ m.flows, name = entry.1 ∨ name ∈ entry.2.expr.names) ∨
    ∃ t ∈ a.transitions, name ∈ t.guard.names ∨
      ∃ entry ∈ t.reset.entries, name = entry.1 ∨ name ∈ entry.2.expr.names := by
  simp [referenced, NameSet.mem_ofList, assignmentNames, Expr.mem_vars]

variable {a : Automaton α} {name : String}

@[simp] theorem dropUnused_modes : (a.dropUnused name).modes = a.modes := by
  rw [dropUnused]
  split <;> rfl

@[simp] theorem dropUnused_transitions : (a.dropUnused name).transitions = a.transitions := by
  rw [dropUnused]
  split <;> rfl

@[simp] theorem dropUnused_constants : (a.dropUnused name).constants = a.constants := by
  rw [dropUnused]
  split <;> rfl

@[simp] theorem dropUnused_path : (a.dropUnused name).path = a.path := by
  rw [dropUnused]
  split <;> rfl

theorem vars_dropUnused_subset : (a.dropUnused name).vars.toList ⊆ a.vars.toList := by
  intro other mem
  rw [dropUnused] at mem
  split at mem
  · exact mem
  · exact (NameSet.mem_erase.mp mem).1

/-- Other variables stay, and so does one that is referenced. -/
theorem mem_vars_dropUnused {other : String} (mem : other ∈ a.vars.toList)
    (stays : other ≠ name ∨ other ∈ a.referenced.toList) :
    other ∈ (a.dropUnused name).vars.toList := by
  rw [dropUnused]
  split
  · exact mem
  · next unused =>
      rw [NameSet.contains_iff] at unused
      refine NameSet.mem_erase.mpr ⟨mem, ?_⟩
      rintro rfl
      exact stays.elim (fun ne => ne rfl) unused

theorem mem_declared_dropUnused {other : String} (mem : other ∈ a.declared)
    (stays : other ≠ name ∨ other ∈ a.referenced.toList) :
    other ∈ (a.dropUnused name).declared := by
  rw [Scope.declared, List.mem_append] at mem ⊢
  rw [dropUnused_constants]
  exact mem.imp_left (mem_vars_dropUnused · stays)

/-- Dropping a variable that nothing references keeps the rules for modes and transitions. -/
theorem WellFormed.dropUnused (h : a.WellFormed) : (a.dropUnused name).WellFormed where
  stored := dropUnused_modes (a := a) ▸ h.stored
  modes := by
    intro m mem
    rw [dropUnused_modes] at mem
    obtain ⟨invariant, flows⟩ := h.modes m mem
    have mentioned {other : String} (by_mode : other ∈ m.invariant.names ∨
        ∃ entry ∈ m.flows, other = entry.1 ∨ other ∈ entry.2.expr.names) :
        other ∈ a.referenced.toList :=
      mem_referenced.mpr (.inl ⟨m, mem, by_mode⟩)
    refine ⟨fun other occurs => ?_, fun entry given => ⟨?_, fun other occurs => ?_⟩⟩
    · exact mem_declared_dropUnused (invariant other occurs) (.inr (mentioned (.inl occurs)))
    · exact mem_vars_dropUnused (flows entry given).target
        (.inr (mentioned (.inr ⟨entry, given, .inl rfl⟩)))
    · exact mem_declared_dropUnused ((flows entry given).value other occurs)
        (.inr (mentioned (.inr ⟨entry, given, .inr occurs⟩)))
  transitions := by
    intro t mem
    rw [dropUnused_transitions] at mem
    obtain ⟨source, target, guard, resets⟩ := h.transitions t mem
    have mentioned {other : String} (by_transition : other ∈ t.guard.names ∨
        ∃ entry ∈ t.reset.entries, other = entry.1 ∨ other ∈ entry.2.expr.names) :
        other ∈ a.referenced.toList :=
      mem_referenced.mpr (.inr ⟨t, mem, by_transition⟩)
    refine ⟨dropUnused_modes (a := a) ▸ source, dropUnused_modes (a := a) ▸ target,
      fun other occurs => ?_, fun entry given => ⟨?_, fun other occurs => ?_⟩⟩
    · exact mem_declared_dropUnused (guard other occurs) (.inr (mentioned (.inl occurs)))
    · exact mem_vars_dropUnused (resets entry given).target
        (.inr (mentioned (.inr ⟨entry, given, .inl rfl⟩)))
    · exact mem_declared_dropUnused ((resets entry given).value other occurs)
        (.inr (mentioned (.inr ⟨entry, given, .inr occurs⟩)))

theorem mode?_modifyMode (f : Mode α → Mode α) (key : String) :
    (a.modifyMode key f).mode? name =
      (a.mode? name).map fun m => if name = key then f m else m :=
  NameMap.find?_mapWithKey _ _ _

end Automaton

/-! ## Stripping the clock -/

/-- The mode has no condition on a variable and no rate for it. -/
structure Mode.FreeOf (m : Mode α) (name : String) : Prop where
  invariant : name ∉ m.invariant.names
  rate : m.flowOf? name = none

/-- The transition has no condition on a variable and no new value for it. -/
structure Transition.FreeOf (t : Transition α) (name : String) : Prop where
  guard : name ∉ t.guard.names
  value : name ∉ t.reset.keys

section

variable {clock : String}

theorem Scope.Closes.withoutConjunctsMentioning {s : Scope α} {e : Expr α} (h : s.Closes e) :
    s.Closes (e.withoutConjunctsMentioning clock) :=
  fun name mem => h name (Expr.mem_names_of_withoutConjunctsMentioning mem).1

variable {m : Mode α}

theorem Mode.flowOf?_withoutClock (y : String) :
    (m.withoutClock clock).flowOf? y = if y = clock then none else m.flowOf? y := by
  obtain ⟨_, flow, _, _⟩ := m
  cases flow with
  | none => simp [withoutClock, flowOf?]
  | some flow => exact NameMap.find?_erase flow clock y

theorem Scope.KeepsMode.withoutClock {s : Scope α} (h : s.KeepsMode m) :
    s.KeepsMode (m.withoutClock clock) := by
  obtain ⟨invariant, rates⟩ := Scope.keepsMode_iff.mp h
  refine Scope.keepsMode_iff.mpr ⟨invariant.withoutConjunctsMentioning, ?_⟩
  intro y rate found
  rw [Mode.flowOf?_withoutClock] at found
  split at found
  · cases found
  · exact rates y rate found

theorem Automaton.KeepsTransition.withoutClock {a : Automaton α} {t : Transition α}
    (h : a.KeepsTransition t) :
    a.KeepsTransition (t.withoutClock clock) where
  source := h.source
  target := h.target
  guard := h.guard.withoutConjunctsMentioning
  resets entry mem := h.resets entry (List.mem_filter.mp mem).1

end

/-! ## Following the laws -/

variable [Scalar α]

namespace Mode

/-- The rates of a mode, without their uncertainty. -/
def rates (m : Mode α) : List (String × Expr α) :=
  m.flows.map fun entry => (entry.1, entry.2.expr)

/-- The sampled variable follows the law, if there is one, and all else stays. -/
def Follows (sampled : String) (m m' : Mode α) : Option (Expr α) → Prop
  | none => m' = m
  | some law => ∃ rate, law.lieDerivative m.rates = .ok rate ∧
      m' = m.setFlow sampled (.exact rate)

variable {sampled : String} {m m' : Mode α} {law? : Option (Expr α)}

theorem follows_of_followLaw {law : Expr α} (h : m.followLaw sampled law = .ok m') :
    Follows sampled m m' (some law) := by
  simp only [followLaw, bind_eq_ok_iff, pure_eq_ok_iff] at h
  obtain ⟨rate, success, rfl⟩ := h
  exact ⟨rate, success, rfl⟩

theorem Follows.flowOf?_of_ne (h : Follows sampled m m' law?) {y : String} (ne : y ≠ sampled) :
    m'.flowOf? y = m.flowOf? y := by
  cases law? with
  | none => rw [show m' = m from h]
  | some law =>
      obtain ⟨rate, _, rfl⟩ := h
      rw [flowOf?_setFlow, if_neg ne]

theorem Follows.rest (h : Follows sampled m m' law?) :
    m'.name = m.name ∧ m'.invariant = m.invariant ∧ m'.urgent = m.urgent := by
  cases law? with
  | none => rw [show m' = m from h]; exact ⟨rfl, rfl, rfl⟩
  | some law =>
      obtain ⟨rate, _, rfl⟩ := h
      exact ⟨rfl, rfl, rfl⟩

theorem Follows.keepsMode {s : Scope α} (h : Follows sampled m m' law?) (kept : s.KeepsMode m)
    (closed : ∀ law, law? = some law → s.Closes law ∧ sampled ∈ s.vars.toList) :
    s.KeepsMode m' := by
  cases law? with
  | none => exact (show m' = m from h) ▸ kept
  | some law =>
      obtain ⟨rate, success, rfl⟩ := h
      obtain ⟨law, isVar⟩ := closed law rfl
      obtain ⟨invariant, rates⟩ := Scope.keepsMode_iff.mp kept
      refine Scope.keepsMode_iff.mpr ⟨invariant, fun y given found => ?_⟩
      rw [flowOf?_setFlow] at found
      split at found
      · next same =>
          cases found
          refine ⟨same ▸ isVar, Expr.names_lieDerivative law ?_ success⟩
          intro entry mem
          obtain ⟨original, given, rfl⟩ := List.mem_map.mp mem
          exact (kept.flows original given).value
      · exact rates y given found

end Mode

namespace Sampling

/-- A law is followed in its mode, before the laws of other modes are. -/
theorem followLaws_cons {clock sampled key : String} {period : α} {law : Expr α}
    {rest : List (String × Expr α)} {nodup : (((key, law) :: rest).map Prod.fst).Nodup}
    {a a' : Automaton α}
    (h : (Sampling.mk clock sampled period ⟨(key, law) :: rest, nodup⟩).followLaws a = .ok a') :
    ∃ next, (∀ name m', next.mode? name = some m' → ∃ m, a.mode? name = some m ∧
        m.Follows sampled m' (if name = key then some law else none)) ∧
      (∃ modes, next = { a with modes } ∧ modes.keys = a.modes.keys) ∧
      (Sampling.mk clock sampled period ⟨rest, (List.nodup_cons.mp nodup).2⟩).followLaws next =
        .ok a' := by
  rw [followLaws, List.foldlM_cons, bind_eq_ok_iff] at h
  obtain ⟨next, step, rest⟩ := h
  dsimp only at step
  refine ⟨next, ?_, ?_, rest⟩
  · intro name m' found
    split at step
    · next mode stored =>
        simp only [bind_eq_ok_iff, pure_eq_ok_iff] at step
        obtain ⟨mode', followed, rfl⟩ := step
        rw [Automaton.mode?_modifyMode, Option.map_eq_some_iff] at found
        obtain ⟨m, found, rfl⟩ := found
        refine ⟨m, found, ?_⟩
        by_cases same : name = key
        · subst same
          obtain rfl := Option.some.inj (found.symm.trans stored)
          rw [if_pos rfl, if_pos rfl]
          exact Mode.follows_of_followLaw followed
        · rw [if_neg same, if_neg same]
          rfl
    · next absent =>
        cases step
        refine ⟨m', found, ?_⟩
        have ne : name ≠ key := by
          rintro rfl
          rw [found] at absent
          cases absent
        rw [if_neg ne]
        rfl
  · split at step
    · simp only [bind_eq_ok_iff, pure_eq_ok_iff] at step
      obtain ⟨mode', _, rfl⟩ := step
      exact ⟨_, rfl, NameMap.keys_mapWithKey _ _⟩
    · cases step
      exact ⟨_, rfl, rfl⟩

/-- Every mode with a law lets the sampled variable follow it, and nothing else changes. -/
theorem followLaws_eq_ok {s : Sampling α} {a a' : Automaton α} (h : s.followLaws a = .ok a') :
    (∀ name m', a'.mode? name = some m' → ∃ m, a.mode? name = some m ∧
        m.Follows s.sampled m' (s.laws.find? name)) ∧
      ∃ modes, a' = { a with modes } ∧ modes.keys = a.modes.keys := by
  obtain ⟨clock, sampled, period, ⟨entries, nodup⟩⟩ := s
  induction entries generalizing a with
  | nil =>
      cases h
      exact ⟨fun name m' found => ⟨m', found, rfl⟩, _, rfl, rfl⟩
  | cons entry rest ih =>
      obtain ⟨key, law⟩ := entry
      obtain ⟨next, first, ⟨modes, rfl, keys⟩, others⟩ := followLaws_cons h
      obtain ⟨follows, modes', rfl, keys'⟩ := ih _ others
      refine ⟨fun name m' found => ?_, modes', rfl, keys'.trans keys⟩
      obtain ⟨m₁, found₁, follows₁⟩ := follows name m' found
      obtain ⟨m, found, follows₀⟩ := first name m₁ found₁
      refine ⟨m, found, ?_⟩
      change Mode.Follows sampled m m' (((key, law) :: rest).lookup name)
      rw [List.lookup_cons]
      by_cases same : name = key
      · -- The laws of other modes are not for this one.
        have absent : name ∉ rest.map Prod.fst := same ▸ (List.nodup_cons.mp nodup).1
        rw [NameMap.find?_eq_none_iff.mpr absent] at follows₁
        rw [if_pos same] at follows₀
        rw [beq_iff_eq.mpr same, show m' = m₁ from follows₁]
        exact follows₀
      · rw [if_neg same] at follows₀
        rw [beq_eq_false_iff_ne.mpr same]
        exact (show m₁ = m from follows₀) ▸ follows₁

end Sampling

/-! ## All together -/

/-- What is left of an automaton `a` without its loops. -/
structure Sampling.LeavesOf (s : Sampling α) (a a' : Automaton α) : Prop where
  constants : a'.constants = a.constants
  path : a'.path = a.path
  vars : a'.vars.toList ⊆ a.vars.toList
  /-- The clock is the only variable that may be gone. -/
  others : ∀ name ∈ a.vars.toList, name ≠ s.clock → name ∈ a'.vars.toList
  keys : a'.modes.keys = a.modes.keys
  modes : ∀ name m', a'.mode? name = some m' → ∃ m followed, a.mode? name = some m ∧
    m.Follows s.sampled followed (s.laws.find? name) ∧ m' = followed.withoutClock s.clock
  transitions : a'.transitions =
    (a.transitions.filter (!SamplingLoop.isCandidate ·)).map (·.withoutClock s.clock)

namespace Sampling

variable {s : Sampling α} {a a' : Automaton α}

theorem leavesOf_of_removeLoops (h : s.removeLoops a = .ok a') : s.LeavesOf a a' := by
  simp only [removeLoops, bind_eq_ok_iff, pure_eq_ok_iff] at h
  obtain ⟨following, success, rfl⟩ := h
  obtain ⟨follows, modes, rfl, keys⟩ := followLaws_eq_ok success
  refine {
    constants := Automaton.dropUnused_constants
    path := Automaton.dropUnused_path
    vars := Automaton.vars_dropUnused_subset
    others := fun name mem ne => Automaton.mem_vars_dropUnused mem (.inl ne)
    keys := ?_
    modes := ?_
    transitions := Automaton.dropUnused_transitions }
  · rw [Automaton.dropUnused_modes, NameMap.keys_map]
    exact keys
  · intro name m' found
    rw [Automaton.mode?, Automaton.dropUnused_modes, NameMap.find?_map,
      Option.map_eq_some_iff] at found
    obtain ⟨followed, found, rfl⟩ := found
    obtain ⟨m, found, follows⟩ := follows name followed found
    exact ⟨m, followed, found, follows, rfl⟩

/-- A law is a new value of a transition, so it mentions declared names only. -/
theorem IsReadOff.assigns (read : s.IsReadOff a) (kept : a.WellFormed) {mode : String}
    {law : Expr α} (found : s.laws.find? mode = some law) :
    a.Assigns (s.sampled, ⟨law, none⟩) := by
  obtain ⟨t, mem, _, _, set⟩ := (read.laws mode law).mp found
  exact (kept.transitions t mem).resets _ (NameMap.find?_eq_some_iff.mp set)

/-- Without its loops, an automaton keeps the rules that it kept before. -/
theorem wellFormed_of_removeLoops (read : s.IsReadOff a) (kept : a.WellFormed)
    (h : s.removeLoops a = .ok a') : a'.WellFormed := by
  simp only [removeLoops, bind_eq_ok_iff, pure_eq_ok_iff] at h
  obtain ⟨following, success, rfl⟩ := h
  obtain ⟨follows, modes, rfl, keys⟩ := followLaws_eq_ok success
  refine Automaton.WellFormed.dropUnused { stored := ?_, modes := ?_, transitions := ?_ }
  · intro entry mem
    obtain ⟨⟨key, followed⟩, stored, rfl⟩ := List.mem_map.mp mem
    obtain ⟨m, found, follows⟩ := follows key followed (NameMap.find?_eq_some_iff.mpr stored)
    exact follows.rest.1.trans (kept.stored _ (NameMap.find?_eq_some_iff.mp found))
  · intro m' mem
    obtain ⟨key, found⟩ := Automaton.mem_values_iff.mp mem
    rw [Automaton.mode?, NameMap.find?_map, Option.map_eq_some_iff] at found
    obtain ⟨followed, found, rfl⟩ := found
    obtain ⟨m, found, follows⟩ := follows key followed found
    refine (follows.keepsMode (kept.keepsMode found) fun law given => ?_).withoutClock
    have assigned := read.assigns kept given
    exact ⟨assigned.value, assigned.target⟩
  · intro t mem
    obtain ⟨original, left, rfl⟩ := List.mem_map.mp mem
    have rules := kept.transitions original (List.mem_filter.mp left).1
    have isMode {name : String} (isMode : name ∈ a.modes.keys) :
        name ∈ (modes.map fun mode => mode.withoutClock s.clock).keys := by
      rw [NameMap.keys_map, keys]
      exact isMode
    exact {
      source := isMode rules.source
      target := isMode rules.target
      guard := rules.guard.withoutConjunctsMentioning
      resets := rules.withoutClock.resets }

namespace LeavesOf

theorem declared_subset (h : s.LeavesOf a a') : a'.declared ⊆ a.declared := by
  intro name mem
  rw [Scope.declared, List.mem_append] at mem ⊢
  exact h.constants ▸ mem.imp_left (h.vars ·)

theorem mem_declared (h : s.LeavesOf a a') {name : String} (mem : name ∈ a.declared)
    (ne : name ≠ s.clock) : name ∈ a'.declared := by
  rw [Scope.declared, List.mem_append] at mem ⊢
  exact h.constants.symm ▸ mem.imp_left (h.others name · ne)

/-- A formula without the clock keeps its names. -/
theorem closes (h : s.LeavesOf a a') {e : Expr α} (closed : a.Closes e)
    (free : s.clock ∉ e.names) : a'.Closes e := by
  intro name mem
  refine h.mem_declared (closed name mem) ?_
  rintro rfl
  exact free mem

theorem mode_freeOf (h : s.LeavesOf a a') {name : String} {m : Mode α}
    (found : a'.mode? name = some m) : m.FreeOf s.clock := by
  obtain ⟨_, followed, _, _, rfl⟩ := h.modes name m found
  refine ⟨fun mem => (Expr.mem_names_of_withoutConjunctsMentioning mem).2 rfl, ?_⟩
  rw [Mode.flowOf?_withoutClock, if_pos rfl]

theorem transition_freeOf (h : s.LeavesOf a a') {t : Transition α} (mem : t ∈ a'.transitions) :
    t.FreeOf s.clock := by
  rw [h.transitions] at mem
  obtain ⟨original, _, rfl⟩ := List.mem_map.mp mem
  exact ⟨fun mem => (Expr.mem_names_of_withoutConjunctsMentioning mem).2 rfl,
    fun mem => (NameMap.mem_keys_erase.mp mem).2 rfl⟩

/-- What leads from a mode to itself sets nothing. -/
theorem reset_of_self (h : s.LeavesOf a a') {t : Transition α} (mem : t ∈ a'.transitions)
    (self : t.source = t.target) : t.reset.entries = [] := by
  rw [h.transitions] at mem
  obtain ⟨original, left, rfl⟩ := List.mem_map.mp mem
  have other := (List.mem_filter.mp left).2
  have nothing : original.reset.entries = [] := by
    simpa [SamplingLoop.isCandidate, Transition.isSelfLoop,
      show original.source = original.target from self] using other
  exact List.eq_nil_iff_forall_not_mem.mpr fun entry given =>
    List.not_mem_nil (nothing ▸ (List.mem_filter.mp given).1)

/-- The modes to continuize stay: a mode with a law gave the sampled variable a rate before. -/
theorem continuizes_eq (h : s.LeavesOf a a') (read : s.IsReadOff a) (mode : String) :
    a'.continuizes s.sampled mode = a.continuizes s.sampled mode := by
  cases found : a'.mode? mode with
  | none =>
      have absent : a.mode? mode = none := by
        rw [Automaton.mode?, NameMap.find?_eq_none_iff] at found ⊢
        exact h.keys ▸ found
      rw [Automaton.continuizes, Automaton.continuizes, found, absent]
  | some m' =>
      obtain ⟨m, followed, stored, follows, rfl⟩ := h.modes mode m' found
      have rate : ((followed.withoutClock s.clock).flowOf? s.sampled).isSome =
          (m.flowOf? s.sampled).isSome := by
        rw [Mode.flowOf?_withoutClock, if_neg read.apart]
        cases law : s.laws.find? mode with
        | none =>
            have same : Mode.Follows s.sampled m followed none := law ▸ follows
            rw [Mode.Follows] at same
            rw [same]
        | some law' =>
            obtain ⟨_, stored', _, held⟩ := read.modes mode law' law
            obtain rfl := Option.some.inj (stored.symm.trans stored')
            obtain ⟨rate, _, rfl⟩ : Mode.Follows s.sampled m followed (some law') := law ▸ follows
            rw [Mode.flowOf?_setFlow, if_pos rfl]
            cases given : m.flowOf? s.sampled with
            | none => rw [given] at held; cases held
            | some => rfl
      have urgent : (followed.withoutClock s.clock).urgent = m.urgent := follows.rest.2.2
      rw [Automaton.continuizes, Automaton.continuizes, found, stored]
      simp only [rate, urgent]

end LeavesOf

end Sampling

end HybridAutomata
