import HybridAutomata.Proofs.Automaton.Formulas
import HybridAutomata.Proofs.Expr.SimplifiedNames
import HybridAutomata.Proofs.Flatten.Places
import HybridAutomata.Proofs.Model.Reduction
import HybridAutomata.Transform.Jumps
import HybridAutomata.Transform.ModeNames
import HybridAutomata.Transform.Simplified
import HybridAutomata.Transform.Unsatisfiable

/-!
# Rewritings that keep the rules

Some transformations change a model in one place only: its formulas, its transitions, the names of
its modes, or which modes there are. What they leave is stated part by part, and the rules of a
model follow. Renaming the modes is the one that has to know where the automaton is: only at the
root are the names under which regions are stored the names of modes.
-/

namespace HybridAutomata

open Success

variable {α : Type}

/-! ## Automata changed one by one -/

namespace Component

section

variable {f : Automaton α → Automaton α}

theorem toList_mapChildAutomata {taken : List String} (children : Children α taken) :
    (mapChildAutomata f children).toList =
      children.toList.map fun entry => (entry.1, entry.2.1, entry.2.2.mapAutomata f) := by
  induction children with
  | none => rfl
  | more name _ links child rest ih =>
      rw [mapChildAutomata, Children.toList, ih, Children.toList, List.map_cons]

theorem automata_mapAutomata (c : Component α) : (c.mapAutomata f).automata = c.automata.map f := by
  induction c using tree_induction with
  | flat a => rfl
  | network scope children ih =>
      rw [mapAutomata, automata, automata, childAutomata_eq, childAutomata_eq,
        toList_mapChildAutomata, List.flatMap_map, List.map_flatMap]
      exact List.flatMap_congr ih

variable (keeps : ∀ a, (f a).toScope = a.toScope)

include keeps

theorem scope_mapAutomata (c : Component α) : (c.mapAutomata f).scope = c.scope := by
  cases c with
  | flat a => exact keeps a
  | network scope children => rfl

theorem path_mapAutomata (c : Component α) : (c.mapAutomata f).path = c.path :=
  congrArg Scope.path (scope_mapAutomata keeps c)

theorem namesBelow_mapAutomata (c : Component α) (above : Path) :
    (c.mapAutomata f).namesBelow above = c.namesBelow above := by
  induction c using tree_induction generalizing above with
  | flat a => rw [mapAutomata, namesBelow, namesBelow, keeps]
  | network scope children ih =>
      rw [mapAutomata, namesBelow, namesBelow, childNamesBelow_eq, childNamesBelow_eq,
        toList_mapChildAutomata, List.flatMap_map]
      exact congrArg _ (List.flatMap_congr fun entry mem => ih entry mem _)

theorem forInstances_mapAutomata {c : Component α} (h : c.ForInstances KeepsInstance) :
    (c.mapAutomata f).ForInstances KeepsInstance := by
  induction c using tree_induction with
  | flat a => trivial
  | network scope children ih =>
      rw [mapAutomata, ForInstances, forChildren_iff, toList_mapChildAutomata, List.forall_mem_map]
      intro entry mem
      obtain ⟨kept, inside⟩ := forChildren_iff.mp h entry mem
      have same : (entry.2.2.mapAutomata f).scope = entry.2.2.scope := scope_mapAutomata keeps _
      exact ⟨⟨kept.parents, same ▸ kept.children, by rw [path, same]; exact kept.place⟩,
        ih entry mem inside⟩

/-- A tree keeps its rules if its automata do and declare what they declared. -/
theorem Sound.mapAutomata {c : Component α} (h : c.Sound)
    (sound : ∀ a ∈ c.automata, (f a).Sound) : (c.mapAutomata f).Sound where
  automata := by
    rw [automata_mapAutomata]
    exact List.forall_mem_map.mpr sound
  instances := forInstances_mapAutomata keeps h.instances

end

end Component

/-! ## Changes that may fail -/

section

variable {ε β γ : Type}

/-- A change of the values succeeds exactly if it does under every name. -/
theorem NameMap.mapM_eq_ok_iff {f : β → Except ε γ} {m : NameMap β} {m' : NameMap γ} :
    m.mapM f = .ok m' ↔ Related (fun value value' => f value = .ok value') m m' := by
  rw [NameMap.mapM, bind_eq_ok_iff]
  simp only [Success.mapM_eq_ok_iff, bind_eq_ok_iff, pure_eq_ok_iff]
  constructor
  · rintro ⟨entries, made, rfl⟩
    have pairs : List.Forall₂ (RelatedEntries fun value value' => f value = .ok value')
        m.entries entries := by
      refine made.imp fun entry entry' changed => ?_
      obtain ⟨value, step, rfl⟩ := changed
      exact ⟨rfl, step⟩
    have names : m.entries.map Prod.fst = entries.map Prod.fst := by
      rw [← List.forall₂_eq_eq_eq, List.forall₂_map_left_iff, List.forall₂_map_right_iff]
      exact pairs.imp fun _ _ related => related.1
    rwa [Related, entries_ofList (names ▸ m.nodup)]
  · intro related
    refine ⟨m'.entries, ?_, NameMap.ext (entries_ofList m'.nodup)⟩
    refine List.Forall₂.imp (fun entry entry' changed => ?_) related
    exact ⟨_, changed.2, Prod.ext changed.1 rfl⟩

theorem NameMap.exists_mapM {f : β → Except ε γ} {m : NameMap β}
    (h : ∀ entry ∈ m.entries, ∃ value, f entry.2 = .ok value) : ∃ m', m.mapM f = .ok m' := by
  obtain ⟨entries, made⟩ : ∃ entries, (m.entries.mapM fun entry => do
      return (entry.1, ← f entry.2) : Except ε _) = .ok entries := by
    refine exists_ok_of_mapM fun entry mem => ?_
    obtain ⟨value, step⟩ := h entry mem
    exact ⟨_, bind_eq_ok_iff.mpr ⟨value, step, rfl⟩⟩
  exact ⟨_, bind_eq_ok_iff.mpr ⟨entries, made, rfl⟩⟩

theorem Success.optionMapM_eq_ok_iff {f : β → Except ε γ} {b? : Option β} {c? : Option γ} :
    b?.mapM f = .ok c? ↔ Option.Rel (fun b c => f b = .ok c) b? c? := by
  cases b? with
  | none => cases c? <;> simp [pure, Except.pure]
  | some b => cases c? <;> simp

theorem Mode.mapFlowM_eq_ok_iff {f : Perturbed α → Except ε (Perturbed α)} {m m' : Mode α} :
    m.mapFlowM f = .ok m' ↔ ∃ flow, { m with flow } = m' ∧
      Option.Rel (NameMap.Related fun rate rate' => f rate = .ok rate') m.flow flow := by
  rw [mapFlowM, bind_eq_ok_iff]
  simp only [optionMapM_eq_ok_iff, NameMap.mapM_eq_ok_iff, pure_eq_ok_iff, and_comm]

theorem Automaton.mapModesM_eq_ok_iff {f : Mode α → Except ε (Mode α)} {a a' : Automaton α} :
    a.mapModesM f = .ok a' ↔ ∃ modes, { a with modes } = a' ∧
      NameMap.Related (fun mode mode' => f mode = .ok mode') a.modes modes := by
  rw [mapModesM, bind_eq_ok_iff]
  simp only [NameMap.mapM_eq_ok_iff, pure_eq_ok_iff, and_comm]

namespace Component

variable {f : Automaton α → Except ε (Automaton α)}

/-- What an automaton is changed to, at the same place. -/
structure ChangedPlace (f : Automaton α → Except ε (Automaton α))
    (p p' : Place (Automaton α)) : Prop where
  path : p'.path = p.path
  rename : p'.rename = p.rename
  item : f p.item = .ok p'.item

theorem ChangedPlace.within {p p' : Place (Automaton α)} (h : ChangedPlace f p p') (inst : String)
    (links : List Link) : ChangedPlace f (p.within inst links) (p'.within inst links) where
  path := by rw [Place.path_within, Place.path_within, h.path]
  rename := by rw [Place.rename_within, Place.rename_within, h.rename]
  item := h.item

mutual

/-- A successful change leaves every automaton where it is, changed. -/
theorem members_of_mapAutomataM : ∀ {c c' : Component α}, c.mapAutomataM f = .ok c' →
    List.Forall₂ (ChangedPlace f) c.members c'.members
  | .flat a, _, h => by
      simp only [mapAutomataM, bind_eq_ok_iff, pure_eq_ok_iff] at h
      obtain ⟨a', made, rfl⟩ := h
      exact .cons ⟨rfl, rfl, made⟩ .nil
  | .network scope children, _, h => by
      simp only [mapAutomataM, bind_eq_ok_iff, pure_eq_ok_iff] at h
      obtain ⟨children', made, rfl⟩ := h
      exact childMembers_of_mapChildAutomataM made

theorem childMembers_of_mapChildAutomataM :
    ∀ {taken : List String} {children children' : Children α taken},
      mapChildAutomataM f children = .ok children' →
        List.Forall₂ (ChangedPlace f) (childMembers children) (childMembers children')
  | _, .none, _, h => by
      cases h
      exact .nil
  | _, .more inst _ links child rest, _, h => by
      simp only [mapChildAutomataM, bind_eq_ok_iff, pure_eq_ok_iff] at h
      obtain ⟨child', first, rest', others, rfl⟩ := h
      refine List.rel_append ?_ (childMembers_of_mapChildAutomataM others)
      rw [List.forall₂_map_left_iff, List.forall₂_map_right_iff]
      exact (members_of_mapAutomataM first).imp fun _ _ changed => changed.within inst links

end

mutual

/-- A change of a tree succeeds if it does for every automaton. -/
theorem exists_mapAutomataM : ∀ {c : Component α}, (∀ a ∈ c.automata, ∃ a', f a = .ok a') →
    ∃ c', c.mapAutomataM f = .ok c'
  | .flat a, h => by
      obtain ⟨a', made⟩ := h a (List.mem_singleton_self a)
      exact ⟨_, bind_eq_ok_iff.mpr ⟨a', made, rfl⟩⟩
  | .network scope children, h => by
      obtain ⟨children', made⟩ : ∃ children', mapChildAutomataM f children = .ok children' :=
        exists_mapChildAutomataM h
      exact ⟨_, bind_eq_ok_iff.mpr ⟨children', made, rfl⟩⟩

theorem exists_mapChildAutomataM : ∀ {taken : List String} {children : Children α taken},
    (∀ a ∈ childAutomata children, ∃ a', f a = .ok a') →
      ∃ children', mapChildAutomataM f children = .ok children'
  | _, .none, _ => ⟨.none, rfl⟩
  | _, .more inst _ links child rest, h => by
      obtain ⟨first, others⟩ := List.forall_mem_append.mp h
      obtain ⟨child', made⟩ := exists_mapAutomataM first
      obtain ⟨rest', made'⟩ := exists_mapChildAutomataM others
      exact ⟨_, bind_eq_ok_iff.mpr ⟨child', made, bind_eq_ok_iff.mpr ⟨rest', made', rfl⟩⟩⟩

end

end Component

end

/-! ## What the rules ask of a change -/

/-- A region is for a mode of the tree, and its names are names of one of some regions. -/
def Component.TakesRegion (c : Component α) (regions : NameMap (Expr α))
    (entry : String × Expr α) : Prop :=
  entry.1 ∈ c.modeNames ∧ ∃ given ∈ regions.entries, entry.2.names ⊆ given.2.names

/-- A model keeps its rules if its tree declares the same names, and its regions mention no others
and are for modes of the tree. -/
theorem Model.Sound.of_sameNames [Scalar α] {m m' : Model α} (sound : m.Sound)
    (root : m'.root.Sound) (names : m'.root.namesBelow .root = m.root.namesBelow .root)
    (init : ∀ entry ∈ m'.init.entries, m'.root.TakesRegion m.init entry)
    (forbidden : ∀ entry ∈ m'.forbidden.entries, m'.root.TakesRegion m.forbidden entry)
    (settings : m'.settings = m.settings) : m'.Sound where
  root := root
  init := by
    intro entry mem
    obtain ⟨mode, given, old, subset⟩ := init entry mem
    exact ⟨mode, fun name occurs => names ▸ (sound.init given old).names name (subset occurs)⟩
  forbidden := by
    intro entry mem
    obtain ⟨mode, given, old, subset⟩ := forbidden entry mem
    exact ⟨mode, fun name occurs => names ▸ (sound.forbidden given old).names name (subset occurs)⟩
  plot := by
    rw [settings, Component.KeepsPlot, Component.KeepsPlot, names]
    exact sound.plot
  horizon := settings ▸ sound.horizon

/-! ## Formulas -/

theorem Automaton.Sound.simplify [Scalar α] {a : Automaton α} (h : a.Sound) :
    (a.mapExprs Expr.simplify).Sound where
  toWellFormed := h.mapExprs (s := a.toScope) rfl fun e mem name occurs =>
    h.closes mem name (Expr.names_simplify e (List.Subset.refl _) occurs)
  disjoint := h.disjoint

theorem Model.Sound.simplify [Scalar α] {m : Model α} (sound : m.Sound) : m.simplify.Sound := by
  have keeps (a : Automaton α) : (a.mapExprs Expr.simplify).toScope = a.toScope := rfl
  have modes : m.simplify.root.modeNames = m.root.modeNames := by
    refine Component.modeNames_congr ?_
    rw [Model.simplify, Component.mapExprs, Component.automata_mapAutomata, List.map_map]
    exact List.map_congr_left fun a _ => congrArg _ (NameMap.keys_map _ a.modes)
  have regions {kept : NameMap (Expr α)}
      (sound : ∀ entry ∈ kept.entries, m.root.KeepsRegion entry) :
      ∀ entry ∈ (kept.map Expr.simplify).entries, m.simplify.root.TakesRegion kept entry :=
    List.forall_mem_map.mpr fun entry mem => ⟨modes.symm ▸ (sound entry mem).mode, entry, mem,
      Expr.names_simplify entry.2 (List.Subset.refl _)⟩
  exact sound.of_sameNames
    (sound.root.mapAutomata keeps fun a mem => (sound.root.automata a mem).simplify)
    (Component.namesBelow_mapAutomata keeps m.root .root)
    (regions sound.init) (regions sound.forbidden) rfl

/-! ## Impossible modes -/

/-- Without the modes that are gone and their transitions, the other modes and transitions keep
their rules. -/
theorem Automaton.Sound.withoutImpossibleModes [Scalar α] {a : Automaton α} (h : a.Sound) :
    a.withoutImpossibleModes.Sound where
  stored entry mem := h.stored entry (List.mem_of_mem_filter mem)
  modes := by
    intro m mem
    obtain ⟨entry, left, rfl⟩ := List.mem_map.mp mem
    have kept := h.modes entry.2 (List.mem_map_of_mem (List.mem_of_mem_filter left))
    exact ⟨kept.invariant, kept.flows⟩
  transitions := by
    intro t mem
    obtain ⟨given, left⟩ := List.mem_filter.mp mem
    obtain ⟨source, target⟩ := Bool.and_eq_true_iff.mp left
    have stays {name : String} (mem : name ∈ a.modes.keys)
        (left : (!a.impossibleModes.contains name) = true) :
        name ∈ a.withoutImpossibleModes.modes.keys := by
      obtain ⟨entry, stored, rfl⟩ := List.mem_map.mp mem
      exact List.mem_map_of_mem (List.mem_filter.mpr ⟨stored, left⟩)
    have kept := h.transitions t given
    exact ⟨stays kept.source source, stays kept.target target, kept.guard, kept.resets⟩
  disjoint := h.disjoint

theorem Model.Sound.withoutImpossibleModes [Scalar α] {m : Model α} (sound : m.Sound) :
    m.withoutImpossibleModes.Sound := by
  have keeps (a : Automaton α) : a.withoutImpossibleModes.toScope = a.toScope := rfl
  rw [Model.withoutImpossibleModes]
  split
  · exact sound
  · have regions {kept : NameMap (Expr α)} : ∀ entry ∈ (kept.filter fun mode _ =>
          (m.root.mapAutomata Automaton.withoutImpossibleModes).modeNames.contains mode).entries,
        (m.root.mapAutomata Automaton.withoutImpossibleModes).TakesRegion kept entry := by
      intro entry mem
      obtain ⟨given, mode⟩ := List.mem_filter.mp mem
      exact ⟨List.contains_iff_mem.mp mode, entry, given, List.Subset.refl _⟩
    exact sound.of_sameNames
      (sound.root.mapAutomata keeps fun a mem => (sound.root.automata a mem).withoutImpossibleModes)
      (Component.namesBelow_mapAutomata keeps m.root .root) regions regions rfl

/-! ## Transitions -/

section

variable {m : Model α} {a : Automaton α}

/-- The transitions of a flat model may be replaced by others that keep their rules. -/
theorem Model.Sound.withTransitions [Scalar α] (sound : m.Sound) (root : m.root = .flat a)
    {transitions : List (Transition α)} (kept : ∀ t ∈ transitions, a.KeepsTransition t) :
    (m.withAutomaton { a with transitions }).Sound := by
  have automaton := Component.sound_flat_iff.mp (root ▸ sound.root)
  have regions {kept : NameMap (Expr α)}
      (sound : ∀ entry ∈ kept.entries, m.root.KeepsRegion entry) :
      ∀ entry ∈ kept.entries, (Component.flat { a with transitions }).TakesRegion kept entry :=
    fun entry mem => ⟨(root ▸ sound entry mem : (Component.flat a).KeepsRegion entry).mode, entry,
      mem, List.Subset.refl _⟩
  refine sound.of_sameNames (Component.sound_flat_iff.mpr ?_) ?_ (regions sound.init)
    (regions sound.forbidden) rfl
  · exact {
      stored := automaton.stored
      modes := fun mode mem =>
        ⟨(automaton.modes mode mem).invariant, (automaton.modes mode mem).flows⟩
      transitions := fun t mem =>
        ⟨(kept t mem).source, (kept t mem).target, (kept t mem).guard, (kept t mem).resets⟩
      disjoint := automaton.disjoint }
  · rw [root]
    rfl

/-- A new value was there, or assigns a variable to itself. -/
theorem Transition.mem_reset_withIdentities {vars : List String} {t : Transition α} :
    ∀ entry ∈ (t.withIdentities vars).reset.entries,
      entry ∈ t.reset.entries ∨ ∃ name ∈ vars, entry = (name, .exact (.var name)) := by
  refine List.foldlRecOn vars _
    (motive := fun (reset : NameMap (Perturbed α)) => ∀ entry ∈ reset.entries,
      entry ∈ t.reset.entries ∨ ∃ name ∈ vars, entry = (name, .exact (.var name)))
    (fun entry given => .inl given) fun reset before name var entry mem => ?_
  split at mem
  · exact before entry mem
  · obtain rfl | ⟨given, _⟩ := NameMap.mem_entries_insert.mp mem
    · exact .inr ⟨name, var, rfl⟩
    · exact before entry given

namespace Automaton

theorem KeepsTransition.withIdentities {t : Transition α} (h : a.KeepsTransition t) :
    a.KeepsTransition (t.withIdentities a.vars.toList) where
  source := h.source
  target := h.target
  guard := h.guard
  resets := by
    intro entry mem
    obtain given | ⟨name, var, rfl⟩ := Transition.mem_reset_withIdentities entry mem
    · exact h.resets entry given
    · refine ⟨var, fun other occurs => ?_⟩
      rw [List.mem_singleton.mp occurs]
      exact List.mem_append_left _ var

theorem KeepsTransition.split {t t' : Transition α} (h : a.KeepsTransition t)
    (mem : t' ∈ t.split) : a.KeepsTransition t' := by
  obtain ⟨guard, part, rfl⟩ := List.mem_map.mp mem
  exact ⟨h.source, h.target, fun name occurs => h.guard name (Expr.names_of_mem_chain part occurs),
    h.resets⟩

end Automaton

/-! ## Names of modes -/

namespace Automaton

theorem mem_keys_renameModes {f : String → String} {name : String} (mem : name ∈ a.modes.keys) :
    f name ∈ (a.renameModes f).modes.keys := by
  obtain ⟨entry, stored, rfl⟩ := List.mem_map.mp mem
  refine NameMap.mem_keys_ofList.mpr (List.mem_map.mpr ⟨_, List.mem_map_of_mem stored, rfl⟩)

/-- Under new names, modes keep their rules, also if two names become one. -/
theorem Sound.renameModes (h : a.Sound) (f : String → String) : (a.renameModes f).Sound where
  stored := by
    intro entry mem
    obtain ⟨old, _, rfl⟩ := List.mem_map.mp (NameMap.mem_of_mem_ofList mem)
    rfl
  modes := by
    intro mode mem
    obtain ⟨entry, given, rfl⟩ := List.mem_map.mp mem
    obtain ⟨old, stored, rfl⟩ := List.mem_map.mp (NameMap.mem_of_mem_ofList given)
    have kept := h.modes old.2 (List.mem_map_of_mem stored)
    exact ⟨kept.invariant, kept.flows⟩
  transitions := by
    intro t' mem
    obtain ⟨t, given, rfl⟩ := List.mem_map.mp mem
    have kept := h.transitions t given
    exact ⟨mem_keys_renameModes kept.source, mem_keys_renameModes kept.target, kept.guard,
      kept.resets⟩
  disjoint := h.disjoint

end Automaton

/-- At the root, modes have no other names than their own. -/
theorem Component.mem_keys_of_mem_modeNames (place : a.path = .root) {name : String}
    (h : name ∈ (flat a).modeNames) : name ∈ a.modes.keys := by
  simpa [modeNames, automata, place, Path.isRoot, Path.root] using h

/-- The modes of an automaton at the root may be renamed, with the regions. -/
theorem Model.Sound.renameModes [Scalar α] (sound : m.Sound) (root : m.root = .flat a)
    (place : a.path = .root) (f : String → String) :
    ({ m.withAutomaton (a.renameModes f) with
      init := m.init.mapKeys f
      forbidden := m.forbidden.mapKeys f } : Model α).Sound := by
  have automaton := Component.sound_flat_iff.mp (root ▸ sound.root)
  have regions {kept : NameMap (Expr α)}
      (sound : ∀ entry ∈ kept.entries, m.root.KeepsRegion entry) :
      ∀ entry ∈ (kept.mapKeys f).entries,
        (Component.flat (a.renameModes f)).TakesRegion kept entry := by
    intro entry mem
    obtain ⟨old, given, rfl⟩ := List.mem_map.mp (NameMap.mem_of_mem_ofList mem)
    have mode : old.1 ∈ (Component.flat a).modeNames := root ▸ (sound old given).mode
    have key := Component.mem_keys_of_mem_modeNames place mode
    exact ⟨Component.mem_modeNames_flat (Automaton.mem_keys_renameModes key), old, given,
      List.Subset.refl _⟩
  refine sound.of_sameNames (Component.sound_flat_iff.mpr (automaton.renameModes f)) ?_
    (regions sound.init) (regions sound.forbidden) rfl
  rw [root]
  rfl

end

end HybridAutomata
