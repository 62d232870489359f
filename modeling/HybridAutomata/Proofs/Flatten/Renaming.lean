import Mathlib.Data.Set.Function
import HybridAutomata.Proofs.Expr.Names
import HybridAutomata.Proofs.Names
import HybridAutomata.Transform.Flatten

/-!
# Renamed modes and transitions

An automaton that becomes part of a network has its names replaced, in formulas and as the names
that rates and new values are for. A map of rates is built anew with the new names, and of two rates
whose names become one it keeps one. If the renaming keeps the names of the rates apart nothing is
lost, and renaming level by level is renaming at once by the composition.
-/

namespace HybridAutomata

variable {α β : Type} {f g : String → String}

namespace NameMap

theorem map_map {γ δ : Type} (m : NameMap β) (f : β → γ) (g : γ → δ) :
    (m.map f).map g = m.map (g ∘ f) :=
  ext (List.map_map ..)

theorem entries_mapKeys {m : NameMap β} (injective : Set.InjOn f {x | x ∈ m.keys}) :
    (m.mapKeys f).entries = m.entries.map fun entry => (f entry.1, entry.2) := by
  rw [mapKeys, entries_ofList]
  have names : (m.entries.map fun entry => (f entry.1, entry.2)).map Prod.fst = m.keys.map f := by
    simp [keys]
  rw [names]
  exact List.Nodup.map_on (fun _ mem _ mem' eq => injective mem mem' eq) m.keys_nodup

end NameMap

namespace Perturbed

/-- Renames the names in the formula. -/
def rename (f : String → String) (r : Perturbed α) : Perturbed α := r.mapExpr (·.rename f)

@[simp] theorem expr_rename (r : Perturbed α) : (r.rename f).expr = r.expr.rename f := rfl

@[simp] theorem rename_rename (r : Perturbed α) : (r.rename f).rename g = r.rename (g ∘ f) := by
  simp [rename, mapExpr]

@[simp] theorem rename_id (r : Perturbed α) : r.rename id = r := by
  simp [rename, mapExpr]

end Perturbed

/-! ## Rates and new values -/

/-- Renames an entry of a flow or a reset. -/
def renameEntry (f : String → String) (entry : String × Perturbed α) : String × Perturbed α :=
  (f entry.1, entry.2.rename f)

theorem renameEntry_comp : (renameEntry g ∘ renameEntry f : String × Perturbed α → _) =
    renameEntry (g ∘ f) := by
  funext entry
  simp [renameEntry]

theorem renameEntry_id : (renameEntry id : String × Perturbed α → _) = id := by
  funext entry
  simp [renameEntry]

/-- Renames the entries of a flow or a reset; of two for one name, the later value stays. -/
def renameAssignments (f : String → String) (m : NameMap (Perturbed α)) : NameMap (Perturbed α) :=
  (m.map (·.rename f)).mapKeys f

theorem renameAssignments_eq (m : NameMap (Perturbed α)) :
    renameAssignments f m = .ofList (m.entries.map (renameEntry f)) := by
  rw [renameAssignments, NameMap.mapKeys, NameMap.map, List.map_map]
  rfl

theorem mem_renameAssignments {m : NameMap (Perturbed α)} {entry : String × Perturbed α}
    (h : entry ∈ (renameAssignments f m).entries) :
    ∃ original ∈ m.entries, renameEntry f original = entry := by
  rw [renameAssignments_eq] at h
  exact List.mem_map.mp (NameMap.mem_of_mem_ofList h)

theorem entries_renameAssignments {m : NameMap (Perturbed α)}
    (injective : Set.InjOn f {x | x ∈ m.keys}) :
    (renameAssignments f m).entries = m.entries.map (renameEntry f) := by
  rw [renameAssignments, NameMap.entries_mapKeys (by rwa [NameMap.keys_map]), NameMap.map,
    List.map_map]
  rfl

theorem renameAssignments_renameAssignments {m : NameMap (Perturbed α)}
    (injective : Set.InjOn f {x | x ∈ m.keys}) :
    renameAssignments g (renameAssignments f m) = renameAssignments (g ∘ f) m := by
  rw [renameAssignments_eq, entries_renameAssignments injective, List.map_map, renameEntry_comp,
    renameAssignments_eq]

theorem renameAssignments_id (m : NameMap (Perturbed α)) : renameAssignments id m = m := by
  apply NameMap.ext
  rw [entries_renameAssignments (Set.injOn_id _), renameEntry_id, List.map_id]

/-! ## Modes -/

namespace Mode

/-- The names that get a rate. -/
def assigned (m : Mode α) : List String := m.flows.map Prod.fst

/-- Renames the names in the invariant and the flow. -/
def rename (f : String → String) (m : Mode α) : Mode α :=
  { m with flow := m.flow.map (renameAssignments f), invariant := m.invariant.rename f }

variable (m : Mode α)

@[simp] theorem urgent_rename : (m.rename f).urgent = m.urgent := rfl

@[simp] theorem invariant_rename : (m.rename f).invariant = m.invariant.rename f := rfl

@[simp] theorem hasFlow_rename : (m.rename f).hasFlow = m.hasFlow := by
  simp [hasFlow, rename]

theorem mem_flows_rename {m : Mode α} {entry : String × Perturbed α}
    (h : entry ∈ (m.rename f).flows) : ∃ original ∈ m.flows, renameEntry f original = entry := by
  obtain ⟨_, flow, _, _⟩ := m
  cases flow with
  | none => cases h
  | some flow => exact mem_renameAssignments h

theorem flows_rename {m : Mode α} (injective : Set.InjOn f {x | x ∈ m.assigned}) :
    (m.rename f).flows = m.flows.map (renameEntry f) := by
  obtain ⟨_, flow, _, _⟩ := m
  cases flow with
  | none => rfl
  | some flow => exact entries_renameAssignments injective

@[simp] theorem rename_id : m.rename id = m := by
  have flows : renameAssignments id = (id : NameMap (Perturbed α) → _) :=
    funext renameAssignments_id
  simp [rename, flows]

end Mode

/-! ## Transitions -/

namespace Transition

/-- The names that get a new value. -/
def assigned (t : Transition α) : List String := t.reset.keys

/-- Renames the names in the guard and the new values. -/
def rename (f : String → String) (t : Transition α) : Transition α :=
  { t with guard := t.guard.rename f, reset := renameAssignments f t.reset }

variable (t : Transition α)

@[simp] theorem guard_rename : (t.rename f).guard = t.guard.rename f := rfl

theorem rename_rename {t : Transition α} (injective : Set.InjOn f {x | x ∈ t.assigned}) :
    (t.rename f).rename g = t.rename (g ∘ f) := by
  have resets := renameAssignments_renameAssignments (g := g) injective
  simp [rename, resets]

@[simp] theorem rename_id : t.rename id = t := by
  simp [rename, renameAssignments_id]

end Transition

/-! ## Automata -/

theorem Automaton.renameNames_eq (a : Automaton α) : a.renameNames f =
    { a with
      modes := a.modes.map (·.rename f)
      transitions := a.transitions.map (·.rename f) } := by
  have modes : (a.modes.map (·.mapExprs (·.rename f))).map
      (fun m => { m with flow := m.flow.map (·.mapKeys f) }) = a.modes.map (·.rename f) := by
    rw [NameMap.map_map]
    congr 1
    funext m
    obtain ⟨_, flow, _, _⟩ := m
    cases flow <;> rfl
  have transitions : (a.transitions.map (·.mapExprs (·.rename f))).map
      (fun t => { t with reset := t.reset.mapKeys f }) = a.transitions.map (·.rename f) := by
    rw [List.map_map]
    rfl
  rw [renameNames, ← modes, ← transitions]
  rfl

end HybridAutomata
