import HybridAutomata.Proofs.Flatten.Steps

/-!
# Trees with simple names

If names contain no points, a qualified name tells which part of the tree it belongs to, and then
the table of names that flattening keeps agrees with the renaming of the automata. If moreover
instances link variables to different variables, no two names of one automaton become one.
-/

namespace HybridAutomata

open Flattened

variable {α : Type}

namespace Component

/-- No name in the tree contains a point. -/
structure SimplyNamed (c : Component α) : Prop where
  instances : ∀ p ∈ c.scopes, p.path.IsSimple
  declared : ∀ p ∈ c.scopes, ∀ x ∈ p.item.declared, IsSimple x
  modes : ∀ p ∈ c.members, ∀ name ∈ p.item.modes.keys, IsSimple name

theorem SimplyNamed.child {scope : Scope α} {children : Children α}
    (h : (network scope children).SimplyNamed) {entry : String × List Link × Component α}
    (mem : entry ∈ children.toList) : entry.2.2.SimplyNamed where
  instances := by
    intro p inChild inst inPath
    exact h.instances _ (within_mem_scopes mem inChild) inst (List.mem_cons_of_mem _ inPath)
  declared p inChild := h.declared (p.within entry.1 entry.2.1) (within_mem_scopes mem inChild)
  modes p inChild := h.modes (p.within entry.1 entry.2.1) (within_mem_members mem inChild)

/-- Qualified names tell the declared names of the tree apart. -/
def DistinctNames (c : Component α) : Prop :=
  ∀ p ∈ c.scopes, ∀ q ∈ c.scopes, ∀ x ∈ p.item.declared, ∀ y ∈ q.item.declared,
    p.path.qualify x = q.path.qualify y → p.path = q.path ∧ x = y

theorem SimplyNamed.distinctNames {c : Component α} (h : c.SimplyNamed) : c.DistinctNames :=
  fun p hp q hq x hx y hy => Path.qualify_inj (h.instances p hp) (h.instances q hq)
    (h.declared p hp x hx) (h.declared q hq y hy)

/-! ## Distinct places -/

/-- No two parts of a tree are in the same place, as instances of a network have different names. -/
theorem nodup_paths_scopes (c : Component α) : (c.scopes.map Place.path).Nodup := by
  induction c using tree_induction with
  | flat a => exact List.nodup_singleton _
  | network scope children ih =>
      have paths : (network scope children).scopes.map Place.path = .root ::
          children.toList.flatMap fun entry =>
            (entry.2.2.scopes.map Place.path).map (Path.below entry.1) := by
        rw [scopes, childScopes_eq, List.map_cons, List.map_flatMap]
        simp only [List.map_map]
        rfl
      have absent : Path.root ∉ children.toList.flatMap fun entry =>
          (entry.2.2.scopes.map Place.path).map (Path.below entry.1) := by
        simp [Path.below, Path.root]
      have below {inst : String} : Function.Injective (Path.below inst) := by
        rintro ⟨_⟩ ⟨_⟩ eq
        simpa [Path.below] using eq
      rw [paths, List.nodup_cons, List.nodup_flatMap]
      refine ⟨absent, fun entry mem => (ih entry mem).map below, ?_⟩
      refine (List.pairwise_map.mp (Children.nodup_names children)).imp fun other p mem mem' => ?_
      obtain ⟨q, _, rfl⟩ := List.mem_map.mp mem
      obtain ⟨q', _, eq⟩ := List.mem_map.mp mem'
      simp only [Path.below, Path.mk.injEq, List.cons.injEq] at eq
      exact other eq.1.symm

/-- An insertion replaces exactly the entry of its name. -/
theorem mem_toList_insert_iff {taken : List String} {name : String} {links : List Link}
    {child : Component α} {children : Children α taken} {fresh : name ∉ taken}
    {entry : String × List Link × Component α} :
    entry ∈ (children.insert name links child fresh).toList ↔
      entry = (name, links, child) ∨ entry.1 ≠ name ∧ entry ∈ children.toList := by
  induction children with
  | none => simp [Children.insert, Children.toList]
  | more key _ links' child' rest ih =>
      have others : ∀ other ∈ rest.toList, other.1 ≠ key := fun other mem same =>
        Children.notMem_taken mem (same ▸ List.mem_cons_self)
      rw [Children.insert]
      split
      · next same =>
          subst same
          simp only [Children.toList, List.mem_cons]
          grind
      · next other =>
          simp only [Children.toList, List.mem_cons, ih]
          grind

/-! ## Links of variables -/

/-- An instance links variables of the child to variables of the network, each to another one. -/
structure LinksVariables (scope : Scope α) (_inst : String) (links : List Link)
    (child : Component α) : Prop where
  parents : ∀ link ∈ links, link.parent ∈ scope.vars.toList
  children : ∀ link ∈ links, link.child ∈ child.scope.vars.toList
  parents_nodup : (links.map Link.parent).Nodup
  children_nodup : (links.map Link.child).Nodup

variable {c : Component α}

/-- Instances that link variables keep simple names apart. -/
theorem SimplyNamed.outer_injective (h : c.SimplyNamed) (links : c.ForInstances LinksVariables) :
    c.ForInstances fun _ inst links _ => Function.Injective (outerName inst links) := by
  induction c using tree_induction with
  | flat a => trivial
  | network scope children ih =>
      refine forChildren_iff.mpr fun entry mem => ?_
      obtain ⟨linked, others⟩ := forChildren_iff.mp links entry mem
      refine ⟨outerName_injective ?_ (Link.separate_of_nodup linked.parents_nodup),
        ih entry mem (h.child mem) others⟩
      intro link inLinks
      exact h.declared (.here scope) List.mem_cons_self link.parent
        (List.mem_append_left _ (linked.parents link inLinks))

/-- If all instances keep names apart, so does the way to every automaton. -/
theorem rename_injective
    (outer : c.ForInstances fun _ inst links _ => Function.Injective (outerName inst links))
    {p : Place (Automaton α)} (mem : p ∈ c.members) : Function.Injective p.rename := by
  induction c using tree_induction generalizing p with
  | flat a =>
      rw [members, List.mem_singleton] at mem
      subst mem
      exact Function.injective_id
  | network scope children ih =>
      obtain ⟨entry, child, p, inside, rfl⟩ := mem_members_network.mp mem
      obtain ⟨first, others⟩ := forChildren_iff.mp outer entry child
      exact first.comp (ih entry child others inside)

/-! ## The table of names -/

/-- The renaming gives every name of the tree, qualified with its place, the name that the place
says. -/
def Renames (c : Component α) (ρ : String → String) : Prop :=
  ∀ p ∈ c.scopes, ∀ x ∈ p.item.declared, ρ (p.path.qualify x) = p.rename x

/-- The table of names agrees with the renamed automata. -/
theorem renames_nameOf {f : Flattened α} (h : c.flatten = .ok f) (names : c.DistinctNames) :
    c.Renames f.nameOf := by
  intro p mem x declared
  obtain ⟨q, mem', y, declared', same, eq⟩ := exists_nameOf h mem declared
  obtain ⟨paths, rfl⟩ := names q mem' p mem y declared' x declared same
  obtain rfl := List.inj_on_of_nodup_map (nodup_paths_scopes c) mem' mem paths
  exact eq

end Component

end HybridAutomata
