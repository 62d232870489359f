import HybridAutomata.Proofs.Component.Rules
import HybridAutomata.Proofs.Flatten.Names

/-!
# Places in a tree

Flattening turns a tree into one list of declarations and one product of automata. To say what has
become of a part of the tree, the parts are listed with their places: the path that leads to a part,
and what its names are called outside, which is put together from the links of all instances on the
way.
-/

namespace HybridAutomata

/-- A part of a tree, the path that leads to it, and the names outside for its names. -/
structure Place (β : Type) where
  path : Path
  rename : String → String
  item : β

namespace Place

variable {β : Type}

/-- The whole tree. -/
def here (item : β) : Place β := ⟨.root, id, item⟩

/-- A place in a child, seen from the network. -/
def within (inst : String) (links : List Link) (p : Place β) : Place β :=
  { p with path := p.path.below inst, rename := Flattened.outerName inst links ∘ p.rename }

@[simp] theorem path_here (item : β) : (here item).path = .root := rfl

@[simp] theorem rename_here (item : β) : (here item).rename = id := rfl

@[simp] theorem item_here (item : β) : (here item).item = item := rfl

@[simp] theorem path_within (inst : String) (links : List Link) (p : Place β) :
    (p.within inst links).path = p.path.below inst := rfl

@[simp] theorem rename_within (inst : String) (links : List Link) (p : Place β) :
    (p.within inst links).rename = Flattened.outerName inst links ∘ p.rename := rfl

@[simp] theorem item_within (inst : String) (links : List Link) (p : Place β) :
    (p.within inst links).item = p.item := rfl

end Place

variable {α : Type}

namespace Component

mutual

/-- The flat automata of a tree with their places. -/
def members : Component α → List (Place (Automaton α))
  | flat a => [.here a]
  | network _ children => childMembers children

@[inherit_doc members]
def childMembers {taken : List String} : Children α taken → List (Place (Automaton α))
  | .none => []
  | .more inst _ links child rest => (members child).map (.within inst links) ++ childMembers rest

end

mutual

/-- The declarations of a tree with their places. -/
def scopes : Component α → List (Place (Scope α))
  | flat a => [.here a.toScope]
  | network scope children => .here scope :: childScopes children

/-- The declarations of the children of a network. -/
def childScopes {taken : List String} : Children α taken → List (Place (Scope α))
  | .none => []
  | .more inst _ links child rest => (scopes child).map (.within inst links) ++ childScopes rest

end

/-! ## Instances as a list -/

mutual

/-- Induction over a tree: what all children of a network have, the network has. -/
theorem tree_induction {P : Component α → Prop} (flat : ∀ a, P (.flat a))
    (network : ∀ scope children, (∀ entry ∈ children.toList, P entry.2.2) →
      P (.network scope children)) : ∀ c, P c
  | .flat a => flat a
  | .network scope children => network scope children (children_induction flat network children)

theorem children_induction {P : Component α → Prop} (flat : ∀ a, P (.flat a))
    (network : ∀ scope children, (∀ entry ∈ children.toList, P entry.2.2) →
      P (.network scope children)) :
    ∀ {taken : List String} (children : Children α taken), ∀ entry ∈ children.toList, P entry.2.2
  | _, .none => List.forall_mem_nil _
  | _, .more _ _ _ child rest =>
      List.forall_mem_cons.mpr
        ⟨tree_induction flat network child, children_induction flat network rest⟩

end

/-- Induction over the instances of a network, one after the other. -/
@[induction_eliminator]
theorem Children.induction {motive : {taken : List String} → Children α taken → Prop}
    (none : ∀ {taken : List String}, motive (.none : Children α taken))
    (more : ∀ {taken : List String} (inst : String) (fresh : inst ∉ taken) (links : List Link)
      (child : Component α) (rest : Children α (inst :: taken)), motive rest →
        motive (.more inst fresh links child rest)) :
    ∀ {taken : List String} (children : Children α taken), motive children
  | _, .none => none
  | _, .more inst fresh links child rest =>
      more inst fresh links child rest (Children.induction none more rest)

section

variable {taken : List String}

theorem childMembers_eq (children : Children α taken) : childMembers children =
    children.toList.flatMap fun (inst, links, child) => child.members.map (.within inst links) := by
  induction children with
  | none => rfl
  | more inst _ links child rest ih =>
      rw [childMembers, ih, Children.toList, List.flatMap_cons]

theorem childScopes_eq (children : Children α taken) : childScopes children =
    children.toList.flatMap fun (inst, links, child) => child.scopes.map (.within inst links) := by
  induction children with
  | none => rfl
  | more inst _ links child rest ih =>
      rw [childScopes, ih, Children.toList, List.flatMap_cons]

theorem childAutomata_eq (children : Children α taken) : childAutomata children =
    children.toList.flatMap fun entry => entry.2.2.automata := by
  induction children with
  | none => rfl
  | more inst _ links child rest ih =>
      rw [childAutomata, ih, Children.toList, List.flatMap_cons]

theorem childNamesBelow_eq (above : Path) (children : Children α taken) :
    childNamesBelow above children =
      children.toList.flatMap fun entry => entry.2.2.namesBelow (above.child entry.1) := by
  induction children with
  | none => rfl
  | more inst _ links child rest ih =>
      rw [childNamesBelow, ih, Children.toList, List.flatMap_cons]

theorem forChildren_iff {P : Scope α → String → List Link → Component α → Prop} {scope : Scope α}
    {children : Children α taken} : ForChildren P scope children ↔
      ∀ entry ∈ children.toList, P scope entry.1 entry.2.1 entry.2.2 ∧
        entry.2.2.ForInstances P := by
  induction children with
  | none => simp [ForChildren, Children.toList]
  | more inst _ links child rest ih =>
      rw [ForChildren, ih, Children.toList, List.forall_mem_cons, and_assoc]

/-! ## The names of instances -/

/-- No instance has a name that is taken. -/
theorem Children.notMem_taken {children : Children α taken}
    {entry : String × List Link × Component α} (mem : entry ∈ children.toList) :
    entry.1 ∉ taken := by
  induction children with
  | none => cases mem
  | more inst fresh links child rest ih =>
      obtain rfl | others := List.mem_cons.mp mem
      · exact fresh
      · exact List.not_mem_of_not_mem_cons (ih others)

/-- The instances of a network have different names. -/
theorem Children.nodup_names (children : Children α taken) :
    (children.toList.map Prod.fst).Nodup := by
  induction children with
  | none => exact List.nodup_nil
  | more inst _ links child rest ih =>
      refine List.nodup_cons.mpr ⟨fun mem => ?_, ih⟩
      obtain ⟨entry, others, rfl⟩ := List.mem_map.mp mem
      exact Children.notMem_taken others List.mem_cons_self

end

/-! ## Parts of a network -/

theorem here_mem_scopes (c : Component α) : .here c.scope ∈ c.scopes := by
  cases c with
  | flat a => exact List.mem_singleton_self _
  | network scope children => exact List.mem_cons_self

section

variable {scope : Scope α} {children : Children α} {entry : String × List Link × Component α}

/-- The declarations of a network are its own and those of its children. -/
theorem mem_scopes_network {p : Place (Scope α)} : p ∈ (network scope children).scopes ↔
    p = .here scope ∨ ∃ entry ∈ children.toList, ∃ q ∈ entry.2.2.scopes,
      q.within entry.1 entry.2.1 = p := by
  simp [scopes, childScopes_eq]

/-- The automata of a network are those of its children. -/
theorem mem_members_network {p : Place (Automaton α)} : p ∈ (network scope children).members ↔
    ∃ entry ∈ children.toList, ∃ q ∈ entry.2.2.members, q.within entry.1 entry.2.1 = p := by
  simp [members, childMembers_eq]

theorem within_mem_scopes (mem : entry ∈ children.toList) {p : Place (Scope α)}
    (inChild : p ∈ entry.2.2.scopes) :
    p.within entry.1 entry.2.1 ∈ (network scope children).scopes :=
  mem_scopes_network.mpr (.inr ⟨entry, mem, p, inChild, rfl⟩)

theorem within_mem_members (mem : entry ∈ children.toList) {p : Place (Automaton α)}
    (inChild : p ∈ entry.2.2.members) :
    p.within entry.1 entry.2.1 ∈ (network scope children).members :=
  mem_members_network.mpr ⟨entry, mem, p, inChild, rfl⟩

end

/-- A weaker condition holds throughout a tree as well. -/
theorem ForInstances.imp {P Q : Scope α → String → List Link → Component α → Prop}
    {c : Component α} (h : c.ForInstances P)
    (weaken : ∀ scope inst links child, P scope inst links child → Q scope inst links child) :
    c.ForInstances Q := by
  induction c using tree_induction with
  | flat a => trivial
  | network scope children ih =>
      refine forChildren_iff.mpr fun entry mem => ?_
      obtain ⟨holds, others⟩ := forChildren_iff.mp h entry mem
      exact ⟨weaken _ _ _ _ holds, ih entry mem others⟩

/-! ## Automata and names -/

theorem map_item_members (c : Component α) : c.members.map Place.item = c.automata := by
  induction c using tree_induction with
  | flat a => rfl
  | network scope children ih =>
      rw [members, automata, childMembers_eq, childAutomata_eq, List.map_flatMap]
      refine List.flatMap_congr fun entry mem => ?_
      rw [← ih entry mem, List.map_map]
      rfl

theorem Sound.of_mem_members {c : Component α} (h : c.Sound) {p : Place (Automaton α)}
    (mem : p ∈ c.members) : p.item.Sound :=
  h.automata p.item (map_item_members c ▸ List.mem_map_of_mem mem)

theorem namesBelow_eq (c : Component α) (above : Path) : c.namesBelow above =
    c.scopes.flatMap fun p =>
      p.item.declared.map (Path.qualify ⟨above.segments ++ p.path.segments⟩) := by
  induction c using tree_induction generalizing above with
  | flat a => simp [namesBelow, scopes, Path.root]
  | network scope children ih =>
      have here : (Place.here scope).item.declared.map
          (Path.qualify ⟨above.segments ++ (Place.here scope).path.segments⟩) =
          scope.declared.map above.qualify := by simp [Path.root]
      rw [namesBelow, scopes, List.flatMap_cons, here, childNamesBelow_eq, childScopes_eq,
        List.flatMap_assoc]
      congr 1
      refine List.flatMap_congr fun entry mem => ?_
      rw [ih entry mem, List.flatMap_map]
      simp [Path.child, Path.below]

/-- The names of a tree are those that its parts declare, qualified with their paths. -/
theorem mem_namesBelow_root {c : Component α} {name : String} : name ∈ c.namesBelow .root ↔
    ∃ p ∈ c.scopes, ∃ x ∈ p.item.declared, p.path.qualify x = name := by
  rw [namesBelow_eq]
  simp [Path.root]

/-- Where every child is where its instance name says, the paths of the automata are the paths that
lead to them. -/
theorem path_of_mem_members {c : Component α} (instances : c.ForInstances KeepsInstance)
    {p : Place (Automaton α)} (mem : p ∈ c.members) :
    p.item.path.segments = c.path.segments ++ p.path.segments := by
  induction c using tree_induction generalizing p with
  | flat a =>
      rw [members, List.mem_singleton] at mem
      subst mem
      exact (List.append_nil _).symm
  | network scope children ih =>
      obtain ⟨entry, child, p, inside, rfl⟩ := mem_members_network.mp mem
      obtain ⟨keeps, instances⟩ := forChildren_iff.mp instances entry child
      have path := ih entry child instances inside
      rw [keeps.place] at path
      simpa [Path.child, Path.below, Component.path, Component.scope] using path

end Component

end HybridAutomata
