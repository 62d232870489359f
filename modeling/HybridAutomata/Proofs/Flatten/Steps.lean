import HybridAutomata.Proofs.Flatten.Places
import HybridAutomata.Proofs.Flatten.Products
import HybridAutomata.Proofs.Flatten.Renaming

/-!
# The steps of flattening

Flattening a network flattens its children, renames them, collects their declarations and names, and
forms the product. `NetworkOf` says what a network is flattened to, given its flattened children;
`flatten_induction` carries a property from the children to the network, so that no later proof
follows the recursion again. From these follow the declarations of a flattened component and its
table of names.
-/

namespace HybridAutomata

open Success

variable {α : Type}

/-- An instance of a network with its flattened child. -/
structure Part (α : Type) where
  inst : String
  links : List Link
  child : Component α
  flattened : Flattened α

namespace Part

/-- What names of the child are called in the network. -/
def outer (part : Part α) : String → String := Flattened.outerName part.inst part.links

/-- Whether a name of the child is linked to none of the network. -/
def isFree (part : Part α) (name : String) : Bool := (Link.parentOf? part.links name).isNone

def automaton (part : Part α) : Automaton α := part.flattened.factor.automaton

/-- The child as a factor of the network. -/
def factor (part : Part α) : Factor α :=
  { part.flattened.factor with automaton := part.automaton.renameNames part.outer }

variable {part : Part α}

theorem modes_factor : part.factor.automaton.modes =
    part.automaton.modes.map (·.rename part.outer) := by
  rw [factor, Automaton.renameNames_eq]

theorem transitions_factor : part.factor.automaton.transitions =
    part.automaton.transitions.map (·.rename part.outer) := by
  rw [factor, Automaton.renameNames_eq]

/-- A free name gets the name of the instance in front. -/
theorem outer_of_isFree {x : String} (free : part.isFree x = true) :
    part.outer x = part.inst ++ "." ++ x :=
  Flattened.outerName_eq_of_not_linked (Option.isNone_iff_eq_none.mp free)

end Part

namespace Flattened.Partial

/-- Takes all parts into a network. -/
def addAll (p : Partial α) (parts : List (Part α)) : Partial α :=
  parts.foldl (fun p part => p.addChild part.inst part.links part.flattened) p

variable {p : Partial α} {parts : List (Part α)}

theorem factors_addAll : (p.addAll parts).factors = p.factors ++ parts.map Part.factor := by
  induction parts generalizing p with
  | nil => exact (List.append_nil _).symm
  | cons part rest ih =>
      have unfolded : p.addAll (part :: rest) =
          (p.addChild part.inst part.links part.flattened).addAll rest := rfl
      rw [unfolded, ih, List.map_cons, List.append_cons]
      rfl

/-- What a part adds to the network, all parts add. -/
theorem addAll_iff {P : Partial α → Prop} {Q : Part α → Prop}
    (added : ∀ p part, P (p.addChild part.inst part.links part.flattened) ↔ P p ∨ Q part) :
    P (p.addAll parts) ↔ P p ∨ ∃ part ∈ parts, Q part := by
  induction parts generalizing p with
  | nil => simp [addAll]
  | cons part rest ih =>
      have unfolded : p.addAll (part :: rest) =
          (p.addChild part.inst part.links part.flattened).addAll rest := rfl
      rw [unfolded, ih, added, or_assoc, List.exists_mem_cons_iff]

/-- A variable of a network is its own, or a free one of a part. -/
theorem mem_vars_addAll {name : String} : name ∈ (p.addAll parts).scope.vars.toList ↔
    name ∈ p.scope.vars.toList ∨ ∃ part ∈ parts, ∃ x ∈ part.automaton.vars.toList,
      part.isFree x = true ∧ part.outer x = name := by
  refine addAll_iff (P := fun p => name ∈ p.scope.vars.toList) fun p part => ?_
  rw [addChild, NameSet.mem_insertAll, List.mem_map]
  simp only [List.mem_filter, and_assoc]
  rfl

theorem mem_constants_addAll {name : String} : name ∈ (p.addAll parts).scope.constants.keys ↔
    name ∈ p.scope.constants.keys ∨ ∃ part ∈ parts, ∃ x ∈ part.automaton.constants.keys,
      part.isFree x = true ∧ part.outer x = name := by
  refine addAll_iff (P := fun p => name ∈ p.scope.constants.keys) fun p part => ?_
  rw [addChild, NameMap.mem_keys_insertAll, List.map_map, List.mem_map]
  simp only [List.mem_filter, NameMap.keys, List.mem_map, exists_exists_and_eq_and, and_assoc]
  rfl

theorem mem_keys_aliases_addAll {key : String} : key ∈ (p.addAll parts).aliases.keys ↔
    key ∈ p.aliases.keys ∨ ∃ part ∈ parts, ∃ inner ∈ part.flattened.aliases.keys,
      part.inst ++ "." ++ inner = key := by
  refine addAll_iff (P := fun p => key ∈ p.aliases.keys) fun p part => ?_
  rw [addChild, NameMap.mem_keys_insertAll, List.map_map, List.mem_map]
  simp only [NameMap.keys, List.mem_map, exists_exists_and_eq_and]
  rfl

theorem mem_aliases_addAll {entry : String × String}
    (h : entry ∈ (p.addAll parts).aliases.entries) : entry ∈ p.aliases.entries ∨
      ∃ part ∈ parts, ∃ inner ∈ part.flattened.aliases.entries,
        entry = (part.inst ++ "." ++ inner.1, part.outer inner.2) := by
  induction parts generalizing p with
  | nil => exact .inl h
  | cons part rest ih =>
      have unfolded : p.addAll (part :: rest) =
          (p.addChild part.inst part.links part.flattened).addAll rest := rfl
      rw [unfolded] at h
      obtain h | ⟨part', mem, found⟩ := ih h
      · obtain h | h := NameMap.mem_of_mem_insertAll h
        · exact .inl h
        · obtain ⟨inner, mem, rfl⟩ := List.mem_map.mp h
          exact .inr ⟨part, List.mem_cons_self, inner, mem, rfl⟩
      · exact .inr ⟨part', List.mem_cons_of_mem _ mem, found⟩

end Flattened.Partial

open Flattened

/-- The parts are the instances with their flattened children, in order. -/
structure Flattens {taken : List String} (children : Children α taken) (parts : List (Part α)) :
    Prop where
  instances : parts.map (fun part => (part.inst, part.links, part.child)) = children.toList
  flattened : ∀ part ∈ parts, part.child.flatten = .ok part.flattened

theorem Flattens.mem_toList {children : Children α} {parts : List (Part α)}
    (h : Flattens children parts) {part : Part α} (mem : part ∈ parts) :
    (part.inst, part.links, part.child) ∈ children.toList :=
  h.instances ▸ List.mem_map_of_mem mem

/-- What a network that declares `scope` is flattened to. -/
structure NetworkOf (scope : Scope α) (children : Children α) (parts : List (Part α))
    (f : Flattened α) : Prop where
  flattens : Flattens children parts
  product : Product.ofFactors ((Partial.ofScope scope).addAll parts).scope
    (parts.map Part.factor) = .ok f.factor
  aliases : f.aliases = ((Partial.ofScope scope).addAll parts).aliases

namespace Component

theorem flattenChildren_eq_ok :
    ∀ {taken : List String} {children : Children α taken} {p p' : Partial α},
      flattenChildren p children = .ok p' →
        ∃ parts, Flattens children parts ∧ p' = p.addAll parts
  | _, .none, p, p', h => by
      cases h
      exact ⟨[], ⟨rfl, List.forall_mem_nil _⟩, rfl⟩
  | _, .more inst _ links child rest, p, p', h => by
      simp only [flattenChildren, bind_eq_ok_iff] at h
      obtain ⟨f, flattened, h⟩ := h
      obtain ⟨parts, others, rfl⟩ := flattenChildren_eq_ok h
      refine ⟨⟨inst, links, child, f⟩ :: parts, ⟨?_, ?_⟩, rfl⟩
      · rw [List.map_cons, others.instances, Children.toList]
      · exact List.forall_mem_cons.mpr ⟨flattened, others.flattened⟩

theorem flatten_network_eq_ok {scope : Scope α} {children : Children α} {f : Flattened α}
    (h : (network scope children).flatten = .ok f) :
    ∃ parts, NetworkOf scope children parts f := by
  simp only [flatten, bind_eq_ok_iff, pure_eq_ok_iff] at h
  obtain ⟨_, collected, factor, product, rfl⟩ := h
  obtain ⟨parts, flattens, rfl⟩ := flattenChildren_eq_ok collected
  rw [Partial.factors_addAll] at product
  exact ⟨parts, flattens, product, rfl⟩

/-- Induction over flattening: what all parts of a network have, the network has. -/
theorem flatten_induction {P : Component α → Flattened α → Prop}
    (flat : ∀ a, P (.flat a) (.ofAutomaton a))
    (network : ∀ scope children parts f, NetworkOf scope children parts f →
      (∀ part ∈ parts, P part.child part.flattened) → P (.network scope children) f)
    {c : Component α} {f : Flattened α} (h : c.flatten = .ok f) : P c f := by
  induction c using tree_induction generalizing f with
  | flat a =>
      cases h
      exact flat a
  | network scope children ih =>
      obtain ⟨parts, made⟩ := flatten_network_eq_ok h
      refine network scope children parts f made fun part mem => ?_
      exact ih _ (made.flattens.mem_toList mem) (made.flattens.flattened part mem)

end Component

namespace NetworkOf

variable {scope : Scope α} {children : Children α} {parts : List (Part α)} {f : Flattened α}

/-- What holds of all instances of a network holds of its parts. -/
theorem instances (h : NetworkOf scope children parts f)
    {P : Scope α → String → List Link → Component α → Prop}
    (all : (Component.network scope children).ForInstances P) {part : Part α}
    (mem : part ∈ parts) :
    P scope part.inst part.links part.child ∧ part.child.ForInstances P :=
  Component.forChildren_iff.mp all _ (h.flattens.mem_toList mem)

theorem members (h : NetworkOf scope children parts f) :
    (Component.network scope children).members =
      parts.flatMap fun part => part.child.members.map (.within part.inst part.links) := by
  rw [Component.members, Component.childMembers_eq, ← h.flattens.instances, List.flatMap_map]

theorem scopes (h : NetworkOf scope children parts f) :
    (Component.network scope children).scopes =
      .here scope ::
        parts.flatMap fun part => part.child.scopes.map (.within part.inst part.links) := by
  rw [Component.scopes, Component.childScopes_eq, ← h.flattens.instances, List.flatMap_map]

/-- A part of a network is the network itself or is found in an instance. -/
theorem mem_scopes (h : NetworkOf scope children parts f) {p : Place (Scope α)} :
    p ∈ (Component.network scope children).scopes ↔ p = .here scope ∨
      ∃ part ∈ parts, ∃ q ∈ part.child.scopes, q.within part.inst part.links = p := by
  simp [h.scopes]

theorem mem_members (h : NetworkOf scope children parts f) {p : Place (Automaton α)} :
    p ∈ (Component.network scope children).members ↔
      ∃ part ∈ parts, ∃ q ∈ part.child.members, q.within part.inst part.links = p := by
  simp [h.members]

theorem productOf (h : NetworkOf scope children parts f) : ∃ entries rows,
    Product.ProductOf ((Partial.ofScope scope).addAll parts).scope (parts.map Part.factor)
      entries rows f.factor :=
  Product.exists_productOf h.product

theorem scope_eq (h : NetworkOf scope children parts f) :
    f.factor.automaton.toScope = ((Partial.ofScope scope).addAll parts).scope := by
  obtain ⟨_, _, product⟩ := h.productOf
  exact product.scope

theorem mem_vars (h : NetworkOf scope children parts f) {name : String} :
    name ∈ f.factor.automaton.vars.toList ↔ name ∈ scope.vars.toList ∨
      ∃ part ∈ parts, ∃ x ∈ part.automaton.vars.toList,
        part.isFree x = true ∧ part.outer x = name := by
  rw [h.scope_eq]
  exact Partial.mem_vars_addAll

theorem mem_constants (h : NetworkOf scope children parts f) {name : String} :
    name ∈ f.factor.automaton.constants.keys ↔ name ∈ scope.constants.keys ∨
      ∃ part ∈ parts, ∃ x ∈ part.automaton.constants.keys,
        part.isFree x = true ∧ part.outer x = name := by
  rw [h.scope_eq]
  exact Partial.mem_constants_addAll

/-- Names of a child are declared by the network, linked or not. -/
theorem outer_mem_declared (h : NetworkOf scope children parts f) {part : Part α}
    (mem : part ∈ parts)
    (keeps : Component.KeepsInstance scope part.inst part.links part.child) {x : String}
    (declared : x ∈ part.automaton.declared) : part.outer x ∈ f.factor.automaton.declared := by
  rw [Scope.declared, List.mem_append, h.mem_vars, h.mem_constants]
  rw [Scope.declared, List.mem_append] at declared
  cases linked : Link.parentOf? part.links x with
  | some parent =>
      obtain ⟨link, linkMem, _, rfl⟩ := Link.mem_of_parentOf? linked
      rw [Part.outer, outerName_eq_of_parentOf? linked]
      exact (List.mem_append.mp (keeps.parents link linkMem)).imp .inl .inl
  | none =>
      have free : part.isFree x = true := by rw [Part.isFree, linked, Option.isNone_none]
      exact declared.imp (fun isVar => .inr ⟨part, mem, x, isVar, free, rfl⟩)
        fun isConstant => .inr ⟨part, mem, x, isConstant, free, rfl⟩

end NetworkOf

/-! ## Declarations -/

namespace Component

variable {c : Component α} {f : Flattened α}

/-- Every name of a tree has a declared name in the flat automaton. -/
theorem rename_mem_declared (h : c.flatten = .ok f) (instances : c.ForInstances KeepsInstance)
    {p : Place (Scope α)} (mem : p ∈ c.scopes) {x : String} (declared : x ∈ p.item.declared) :
    p.rename x ∈ f.factor.automaton.declared := by
  revert p
  refine flatten_induction (P := fun c f => c.ForInstances KeepsInstance →
    ∀ {p : Place (Scope α)}, p ∈ c.scopes → x ∈ p.item.declared →
      p.rename x ∈ f.factor.automaton.declared) ?_ ?_ h instances
  · intro a _ p mem declared
    rw [scopes, List.mem_singleton] at mem
    subst mem
    exact declared
  · intro scope children parts f made ih instances p mem declared
    obtain rfl | ⟨part, inParts, q, inChild, rfl⟩ := made.mem_scopes.mp mem
    · rw [Scope.declared, List.mem_append, made.mem_vars, made.mem_constants]
      exact (List.mem_append.mp declared).imp .inl .inl
    · obtain ⟨keeps, instances⟩ := made.instances instances inParts
      exact made.outer_mem_declared inParts keeps (ih part inParts instances inChild declared)

/-- The variables of the flat automaton are qualified names of variables of the tree. -/
theorem exists_of_mem_vars (h : c.flatten = .ok f) {name : String}
    (mem : name ∈ f.factor.automaton.vars.toList) :
    ∃ p ∈ c.scopes, ∃ x ∈ p.item.vars.toList, p.path.qualify x = name := by
  refine flatten_induction (P := fun c f => ∀ name ∈ f.factor.automaton.vars.toList,
    ∃ p ∈ c.scopes, ∃ x ∈ p.item.vars.toList, p.path.qualify x = name) ?_ ?_ h name mem
  · intro a name mem
    exact ⟨.here a.toScope, List.mem_singleton_self _, name, mem, Path.qualify_root name⟩
  · intro scope children parts f made ih name mem
    obtain own | ⟨part, inParts, y, isVar, free, rfl⟩ := made.mem_vars.mp mem
    · exact ⟨.here scope, made.mem_scopes.mpr (.inl rfl), name, own, Path.qualify_root name⟩
    · obtain ⟨q, inChild, x, declared, rfl⟩ := ih part inParts y isVar
      refine ⟨_, made.mem_scopes.mpr (.inr ⟨part, inParts, q, inChild, rfl⟩), x, declared, ?_⟩
      rw [Place.path_within, Path.qualify_below, Part.outer_of_isFree free]

/-- The constants of the flat automaton are qualified names of constants of the tree. -/
theorem exists_of_mem_constants (h : c.flatten = .ok f) {name : String}
    (mem : name ∈ f.factor.automaton.constants.keys) :
    ∃ p ∈ c.scopes, ∃ x ∈ p.item.constants.keys, p.path.qualify x = name := by
  refine flatten_induction (P := fun c f => ∀ name ∈ f.factor.automaton.constants.keys,
    ∃ p ∈ c.scopes, ∃ x ∈ p.item.constants.keys, p.path.qualify x = name) ?_ ?_ h name mem
  · intro a name mem
    exact ⟨.here a.toScope, List.mem_singleton_self _, name, mem, Path.qualify_root name⟩
  · intro scope children parts f made ih name mem
    obtain own | ⟨part, inParts, y, isConstant, free, rfl⟩ := made.mem_constants.mp mem
    · exact ⟨.here scope, made.mem_scopes.mpr (.inl rfl), name, own, Path.qualify_root name⟩
    · obtain ⟨q, inChild, x, declared, rfl⟩ := ih part inParts y isConstant
      refine ⟨_, made.mem_scopes.mpr (.inr ⟨part, inParts, q, inChild, rfl⟩), x, declared, ?_⟩
      rw [Place.path_within, Path.qualify_below, Part.outer_of_isFree free]

/-! ## The table of names -/

/-- An entry of the table is a qualified name of the tree with the name it has in the flat
automaton. -/
theorem exists_of_mem_aliases (h : c.flatten = .ok f) {entry : String × String}
    (mem : entry ∈ f.aliases.entries) :
    ∃ p ∈ c.scopes, ∃ x ∈ p.item.declared, entry = (p.path.qualify x, p.rename x) := by
  have own {scope : Scope α} {entry : String × String}
      (mem : entry ∈ (Partial.ofScope scope).aliases.entries) :
      ∃ x ∈ scope.declared, entry = (Path.root.qualify x, x) := by
    obtain ⟨x, declared, rfl⟩ := List.mem_map.mp (NameMap.mem_of_mem_ofList mem)
    exact ⟨x, declared, by rw [Path.qualify_root]⟩
  refine flatten_induction (P := fun c f => ∀ entry ∈ f.aliases.entries,
    ∃ p ∈ c.scopes, ∃ x ∈ p.item.declared, entry = (p.path.qualify x, p.rename x)) ?_ ?_ h entry mem
  · intro a entry mem
    exact ⟨.here a.toScope, List.mem_singleton_self _, own mem⟩
  · intro scope children parts f made ih entry mem
    rw [made.aliases] at mem
    obtain mem | ⟨part, inParts, inner, stored, rfl⟩ := Partial.mem_aliases_addAll mem
    · exact ⟨.here scope, made.mem_scopes.mpr (.inl rfl), own mem⟩
    · obtain ⟨q, inChild, x, declared, rfl⟩ := ih part inParts inner stored
      refine ⟨_, made.mem_scopes.mpr (.inr ⟨part, inParts, q, inChild, rfl⟩), x, declared, ?_⟩
      rw [Place.path_within, Path.qualify_below]
      rfl

/-- Every qualified name of the tree is in the table. -/
theorem qualify_mem_aliases (h : c.flatten = .ok f) {p : Place (Scope α)} (mem : p ∈ c.scopes)
    {x : String} (declared : x ∈ p.item.declared) : p.path.qualify x ∈ f.aliases.keys := by
  have own {scope : Scope α} (declared : x ∈ scope.declared) :
      Path.root.qualify x ∈ (Partial.ofScope scope).aliases.keys := by
    rw [Partial.ofScope, NameMap.mem_keys_ofList, List.map_map, Path.qualify_root]
    exact List.mem_map.mpr ⟨x, declared, rfl⟩
  revert p
  refine flatten_induction (P := fun c f => ∀ {p : Place (Scope α)}, p ∈ c.scopes →
    x ∈ p.item.declared → p.path.qualify x ∈ f.aliases.keys) ?_ ?_ h
  · intro a p mem declared
    rw [scopes, List.mem_singleton] at mem
    subst mem
    exact own declared
  · intro scope children parts f made ih p mem declared
    rw [made.aliases, Partial.mem_keys_aliases_addAll]
    obtain rfl | ⟨part, inParts, q, inChild, rfl⟩ := made.mem_scopes.mp mem
    · exact .inl (own declared)
    · rw [Place.path_within, Path.qualify_below]
      exact .inr ⟨part, inParts, _, ih part inParts inChild declared, rfl⟩

/-- A name of the tree is looked up as one of those that have this qualified name. -/
theorem exists_nameOf (h : c.flatten = .ok f) {p : Place (Scope α)} (mem : p ∈ c.scopes)
    {x : String} (declared : x ∈ p.item.declared) :
    ∃ q ∈ c.scopes, ∃ y ∈ q.item.declared, q.path.qualify y = p.path.qualify x ∧
      f.nameOf (p.path.qualify x) = q.rename y := by
  obtain ⟨value, found⟩ := NameMap.mem_keys_iff.mp (qualify_mem_aliases h mem declared)
  obtain ⟨q, inTree, y, declared', eq⟩ :=
    exists_of_mem_aliases h (NameMap.find?_eq_some_iff.mp found)
  obtain ⟨names, values⟩ := Prod.mk.inj eq
  refine ⟨q, inTree, y, declared', names.symm, ?_⟩
  rw [nameOf, found, Option.getD_some, values]

end Component

/-! ## Models -/

/-- The model with a flattened root, and with regions and plot in the names of that root. -/
def Flattened.model (f : Flattened α) (m : Model α) : Model α where
  root := .flat f.factor.automaton
  init := f.regions (f.initial? m.init)
  forbidden := f.regions (f.forbidden? m.forbidden)
  settings := { m.settings with
    plot := (f.nameOf m.settings.plot.1, f.nameOf m.settings.plot.2) }

theorem Model.flatten_network_eq_ok {m m' : Model α} (network : m.root.isFlat = false)
    (h : m.flatten = .ok m') : ∃ f, m.root.flatten = .ok f ∧ m' = f.model m := by
  rw [flatten, network] at h
  simp only [Bool.false_eq_true, if_false, bind_eq_ok_iff, pure_eq_ok_iff] at h
  obtain ⟨f, flattened, rfl⟩ := h
  exact ⟨f, flattened, rfl⟩

/-- Regions are made for modes, from leaves. -/
theorem Flattened.mem_regions {f : Flattened α} {region? : List Leaf → Option (Expr α)}
    {entry : String × Expr α} (mem : entry ∈ (f.regions region?).entries) :
    entry.1 ∈ f.factor.automaton.modes.keys ∧ ∃ leaves, region? leaves = some entry.2 := by
  obtain ⟨⟨key, leaves⟩, zipped, eq⟩ := List.mem_filterMap.mp (NameMap.mem_of_mem_ofList mem)
  obtain ⟨region, found, rfl⟩ := Option.map_eq_some_iff.mp eq
  exact ⟨(List.of_mem_zip zipped).1, leaves, found⟩

end HybridAutomata
