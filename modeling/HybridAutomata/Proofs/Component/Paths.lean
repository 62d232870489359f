import HybridAutomata.Proofs.Flatten.SimpleNames

/-!
# Paths in a tree

Every component keeps the path that leads to it, although the tree says the same: the names of the
instances on the way down. Here the way is a relation of its own, without paths and without
look-ups. In a tree that is put together by adding children, what every component keeps is the way
to it, looking up a path follows it, and the list of the flat automata has each of them once.

What carries this is what one addition does. The new child and everything in it are moved below the
network, an instance of the same name gives up its place together with all that was below it, and
nothing else changes. A child may come with paths of its own, which are forgotten.
-/

namespace HybridAutomata

variable {α : Type}

namespace Component

/-- Instance names lead from a component down to a part of it. -/
inductive Leads : Component α → List String → Component α → Prop
  | here (c : Component α) : Leads c [] c
  | into {scope : Scope α} {children : Children α} {inst : String} {links : List Link}
      {child part : Component α} {names : List String}
      (mem : (inst, links, child) ∈ children.toList) (below : Leads child names part) :
      Leads (network scope children) (inst :: names) part

section

variable {c part : Component α} {inst : String} {names : List String}

@[simp] theorem leads_nil_iff : Leads c [] part ↔ part = c := by
  constructor
  · rintro ⟨⟩
    rfl
  · rintro rfl
    exact .here part

theorem leads_network_iff {scope : Scope α} {children : Children α} :
    Leads (network scope children) (inst :: names) part ↔
      ∃ links child, (inst, links, child) ∈ children.toList ∧ Leads child names part := by
  constructor
  · rintro (_ | ⟨mem, below⟩)
    exact ⟨_, _, mem, below⟩
  · rintro ⟨links, child, mem, below⟩
    exact .into mem below

/-- Nothing is below a flat automaton. -/
theorem not_leads_flat {a : Automaton α} : ¬Leads (flat a) (inst :: names) part := by
  rintro ⟨⟩

end

/-! ## Moving -/

@[simp] theorem path_moveTo (path : Path) (c : Component α) : (c.moveTo path).path = path := by
  cases c <;> rfl

theorem toList_moveChildren {taken : List String} (path : Path) (children : Children α taken) :
    (moveChildren path children).toList = children.toList.map fun (inst, links, child) =>
      (inst, links, child.moveTo (path.child inst)) := by
  induction children with
  | none => rfl
  | more inst _ links child rest ih =>
      rw [moveChildren, Children.toList, ih, Children.toList, List.map_cons]

/-- Moving a component moves each of its parts below the new path, and changes nothing else. -/
theorem leads_moveTo_iff {path : Path} {c part : Component α} {names : List String} :
    Leads (c.moveTo path) names part ↔
      ∃ old, Leads c names old ∧ part = old.moveTo ⟨path.segments ++ names⟩ := by
  induction c using tree_induction generalizing path names with
  | flat a =>
      cases names with
      | nil => simp
      | cons inst names => simp [moveTo, not_leads_flat]
  | network scope children ih =>
      cases names with
      | nil => simp
      | cons inst names =>
          rw [moveTo, leads_network_iff, toList_moveChildren]
          have shift : (path.child inst).segments ++ names = path.segments ++ inst :: names := by
            simp [Path.child]
          constructor
          · rintro ⟨links, child, mem, below⟩
            obtain ⟨⟨inst', links', old⟩, present, ⟨⟩⟩ := List.mem_map.mp mem
            obtain ⟨part', below', rfl⟩ := (ih _ present).mp below
            exact ⟨part', .into present below', congrArg (moveTo ⟨·⟩ part') shift⟩
          · rintro ⟨old, leads, rfl⟩
            obtain ⟨links, child, present, below⟩ := leads_network_iff.mp leads
            refine ⟨links, child.moveTo (path.child inst), List.mem_map.mpr ⟨_, present, rfl⟩,
              (ih _ present).mpr ⟨old, below, ?_⟩⟩
            exact congrArg (moveTo ⟨·⟩ old) shift.symm

/-! ## Adding a child -/

section

variable {scope : Scope α} {children : Children α} {name inst : String} {links : List Link}
  {child part : Component α} {names : List String}

/-- What is below an instance of a network after a child has been added: below the new child what
was below it before, moved to its place, and below the other instances what was there. -/
theorem leads_addChild_iff :
    Leads ((network scope children).addChild name links child) (inst :: names) part ↔
      if inst = name then
        ∃ old, Leads child names old ∧ part = old.moveTo ⟨scope.path.segments ++ inst :: names⟩
      else Leads (network scope children) (inst :: names) part := by
  rw [addChild, leads_network_iff]
  simp only [mem_toList_insert_iff, Prod.mk.injEq]
  split
  · next same =>
      subst same
      have shift : (scope.path.child inst).segments ++ names =
          scope.path.segments ++ inst :: names := by simp [Path.child]
      constructor
      · rintro ⟨_, _, ⟨_, rfl, rfl⟩ | ⟨other, _⟩, below⟩
        · obtain ⟨old, leads, rfl⟩ := leads_moveTo_iff.mp below
          exact ⟨old, leads, congrArg (moveTo ⟨·⟩ old) shift⟩
        · exact absurd rfl other
      · rintro ⟨old, leads, rfl⟩
        refine ⟨links, _, .inl ⟨rfl, rfl, rfl⟩, leads_moveTo_iff.mpr ⟨old, leads, ?_⟩⟩
        exact congrArg (moveTo ⟨·⟩ old) shift.symm
  · next other => simp [other, leads_network_iff]

end

/-- Every part keeps the way to it. -/
def KnowsPaths (c : Component α) : Prop :=
  ∀ names part, Leads c names part → part.path = ⟨c.path.segments ++ names⟩

theorem KnowsPaths.child {scope : Scope α} {children : Children α}
    (h : (network scope children).KnowsPaths) {entry : String × List Link × Component α}
    (mem : entry ∈ children.toList) : entry.2.2.KnowsPaths := by
  intro names part leads
  have own : entry.2.2.path = ⟨scope.path.segments ++ [entry.1]⟩ := h _ _ (.into mem (.here _))
  have below : part.path = ⟨scope.path.segments ++ entry.1 :: names⟩ := h _ _ (.into mem leads)
  rw [own, below, List.append_assoc, List.singleton_append]

/-- Adding a child keeps this, whatever the child and its parts kept before. -/
theorem KnowsPaths.addChild {c : Component α} (h : c.KnowsPaths) (name : String)
    (links : List Link) (child : Component α) :
    (c.addChild name links child).KnowsPaths := by
  cases c with
  | flat a => exact h
  | network scope children =>
      intro names part leads
      cases names with
      | nil =>
          obtain rfl := leads_nil_iff.mp leads
          simp
      | cons inst names =>
          rw [leads_addChild_iff] at leads
          split at leads
          · obtain ⟨old, _, rfl⟩ := leads
            exact path_moveTo _ old
          · exact h _ _ leads

/-! ## Looking up -/

theorem find?_children_eq_some_iff {taken : List String} {inst : String} {child : Component α}
    {children : Children α taken} :
    children.find? inst = some child ↔ ∃ links, (inst, links, child) ∈ children.toList := by
  induction children with
  | none => simp [Children.find?, Children.toList]
  | more key _ links child' rest ih =>
      rw [Children.find?, Children.toList]
      split
      · next same =>
          subst same
          have others (links' : List Link) : (key, links', child) ∉ rest.toList := fun mem =>
            Children.notMem_taken mem List.mem_cons_self
          simp [others, eq_comm]
      · next other =>
          simp [ih, Ne.symm other]

/-- Following names downwards finds what they lead to. -/
theorem descend?_eq_some_iff {c part : Component α} {names : List String} :
    descend? names c = some part ↔ Leads c names part := by
  induction names generalizing c with
  | nil => simp [descend?, eq_comm]
  | cons inst names ih =>
      cases c with
      | flat a => simp [descend?, not_leads_flat]
      | network scope children =>
          rw [descend?, leads_network_iff, Option.bind_eq_some_iff]
          constructor
          · rintro ⟨child, found, rest⟩
            obtain ⟨links, mem⟩ := find?_children_eq_some_iff.mp found
            exact ⟨links, child, mem, ih.mp rest⟩
          · rintro ⟨links, child, mem, rest⟩
            exact ⟨child, find?_children_eq_some_iff.mpr ⟨links, mem⟩, ih.mpr rest⟩

/-- A path is found exactly if it continues the path of the component with names that lead to a
part, and then that part is found. -/
theorem find?_eq_some_iff {c part : Component α} {path : Path} (knows : c.KnowsPaths) :
    c.find? path = some part ↔
      ∃ names, path = ⟨c.path.segments ++ names⟩ ∧ Leads c names part := by
  have found : c.find? path = some part ↔ ¬path.segments.length < c.path.segments.length ∧
      Leads c (path.segments.drop c.path.segments.length) part ∧ part.path = path := by
    rw [find?, ← descend?_eq_some_iff]
    simp [Option.filter_eq_some_iff]
  rw [found]
  constructor
  · rintro ⟨_, leads, same⟩
    exact ⟨_, same.symm.trans (knows _ _ leads), leads⟩
  · rintro ⟨names, rfl, leads⟩
    refine ⟨by simp, ?_, knows _ _ leads⟩
    simpa using leads

/-! ## Listing the automata -/

theorem mem_automata_iff {c : Component α} {a : Automaton α} :
    a ∈ c.automata ↔ ∃ names, Leads c names (flat a) := by
  induction c using tree_induction with
  | flat b =>
      rw [automata, List.mem_singleton]
      constructor
      · rintro rfl
        exact ⟨[], .here _⟩
      · rintro ⟨names, ⟨⟩⟩
        rfl
  | network scope children ih =>
      rw [automata, childAutomata_eq, List.mem_flatMap]
      constructor
      · rintro ⟨entry, mem, inside⟩
        obtain ⟨names, leads⟩ := (ih entry mem).mp inside
        exact ⟨entry.1 :: names, .into mem leads⟩
      · rintro ⟨names, _ | ⟨mem, below⟩⟩
        exact ⟨_, mem, (ih _ mem).mpr ⟨_, below⟩⟩

/-- No two automata of the list are in the same place. -/
theorem nodup_paths_automata {c : Component α} (knows : c.KnowsPaths) :
    (c.automata.map fun a => a.path).Nodup := by
  induction c using tree_induction with
  | flat a => exact List.nodup_singleton _
  | network scope children ih =>
      -- an automaton below an instance has the name of the instance behind the path of the network
      have path {entry : String × List Link × Component α} (mem : entry ∈ children.toList)
          {a : Automaton α} (inside : a ∈ entry.2.2.automata) :
          ∃ names, a.path = ⟨scope.path.segments ++ entry.1 :: names⟩ := by
        obtain ⟨names, leads⟩ := mem_automata_iff.mp inside
        exact ⟨names, knows _ _ (.into mem leads)⟩
      rw [automata, childAutomata_eq, List.map_flatMap, List.nodup_flatMap]
      constructor
      · intro entry mem
        exact ih entry mem (knows.child mem)
      · refine (List.pairwise_map.mp (Children.nodup_names children)).imp_of_mem ?_
        intro entry entry' mem mem' other p inside inside'
        obtain ⟨a, listed, rfl⟩ := List.mem_map.mp inside
        obtain ⟨a', listed', same⟩ := List.mem_map.mp inside'
        obtain ⟨names, here⟩ := path mem listed
        obtain ⟨names', there⟩ := path mem' listed'
        rw [here, there, Path.mk.injEq, List.append_cancel_left_eq, List.cons.injEq] at same
        exact other same.1.symm

/-! ## Trees put together -/

/-- A flat automaton, a network without children, and a network to which a tree put together in
the same way has been added. Wherever the pieces were before, they are moved when they are added. -/
inductive Built : Component α → Prop
  | flat (a : Automaton α) : Built (flat a)
  | network (scope : Scope α) : Built (network scope .none)
  | add {c child : Component α} (name : String) (links : List Link) (parent : Built c)
      (below : Built child) : Built (c.addChild name links child)

theorem Built.knowsPaths {c : Component α} (h : Built c) : c.KnowsPaths := by
  induction h with
  | flat a =>
      rintro names part ⟨⟩
      simp
  | network scope =>
      rintro names part (_ | ⟨⟨⟩, _⟩)
      simp
  | add name links _ _ knows _ => exact knows.addChild name links _

/-- In a tree put together at the root, every part keeps the names that lead to it as its path,
looking up a path finds what its names lead to and nothing else, and the flat automata of the tree
are listed once each: an automaton to which names lead is the one entry with that path, and there
are no other entries. -/
theorem Built.paths_consistent {c : Component α} (h : Built c) (atRoot : c.path = .root) :
    (∀ names part, Leads c names part → part.path = ⟨names⟩) ∧
      (∀ names part, c.find? ⟨names⟩ = some part ↔ Leads c names part) ∧
      (c.automata.map fun a => a.path).Nodup ∧
      ∀ names a, Leads c names (.flat a) ↔ a ∈ c.automata ∧ a.path = ⟨names⟩ := by
  have knows : ∀ names part, Leads c names part → part.path = ⟨names⟩ := by
    intro names part leads
    simpa [atRoot, Path.root] using h.knowsPaths names part leads
  refine ⟨knows, ?_, nodup_paths_automata h.knowsPaths, ?_⟩
  · intro names part
    rw [find?_eq_some_iff h.knowsPaths, atRoot]
    simp [Path.root]
  · intro names a
    constructor
    · intro leads
      exact ⟨mem_automata_iff.mpr ⟨names, leads⟩, knows names _ leads⟩
    · rintro ⟨listed, path⟩
      obtain ⟨names', leads⟩ := mem_automata_iff.mp listed
      obtain rfl : names' = names := Path.mk.inj ((knows names' _ leads).symm.trans path)
      exact leads

/-- A network with a gauge and a hall; the hall was a flat automaton at first, and then a network
with a basin took its place. -/
def station : Component Float :=
  ((addChild (network {} .none) "hall" [] (.flat {})).addChild "gauge" [] (.flat {})).addChild
    "hall" [] (addChild (network {} .none) "basin" [] (.flat {}))

theorem Built.paths_consistent_station :
    Built station ∧ station.path = .root ∧
      station.automata.map (fun a => a.path) = [⟨["hall", "basin"]⟩, ⟨["gauge"]⟩] ∧
      station.find? ⟨["hall", "basin"]⟩ = some (.flat { path := ⟨["hall", "basin"]⟩ }) ∧
      Leads station ["hall", "basin"] (.flat { path := ⟨["hall", "basin"]⟩ }) := by
  have built : Built station :=
    .add _ _ (.add _ _ (.add _ _ (.network _) (.flat _)) (.flat _))
      (.add _ _ (.network _) (.flat _))
  have found : station.find? ⟨["hall", "basin"]⟩ =
      some (.flat { path := ⟨["hall", "basin"]⟩ }) := rfl
  exact ⟨built, rfl, rfl, found, ((built.paths_consistent rfl).2.1 _ _).mp found⟩

end Component

end HybridAutomata
