import Mathlib.Logic.Relation
import HybridAutomata.Proofs.Flatten.Interleaving

/-!
# What flattening merges

Names are arbitrary, so names that were different can become one: joined mode names, qualified
names, and names of a child that an instance links to one name of the network. The product reports a
variable with two rates, but maps that are built anew with other names do not. Flattening loses
nothing if this does not happen: then there is a mode for each state, names become one only along
links, and every rate and every new value of the flat automata is found in the product.
-/

namespace HybridAutomata

open Flattened Success

variable {α : Type}

namespace Component

/-! ## Linked names -/

/-- The link that counts for a name of a child leads to a name of the network. A name is given with
the path to the part that declares it. -/
inductive LinkedUp : Component α → Path × String → Path × String → Prop where
  | here {scope : Scope α} {children : Children α} {inst : String} {links : List Link}
      {child : Component α} {x parent : String} (mem : (inst, links, child) ∈ children.toList)
      (linked : Link.parentOf? links x = some parent) :
      LinkedUp (network scope children) (.below inst .root, x) (.root, parent)
  | inside {scope : Scope α} {children : Children α} {inst : String} {links : List Link}
      {child : Component α} {p q : Path} {x y : String}
      (mem : (inst, links, child) ∈ children.toList) (linked : LinkedUp child (p, x) (q, y)) :
      LinkedUp (network scope children) (.below inst p, x) (.below inst q, y)

/-- Two names are linked if links lead from one to the other. -/
def Linked (c : Component α) : Path × String → Path × String → Prop := Relation.EqvGen c.LinkedUp

theorem Linked.below {scope : Scope α} {children : Children α} {inst : String} {links : List Link}
    {child : Component α} {a b : Path × String} (h : child.Linked a b)
    (mem : (inst, links, child) ∈ children.toList) :
    (network scope children).Linked (a.1.below inst, a.2) (b.1.below inst, b.2) := by
  induction h with
  | rel a b linked => exact .rel _ _ (.inside mem linked)
  | refl a => exact .refl _
  | symm a b _ ih => exact .symm _ _ ih
  | trans a b c _ _ first second => exact .trans _ _ _ first second

theorem DistinctNames.child {scope : Scope α} {children : Children α}
    (h : (network scope children).DistinctNames) {entry : String × List Link × Component α}
    (mem : entry ∈ children.toList) : entry.2.2.DistinctNames := by
  intro p hp q hq x hx y hy same
  obtain ⟨paths, names⟩ := h _ (within_mem_scopes mem hp) _ (within_mem_scopes mem hq) x hx y hy
    (by rw [Place.path_within, Place.path_within, Path.qualify_below, Path.qualify_below, same])
  simp only [Place.path_within, Path.below, Path.mk.injEq, List.cons.injEq, true_and] at paths
  exact ⟨congrArg Path.mk paths, names⟩

/-- The name that a declared name gets is the qualified name of one that it is linked to. -/
theorem exists_linked {c : Component α} (instances : c.ForInstances KeepsInstance)
    (distinct : c.DistinctNames) {p : Place (Scope α)} (mem : p ∈ c.scopes) {x : String}
    (declared : x ∈ p.item.declared) : ∃ q ∈ c.scopes, ∃ y ∈ q.item.declared,
      c.Linked (p.path, x) (q.path, y) ∧ p.rename x = q.path.qualify y := by
  induction c using tree_induction generalizing p with
  | flat a =>
      rw [scopes, List.mem_singleton] at mem
      subst mem
      exact ⟨_, List.mem_singleton_self _, x, declared, .refl _, (Path.qualify_root x).symm⟩
  | network scope children ih =>
      obtain rfl | ⟨⟨inst, links, child⟩, listed, p, inside, rfl⟩ := mem_scopes_network.mp mem
      · exact ⟨_, List.mem_cons_self, x, declared, .refl _, (Path.qualify_root x).symm⟩
      obtain ⟨keeps, instances⟩ := forChildren_iff.mp instances _ listed
      obtain ⟨q, inChild, y, hy, linked, name⟩ :=
        ih _ listed instances (distinct.child listed) inside declared
      have linked : (network scope children).Linked _ _ := linked.below listed
      cases up : Link.parentOf? links (p.rename x) with
      | none =>
          refine ⟨_, within_mem_scopes listed inChild, y, hy, linked, ?_⟩
          rw [Place.rename_within, Function.comp_apply, outerName_eq_of_not_linked up, name,
            Place.path_within, Path.qualify_below]
      | some parent =>
          obtain ⟨link, inLinks, same, rfl⟩ := Link.mem_of_parentOf? up
          -- Links are for names that the child itself declares, so this is the name that was found.
          have root : q.path = .root ∧ y = link.child :=
            distinct.child listed q inChild (.here child.scope) (here_mem_scopes child) y hy
              link.child (keeps.children link inLinks)
              (by rw [← name, ← same, Place.path_here, Path.qualify_root])
          rw [root.1, root.2] at linked
          refine ⟨.here scope, List.mem_cons_self, link.parent, keeps.parents link inLinks,
            .trans _ _ _ linked (.rel _ _ (.here listed (same ▸ up))), ?_⟩
          rw [Place.rename_within, Function.comp_apply, outerName_eq_of_parentOf? up,
            Place.path_here, Path.qualify_root]

/-- Names of the tree that become one are linked. -/
theorem linked_of_rename_eq {c : Component α} (instances : c.ForInstances KeepsInstance)
    (distinct : c.DistinctNames) {p q : Place (Scope α)} (hp : p ∈ c.scopes) (hq : q ∈ c.scopes)
    {x y : String} (hx : x ∈ p.item.declared) (hy : y ∈ q.item.declared)
    (same : p.rename x = q.rename y) : c.Linked (p.path, x) (q.path, y) := by
  obtain ⟨p', hp', x', hx', linked, name⟩ := exists_linked instances distinct hp hx
  obtain ⟨q', hq', y', hy', linked', name'⟩ := exists_linked instances distinct hq hy
  obtain ⟨paths, names⟩ := distinct p' hp' q' hq' x' hx' y' hy' (name ▸ name' ▸ same)
  rw [paths, names] at linked
  exact .trans _ _ _ linked (.symm _ _ linked')

end Component

/-! ## Rates and new values -/

/-- Every rate and every new value of the flat automata of a tree is found in the modes and
transitions that are made from them, except where a mode has no flow because a part has none. -/
structure Automaton.HasEntriesOf (a : Automaton α) (c : Component α) : Prop where
  rates : ∀ s ∈ c.states, s.hasFlow = true → ∃ m, a.mode? (c.stateName s.modeNames) = some m ∧
    ∀ l ∈ s, ∀ entry ∈ l.mode.flows, renameEntry l.place.rename entry ∈ m.flows
  /-- All transitions that leave the modes of a state make jumps. -/
  jumps : ∀ s ∈ c.states, s.jumps.map LocalJump.transition =
    s.flatMap fun l => l.place.item.transitionsFrom l.mode.name
  newValues : ∀ s ∈ c.states, ∀ jump ∈ s.jumps,
    ∃ t ∈ a.transitionsFrom (c.stateName s.modeNames),
      t.target = c.stateName jump.target.modeNames ∧
      ∀ entry ∈ jump.transition.reset.entries,
        renameEntry jump.place.rename entry ∈ t.reset.entries

section

variable [Scalar α]

theorem Automaton.Interleaves.hasEntriesOf {a : Automaton α} {c : Component α}
    (h : a.Interleaves c) (instances : c.ForInstances Component.KeepsEntries) :
    a.HasEntriesOf c where
  rates := by
    intro s mem flowing
    obtain ⟨m, found, _, joint⟩ := h.modes s mem
    refine ⟨m, found, fun l inState entry stored => ?_⟩
    rw [joint.flows flowing]
    exact List.mem_flatMap.mpr ⟨l, inState, List.mem_map_of_mem stored⟩
  jumps := h.jumps
  newValues := by
    intro s mem jump taken
    refine ⟨jump.transitionFrom c.stateName s, ?_, rfl, fun entry stored => ?_⟩
    · refine List.mem_filter.mpr ⟨?_, beq_self_eq_true _⟩
      rw [h.transitions]
      exact List.mem_flatMap.mpr ⟨s, mem, List.mem_map_of_mem taken⟩
    · obtain ⟨before, l, after, mode, rfl, place, leaves, _⟩ := JointState.mem_jumps_iff.mp taken
      have inTree :=
        Component.place_mem_members mem (List.mem_append_right before List.mem_cons_self)
      have apart := Component.injOn_assigned instances inTree (List.mem_of_mem_filter leaves)
      rw [← place] at apart
      have kept := entries_renameAssignments apart
      exact kept ▸ List.mem_map_of_mem stored

namespace Model

/-- Flattening makes a mode for each state exactly if the names of the states are different. If
qualified names are different, names become one only where they are linked. If states have different
names and no instance joins two rates or new values, all rates and new values are kept. -/
theorem flatten_keeps_apart {m m' : Model α} (valid : m.Valid) (network : m.root.isFlat = false)
    (success : m.flatten = .ok m') : ∃ a, m'.root = .flat a ∧
      (a.modes.size = (m.root.automata.map fun leaf => leaf.modes.size).prod ↔
        m.root.DistinctStates) ∧
      (∀ p ∈ m.root.scopes, ∀ x ∈ p.item.declared, p.rename x ∈ a.declared ∧
        (m.root.DistinctNames → ∀ q ∈ m.root.scopes, ∀ y ∈ q.item.declared,
          p.rename x = q.rename y → m.root.Linked (p.path, x) (q.path, y))) ∧
      (m.root.DistinctStates → m.root.ForInstances Component.KeepsEntries →
        a.HasEntriesOf m.root) := by
  have sound := valid_iff.mp valid
  obtain ⟨f, flattened, rfl⟩ := flatten_network_eq_ok network success
  have named := Component.named_of_flatten flattened
    fun p mem => (sound.root.of_mem_members mem).stored
  refine ⟨f.factor.automaton, rfl, ?_, ?_, ?_⟩
  · rw [← Component.length_states, Component.DistinctStates, ← named.size_eq_iff,
      Component.stateNames, List.length_map]
  · intro p hp x hx
    refine ⟨Component.rename_mem_declared flattened sound.root.instances hp hx, ?_⟩
    intro distinct q hq y hy same
    exact Component.linked_of_rename_eq sound.root.instances distinct hp hq hx hy same
  · intro states instances
    have separable : m.root.Separable := ⟨fun p => sound.root.of_mem_members, states, instances⟩
    exact (Component.interleaves_network flattened separable network).hasEntriesOf instances

end Model

end

/-- A basin whose level and inflow are one name of the network, in an instance with a point in its
name, beside a valve. -/
def loopedBasin : Model (Extended ℚ) where
  root := Component.addChild
    (Component.addChild (.network { vars := .ofList ["stream"] } .none) "south.basin"
      [⟨"stream", "level"⟩, ⟨"stream", "inflow"⟩] (.flat basin))
    "valve" [] (.flat valve)
  settings := .initial

/-- Only one of the two names has a rate, so nothing is lost. -/
theorem loopedBasin_flatten_keeps_apart : loopedBasin.Valid ∧ loopedBasin.root.isFlat = false ∧
    loopedBasin.root.DistinctStates ∧ loopedBasin.root.DistinctNames ∧
    loopedBasin.root.ForInstances Component.KeepsEntries ∧
    ∃ m' a, loopedBasin.flatten = .ok m' ∧ m'.root = .flat a ∧ a.modes.size = 2 ∧
      a.HasEntriesOf loopedBasin.root := by
  have valid : loopedBasin.Valid := by
    rw [Model.Valid]
    decide +kernel
  have states : loopedBasin.root.DistinctStates := by
    rw [Component.DistinctStates]
    decide +kernel
  have names : loopedBasin.root.DistinctNames := by
    rw [Component.DistinctNames]
    decide +kernel
  have instances : loopedBasin.root.ForInstances Component.KeepsEntries := by
    refine ⟨?_, trivial, ?_, trivial, trivial⟩ <;>
      exact .of_nodup (by decide +kernel) (by decide +kernel)
  obtain ⟨m', success⟩ : ∃ m', loopedBasin.flatten = .ok m' := ⟨_, rfl⟩
  obtain ⟨a, root, size, _, entries⟩ := Model.flatten_keeps_apart valid rfl success
  refine ⟨valid, rfl, states, names, instances, m', a, success, root, (size.mpr states).trans ?_,
    entries states instances⟩
  decide +kernel

/-- A basin with an inflow that grows. -/
def swellingBasin : Automaton (Extended ℚ) := { basin with
  modes := .ofList [("fill", {
    name := "fill"
    flow := some (.ofList [("level", .exact (.var "inflow")), ("inflow", .exact (.num 1))]) })] }

/-- A network in which its level and its inflow are one name. -/
def joinedRates : Model (Extended ℚ) where
  root := Component.addChild (.network { vars := .ofList ["stream"] } .none) "basin"
    [⟨"stream", "level"⟩, ⟨"stream", "inflow"⟩] (.flat swellingBasin)
  settings := .initial

/-- The rate of the level is lost, and no error is reported. -/
theorem joinedRates_flatten_loses : joinedRates.Valid ∧ joinedRates.root.isFlat = false ∧
    ∃ m' a, joinedRates.flatten = .ok m' ∧ m'.root = .flat a ∧
      ¬a.HasEntriesOf joinedRates.root := by
  have valid : joinedRates.Valid := by
    rw [Model.Valid]
    decide +kernel
  refine ⟨valid, rfl, _, _, rfl, rfl, fun kept => ?_⟩
  obtain ⟨m, found, stored⟩ := kept.rates _ List.mem_cons_self rfl
  have level := stored _ List.mem_cons_self _ List.mem_cons_self
  cases found
  -- The one rate that is left is that of the inflow.
  have same : (Expr.var "stream" : Expr (Extended ℚ)) = .num 1 :=
    congrArg (fun entry => entry.2.expr) (List.mem_singleton.mp level)
  cases same

end HybridAutomata
