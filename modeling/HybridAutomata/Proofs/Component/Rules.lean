import HybridAutomata.Component.Validity
import HybridAutomata.Proofs.Automaton.Rules

/-!
# The rules of a network

What is asked of every instance of a tree is stated once, for an arbitrary condition; the rules of a
network are one such condition, together with the rules of its flat automata. They ask less of a
network than of a flat automaton: nothing keeps a network from declaring a name both as variable and
as constant, and a variable may be linked to a constant.
-/

namespace HybridAutomata

variable {α : Type}

namespace Component

section

variable (P : Scope α → String → List Link → Component α → Prop)

mutual

/-- A condition on the declarations of a network, the name and links of an instance in it and the
child holds throughout a tree. -/
def ForInstances : Component α → Prop
  | flat _ => True
  | network scope children => ForChildren scope children

@[inherit_doc ForInstances]
def ForChildren (scope : Scope α) {taken : List String} : Children α taken → Prop
  | .none => True
  | .more name _ links child rest =>
      P scope name links child ∧ ForInstances child ∧ ForChildren scope rest

end

end

/-- What is asked of an instance: its links join declared names, and it is where its name says. -/
structure KeepsInstance (scope : Scope α) (name : String) (links : List Link)
    (child : Component α) : Prop where
  parents : ∀ link ∈ links, link.parent ∈ scope.declared
  children : ∀ link ∈ links, link.child ∈ child.scope.declared
  place : child.path = scope.path.child name

/-- The rules of a tree. -/
structure Sound (c : Component α) : Prop where
  automata : ∀ a ∈ c.automata, a.Sound
  instances : c.ForInstances KeepsInstance

theorem sound_flat_iff {a : Automaton α} : (flat a).Sound ↔ a.Sound := by
  constructor
  · intro h
    exact h.automata a (List.mem_singleton_self a)
  · intro h
    exact ⟨fun a' mem => List.mem_singleton.mp mem ▸ h, trivial⟩

theorem linkViolations_eq_nil_iff {scope childScope : Scope α} {place : Path} {link : Link} :
    linkViolations scope childScope place link = [] ↔
      link.parent ∈ scope.declared ∧ link.child ∈ childScope.declared := by
  rw [linkViolations, List.append_eq_nil_iff, ← Scope.declares_iff, ← Scope.declares_iff]
  simp

mutual

theorem violations_eq_nil_iff : ∀ {c : Component α}, c.violations = [] ↔ c.Sound
  | .flat a => by rw [violations, Automaton.violations_eq_nil_iff, sound_flat_iff]
  | .network scope children => by
      rw [violations, childViolations_eq_nil_iff]
      exact ⟨fun ⟨automata, instances⟩ => ⟨automata, instances⟩,
        fun h => ⟨h.automata, h.instances⟩⟩

theorem childViolations_eq_nil_iff {scope : Scope α} :
    ∀ {taken : List String} {children : Children α taken}, childViolations scope children = [] ↔
      (∀ a ∈ childAutomata children, a.Sound) ∧ ForChildren KeepsInstance scope children
  | _, .none => by simp [childViolations, childAutomata, ForChildren]
  | _, .more name _ links child rest => by
      have place : (if child.path = scope.path.child name then []
          else [⟨.child (scope.path.child name), .misplacedChild⟩] : List (Violation α)) = [] ↔
          child.path = scope.path.child name := by simp
      have others : childViolations scope rest = [] ↔ _ := childViolations_eq_nil_iff
      simp only [childViolations, List.append_eq_nil_iff, List.flatMap_eq_nil_iff, place,
        linkViolations_eq_nil_iff, violations_eq_nil_iff (c := child),
        others, childAutomata, List.forall_mem_append, ForChildren]
      constructor
      · rintro ⟨⟨⟨links, place⟩, child⟩, rest⟩
        exact ⟨⟨child.automata, rest.1⟩,
          ⟨fun link mem => (links link mem).1, fun link mem => (links link mem).2, place⟩,
          child.instances, rest.2⟩
      · rintro ⟨⟨automata, restAutomata⟩, keeps, instances, rest⟩
        exact ⟨⟨⟨fun link mem => ⟨keeps.parents link mem, keeps.children link mem⟩, keeps.place⟩,
          ⟨automata, instances⟩⟩, restAutomata, rest⟩

end

end Component

end HybridAutomata
