/-!
# Paths

A component of a network is found by the instance names that lead to it from the root.
-/

namespace HybridAutomata

/-- Instance names from the root of a network down to a component. -/
structure Path where
  segments : List String := []
deriving DecidableEq, Repr, Inhabited

namespace Path

def root : Path := ⟨[]⟩

def isRoot (p : Path) : Bool := p.segments.isEmpty

/-- The path of an instance inside the component at this path. -/
def child (p : Path) (name : String) : Path := ⟨p.segments ++ [name]⟩

/-- The path of the enclosing component. -/
def parent? (p : Path) : Option Path :=
  if p.isRoot then none else some ⟨p.segments.dropLast⟩

/-- The name of the component in the enclosing network. -/
def instance? (p : Path) : Option String := p.segments.getLast?

/-- A name with the instance names in front, joined by points. -/
def qualify (p : Path) (name : String) : String := ".".intercalate (p.segments ++ [name])

def text (p : Path) : String := if p.isRoot then "<root>" else ".".intercalate p.segments

@[simp] theorem parent?_child (p : Path) (name : String) : (p.child name).parent? = some p := by
  simp [parent?, child, isRoot]

@[simp] theorem qualify_root (name : String) : root.qualify name = name := by
  simp [qualify, root]

end Path

end HybridAutomata
