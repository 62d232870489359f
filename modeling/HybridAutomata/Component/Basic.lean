import HybridAutomata.Automaton.Basic

/-!
# Networks

A component is a flat automaton or a network of named instances of components. An instance links
names of the child to names of the network. The instances of a network have different names by
their type, which lists the names that are taken. A child does not know its parent; instead every
component records its path, and adding a child writes the paths of the whole subtree anew.
-/

namespace HybridAutomata

/-- A name of a child that stands for a name of its parent. -/
structure Link where
  parent : String
  child : String
deriving DecidableEq, Repr

mutual

/-- A flat automaton, or a network. -/
inductive Component (α : Type) where
  | flat (automaton : Automaton α)
  | network (scope : Scope α) (children : Children α)

/-- The instances of a network, in the order in which their names were first used. None of the names
is taken already, and the instances behind one find its name taken. -/
inductive Children (α : Type) : (taken : List String := []) → Type where
  | none {taken : List String} : Children α taken
  | more {taken : List String} (name : String) (fresh : name ∉ taken) (links : List Link)
      (child : Component α) (rest : Children α (name :: taken)) : Children α taken

end

variable {α : Type}

/-- The parent's name for a name of the child; the first link decides. -/
def Link.parentOf? (links : List Link) (name : String) : Option String :=
  (links.find? (·.child == name)).map Link.parent

namespace Children

/-- The child of an instance name. -/
def find? (name : String) {taken : List String} : Children α taken → Option (Component α)
  | none => .none
  | more key _ _ child rest => if key = name then some child else find? name rest

/-- The instances as a list: name, links and child. -/
def toList {taken : List String} : Children α taken → List (String × List Link × Component α)
  | none => []
  | more name _ links child rest => (name, links, child) :: rest.toList

/-- Adds an instance, in place of one of that name. -/
def insert (name : String) (links : List Link) (child : Component α) {taken : List String}
    (children : Children α taken) (fresh : name ∉ taken := by exact List.not_mem_nil) :
    Children α taken :=
  match children with
  | none => more name fresh links child none
  | more key unused links' child' rest =>
      if same : key = name then more key unused links child rest
      else
        more key unused links' child'
          (insert name links child rest (List.not_mem_cons_of_ne_of_not_mem (Ne.symm same) fresh))

end Children

namespace Component

/-- What the component declares, and where it is. -/
def scope : Component α → Scope α
  | flat automaton => automaton.toScope
  | network scope _ => scope

def path (c : Component α) : Path := c.scope.path

def isFlat : Component α → Bool
  | flat _ => true
  | network _ _ => false

def automaton? : Component α → Option (Automaton α)
  | flat automaton => some automaton
  | network _ _ => none

/-! ## Paths -/

mutual

/-- Moves a component to a path, and its descendants below it. -/
def moveTo (path : Path) : Component α → Component α
  | flat automaton => flat { automaton with path }
  | network scope children => network { scope with path } (moveChildren path children)

/-- Moves the children of a component at a path. -/
def moveChildren (path : Path) {taken : List String} : Children α taken → Children α taken
  | .none => .none
  | .more name fresh links child rest =>
      .more name fresh links (moveTo (path.child name) child) (moveChildren path rest)

end

/-- Adds a child to a network; a flat automaton has none. -/
def addChild (c : Component α) (name : String) (links : List Link) (child : Component α) :
    Component α :=
  match c with
  | flat automaton => flat automaton
  | network scope children =>
      network scope (children.insert name links (moveTo (scope.path.child name) child))

/-- Follows instance names downwards. -/
def descend? : List String → Component α → Option (Component α)
  | [], c => some c
  | name :: names, network _ children => (children.find? name).bind (descend? names)
  | _ :: _, flat _ => none

/-- The component at a path, if the path leads through this component. -/
def find? (path : Path) (c : Component α) : Option (Component α) :=
  let depth := c.path.segments.length
  if path.segments.length < depth then none
  else (descend? (path.segments.drop depth) c).filter (·.path = path)

/-! ## Whole trees -/

mutual

/-- The flat automata of a tree, depth first. -/
def automata : Component α → List (Automaton α)
  | flat automaton => [automaton]
  | network _ children => childAutomata children

@[inherit_doc automata]
def childAutomata {taken : List String} : Children α taken → List (Automaton α)
  | .none => []
  | .more _ _ _ child rest => automata child ++ childAutomata rest

end

mutual

/-- Applies `f` to every flat automaton of a tree. -/
def mapAutomata (f : Automaton α → Automaton α) : Component α → Component α
  | flat automaton => flat (f automaton)
  | network scope children => network scope (mapChildAutomata f children)

@[inherit_doc mapAutomata]
def mapChildAutomata (f : Automaton α → Automaton α) {taken : List String} :
    Children α taken → Children α taken
  | .none => .none
  | .more name fresh links child rest =>
      .more name fresh links (mapAutomata f child) (mapChildAutomata f rest)

end

mutual

/-- Applies `f`, which may fail, to every flat automaton of a tree, depth first. -/
def mapAutomataM {ε : Type} (f : Automaton α → Except ε (Automaton α)) :
    Component α → Except ε (Component α)
  | flat automaton => do return flat (← f automaton)
  | network scope children => do return network scope (← mapChildAutomataM f children)

@[inherit_doc mapAutomataM]
def mapChildAutomataM {ε : Type} (f : Automaton α → Except ε (Automaton α))
    {taken : List String} : Children α taken → Except ε (Children α taken)
  | .none => .ok .none
  | .more name fresh links child rest => do
      let child ← mapAutomataM f child
      return .more name fresh links child (← mapChildAutomataM f rest)

end

/-- Applies `f` to every formula of a tree. -/
def mapExprs (f : Expr α → Expr α) (c : Component α) : Component α := c.mapAutomata (·.mapExprs f)

mutual

/-- The declared names of a tree, qualified by instance names behind `above`. -/
def namesBelow (above : Path) : Component α → List String
  | flat automaton => automaton.declared.map above.qualify
  | network scope children => scope.declared.map above.qualify ++ childNamesBelow above children

@[inherit_doc namesBelow]
def childNamesBelow (above : Path) {taken : List String} : Children α taken → List String
  | .none => []
  | .more name _ _ child rest =>
      namesBelow (above.child name) child ++ childNamesBelow above rest

end

/-- The declared names of a tree, qualified from here. -/
def qualifiedNames (c : Component α) : NameSet := .ofList (c.namesBelow .root)

/-- The modes of a tree, by their names and by their names qualified with the place of their
automaton. -/
def modeNames (c : Component α) : List String :=
  c.automata.flatMap fun a =>
    a.modes.keys.flatMap fun name =>
      if a.path.isRoot then [name] else [name, a.path.qualify name]

end Component

end HybridAutomata
