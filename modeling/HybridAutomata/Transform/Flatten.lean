import HybridAutomata.Component.Basic
import HybridAutomata.Model.Basic
import HybridAutomata.Transform.Product

/-!
# Flattening

A network becomes one automaton: the product of its children, which are flattened first. A name of a
child that is linked to a name of the network takes that name; any other gets the name of the
instance in front. A product mode is initial if all its leaves are, and then all their regions have
to hold; it is forbidden where one of its leaves is.
-/

namespace HybridAutomata

variable {α : Type}

namespace Automaton

/-- Renames the variables and constants in formulas, and the variables that rates and new values are
for. Declarations stay. -/
def renameNames (f : String → String) (a : Automaton α) : Automaton α :=
  let a := a.mapExprs (·.rename f)
  { a with
    modes := a.modes.map fun m => { m with flow := m.flow.map (·.mapKeys f) }
    transitions := a.transitions.map fun t => { t with reset := t.reset.mapKeys f } }

end Automaton

/-- A flattened component. -/
structure Flattened (α : Type) where
  factor : Factor α
  /-- For each declared name, qualified from the component, its name in the automaton. -/
  aliases : NameMap String

namespace Flattened

/-- The name outside an instance for a name inside it. -/
def outerName (inst : String) (links : List Link) (name : String) : String :=
  (Link.parentOf? links name).getD (inst ++ "." ++ name)

/-- A flat automaton as it is. -/
def ofAutomaton (a : Automaton α) : Flattened α where
  factor := ⟨a, a.modes.keys.map fun mode => [⟨a.path, mode⟩]⟩
  aliases := .ofList (a.declared.map fun name => (name, name))

/-- A network before its children are taken into account. -/
structure Partial (α : Type) where
  scope : Scope α
  aliases : NameMap String
  factors : List (Factor α) := []

/-- A network without children. -/
def Partial.ofScope (scope : Scope α) : Partial α where
  scope
  aliases := .ofList (scope.declared.map fun name => (name, name))

/-- Takes a flattened child into a network: its names are renamed, and those that are not linked are
declared by the network. -/
def Partial.addChild (p : Partial α) (inst : String) (links : List Link) (child : Flattened α) :
    Partial α :=
  let outer := outerName inst links
  let isFree (name : String) := (Link.parentOf? links name).isNone
  let a := child.factor.automaton
  { scope := { p.scope with
      vars := p.scope.vars.insertAll ((a.vars.toList.filter isFree).map outer)
      constants := p.scope.constants.insertAll
        ((a.constants.entries.filter fun entry => isFree entry.1).map fun entry =>
          (outer entry.1, entry.2)) }
    aliases := p.aliases.insertAll
      (child.aliases.entries.map fun entry => (inst ++ "." ++ entry.1, outer entry.2))
    factors := p.factors ++ [{ child.factor with automaton := a.renameNames outer }] }

end Flattened

namespace Component

mutual

/-- Flattens a component. -/
def flatten : Component α → Except (Failure α) (Flattened α)
  | flat automaton => .ok (.ofAutomaton automaton)
  | network scope children => do
      let p ← flattenChildren (.ofScope scope) children
      return { factor := ← Product.ofFactors p.scope p.factors, aliases := p.aliases }

/-- Flattens children and takes them into a network. -/
def flattenChildren (p : Flattened.Partial α) {taken : List String} :
    Children α taken → Except (Failure α) (Flattened.Partial α)
  | .none => .ok p
  | .more name _ links child rest => do
      let child ← flatten child
      flattenChildren (p.addChild name links child) rest

end

end Component

namespace Flattened

/-- The name in the automaton for a name of the model. -/
def nameOf (f : Flattened α) (name : String) : String := (f.aliases.find? name).getD name

/-- The region of a leaf, which is found by the qualified name of its mode or else by the plain
one. -/
def leafRegion? (f : Flattened α) (regions : NameMap (Expr α)) (leaf : Leaf) : Option (Expr α) :=
  ((regions.find? (leaf.path.qualify leaf.mode)).or (regions.find? leaf.mode)).map
    (·.rename f.nameOf)

/-- The region in which a product mode is initial. -/
def initial? (f : Flattened α) (regions : NameMap (Expr α)) (leaves : List Leaf) :
    Option (Expr α) :=
  (leaves.mapM (f.leafRegion? regions)).map Expr.andAll

/-- The region in which a product mode is forbidden. -/
def forbidden? (f : Flattened α) (regions : NameMap (Expr α)) (leaves : List Leaf) :
    Option (Expr α) :=
  match leaves.filterMap (f.leafRegion? regions) with
  | [] => none
  | parts => some (Expr.orAll parts)

/-- The product modes that have a region, with their regions. -/
def regions (f : Flattened α) (region? : List Leaf → Option (Expr α)) : NameMap (Expr α) :=
  .ofList <| (f.factor.automaton.modes.keys.zip f.factor.leaves).filterMap fun (name, leaves) =>
    (region? leaves).map fun region => (name, region)

end Flattened

namespace Model

/-- Replaces a network by its flat composition; a flat automaton stays. -/
def flatten (m : Model α) : Except (Failure α) (Model α) :=
  if m.root.isFlat then .ok m
  else do
    let f ← m.root.flatten
    return {
      root := .flat f.factor.automaton
      init := f.regions (f.initial? m.init)
      forbidden := f.regions (f.forbidden? m.forbidden)
      settings := { m.settings with
        plot := (f.nameOf m.settings.plot.1, f.nameOf m.settings.plot.2) } }

end Model

end HybridAutomata
