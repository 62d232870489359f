import HybridAutomata.Model.Basic

/-!
# Short mode names

Mode names that are too long are cut off. A cut name that is taken loses some more characters and
gets a number instead. Names that are short enough stay, and transitions and regions follow.
-/

namespace HybridAutomata

variable {α : Type}

namespace ModeName

/-- The first characters of a name. -/
def cut (limit : Nat) (name : String) : String := String.ofList (name.toList.take limit)

/-- A name cut so that a number fits behind it. -/
def cutNumbered (limit : Nat) (name : String) (number : Nat) : String :=
  let suffix := "_" ++ toString number
  cut (limit - suffix.length) name ++ suffix

/-- A short form of a name that is not taken. -/
def shorten (limit : Nat) (taken : List String) (name : String) : String :=
  if taken.contains (cut limit name) then
    firstFree (fun index => cutNumbered limit name (index + 2)) taken
  else cut limit name

/-- The short forms of the long names in a list, in order; each takes its name from the ones behind
it. -/
def shortForms (limit : Nat) (taken : List String) : List String → List (String × String)
  | [] => []
  | name :: names =>
      let short := shorten limit taken name
      (name, short) :: shortForms limit (short :: taken) names

/-- New names for the names that are longer than a limit. -/
def newNames (limit : Nat) (names : List String) : NameMap String :=
  let isShort (name : String) := decide (name.length ≤ limit)
  .ofList (shortForms limit (names.filter isShort) (names.filter (!isShort ·)))

end ModeName

namespace Automaton

/-- Renames the modes. -/
def renameModes (f : String → String) (a : Automaton α) : Automaton α :=
  { a with
    modes := .ofList (a.modes.entries.map fun (name, m) => (f name, { m with name := f name }))
    transitions := a.transitions.map fun t =>
      { t with source := f t.source, target := f t.target } }

end Automaton

namespace Model

/-- The least limit on names that is accepted. -/
def minNameLimit : Nat := 4

/-- Shortens the mode names that are longer than a limit. -/
def shortenModeNames (m : Model α) (limit : Nat) (pass : String) :
    Except (Failure α) (Model α) := do
  if limit < minNameLimit then throw (.parameters pass (.nameLimitTooSmall limit))
  let a ← m.automaton
  let newNames := ModeName.newNames limit a.modes.keys
  if newNames.entries.isEmpty then return m
  let f (name : String) := (newNames.find? name).getD name
  return { m.withAutomaton (a.renameModes f) with
    init := m.init.mapKeys f
    forbidden := m.forbidden.mapKeys f }

end Model

end HybridAutomata
