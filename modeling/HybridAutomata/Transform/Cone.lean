import HybridAutomata.Model.Basic

/-!
# Cones of influence

To study some variables only, one needs those variables, every variable that decides which mode the
system is in, and whatever the rates and new values of needed variables read. The others are
removed, with their rates and new values and with the conjuncts of regions that mention them.
-/

namespace HybridAutomata

variable {α : Type}

namespace Automaton

/-- The variables that the rates and the new values of a variable read. -/
def reads (a : Automaton α) (name : String) : List String :=
  let rates := a.modes.values.filterMap (·.flowOf? name)
  let values := a.transitions.filterMap (·.reset.find? name)
  (rates ++ values).flatMap (·.expr.vars)

/-- The names that decide which mode the system is in. -/
def deciding (a : Automaton α) : List String :=
  a.modes.values.flatMap (·.invariant.vars) ++ a.transitions.flatMap (·.guard.vars)

/-- The variables that are not yet in a cone. -/
def outside (a : Automaton α) (cone : List String) : List String :=
  a.vars.toList.filter (!cone.contains ·)

/-- A variable outside a cone that a name inside it reads. -/
def escapes? (a : Automaton α) (cone : List String) : Option String :=
  let read := cone.flatMap a.reads
  (a.outside cone).find? read.contains

theorem mem_outside_of_escapes? {a : Automaton α} {cone : List String} {name : String}
    (h : a.escapes? cone = some name) : name ∈ a.outside cone :=
  List.mem_of_find?_eq_some h

theorem length_outside_cons_lt {a : Automaton α} {cone : List String} {name : String}
    (h : name ∈ a.outside cone) : (a.outside (name :: cone)).length < (a.outside cone).length := by
  have hsub : a.outside (name :: cone) = (a.outside cone).filter (· != name) := by
    unfold outside
    rw [List.filter_filter]
    refine List.filter_congr fun other _ => ?_
    by_cases heq : other = name <;> simp [heq]
  rw [hsub]
  exact List.length_filter_lt_length_iff_exists.mpr ⟨name, h, by simp⟩

/-- Adds to a cone what its names read, until nothing is missing. -/
def closeCone (a : Automaton α) (cone : List String) : List String :=
  match _found : a.escapes? cone with
  | none => cone
  | some name => closeCone a (name :: cone)
termination_by (a.outside cone).length
decreasing_by exact length_outside_cons_lt (mem_outside_of_escapes? _found)

/-- The variables that have to be kept for the sake of some. -/
def cone (a : Automaton α) (keep : List String) : List String :=
  a.closeCone ((keep ++ a.deciding).filter a.vars.contains)

/-- Keeps the variables of a cone. -/
def restrictTo (a : Automaton α) (cone : List String) : Automaton α :=
  { a with
    vars := a.vars.filter cone.contains
    modes := a.modes.map fun m =>
      { m with flow := m.flow.map (·.filter fun name _ => cone.contains name) }
    transitions := a.transitions.map fun t =>
      { t with reset := t.reset.filter fun name _ => cone.contains name } }

end Automaton

namespace Settings

/-- Clears a plot variable that is among some names. -/
def withoutPlot (settings : Settings α) (names : List String) : Settings α :=
  let kept (name : String) := if names.contains name then "" else name
  { settings with plot := (kept settings.plot.1, kept settings.plot.2) }

end Settings

namespace Model

/-- Keeps some variables and what they depend on. -/
def reduceTo (m : Model α) (keep : List String) (pass : String) : Except (Failure α) (Model α) := do
  let a ← m.automaton
  match keep.find? (!a.vars.contains ·) with
  | some name => throw (.parameters pass (.undeclaredVariable name))
  | none =>
      let cone := a.cone keep
      let removed := a.outside cone
      let clean (region : Expr α) :=
        removed.foldl (fun e name => e.withoutConjunctsMentioning name) region
      return { (m.withAutomaton (a.restrictTo cone)).mapRegions clean with
        settings := m.settings.withoutPlot removed }

end Model

end HybridAutomata
