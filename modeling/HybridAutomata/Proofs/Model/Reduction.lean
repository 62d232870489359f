import HybridAutomata.Proofs.Automaton.Cone
import HybridAutomata.Proofs.Exact.Fields
import HybridAutomata.Proofs.Expr.Connectives
import HybridAutomata.Proofs.Model.Rules

/-!
# Reduction to some variables

A reduced model has the variables of a cone, and the conjuncts of its regions that mention no other.
It keeps the rules of a model, and nothing that is left depends on what was removed: not the mode
the system is in, not when it may jump, and not the rates and new values of the variables that are
left. Regions can only have grown.
-/

namespace HybridAutomata

open Success

variable {α : Type}

/-! ## Regions -/

namespace Expr

/-- Drops the top-level conjuncts in which one of some names occurs. -/
def withoutConjunctsMentioningAny (names : List String) (e : Expr α) : Expr α :=
  names.foldl (fun e name => e.withoutConjunctsMentioning name) e

theorem mem_names_of_withoutConjunctsMentioningAny {names : List String} {e : Expr α}
    {name : String} (h : name ∈ (e.withoutConjunctsMentioningAny names).names) :
    name ∈ e.names ∧ name ∉ names := by
  induction names generalizing e with
  | nil => exact ⟨h, List.not_mem_nil⟩
  | cons first rest ih =>
      obtain ⟨occurs, absent⟩ := ih h
      obtain ⟨occurs, ne⟩ := mem_names_of_withoutConjunctsMentioning occurs
      exact ⟨occurs, List.not_mem_cons_of_ne_of_not_mem ne absent⟩

theorem holds_withoutConjunctsMentioningAny [Scalar α] {names : List String} {e : Expr α}
    {env : String → Option α} (h : e.holds env = .ok true) :
    (e.withoutConjunctsMentioningAny names).holds env = .ok true := by
  induction names generalizing e with
  | nil => exact h
  | cons first rest ih => exact ih (holds_withoutConjunctsMentioning env first h)

end Expr

/-! ## The reduced model -/

namespace Model

/-- What is left of a flat model on a cone. -/
def reduced (m : Model α) (a : Automaton α) (cone : List String) : Model α :=
  { (m.withAutomaton (a.restrictTo cone)).mapRegions
      (·.withoutConjunctsMentioningAny (a.outside cone)) with
    settings := m.settings.withoutPlot (a.outside cone) }

theorem reduceTo_eq_ok_iff {m m' : Model α} {keep : List String} {pass : String} :
    m.reduceTo keep pass = .ok m' ↔ ∃ a, m.automaton = .ok a ∧
      (∀ name ∈ keep, name ∈ a.vars.toList) ∧ m.reduced a (a.cone keep) = m' := by
  rw [reduceTo, bind_eq_ok_iff]
  refine exists_congr fun a => and_congr_right fun _ => ?_
  have known : keep.find? (!a.vars.contains ·) = none ↔ ∀ name ∈ keep, name ∈ a.vars.toList := by
    simp [List.find?_eq_none, NameSet.contains_iff]
  split
  · next name found =>
      rw [← known, found]
      simp [throw, throwThe, MonadExceptOf.throw]
  · next found =>
      rw [pure_eq_ok_iff, ← known]
      exact (and_iff_right found).symm

section

variable {m : Model α} {a : Automaton α} {cone keep : List String}

theorem closes_reducedRegion {e : Expr α} (closed : a.Closes e) :
    (a.restrictTo cone).Closes (e.withoutConjunctsMentioningAny (a.outside cone)) := by
  refine Automaton.closes_restrictTo (fun name occurs => ?_) fun name occurs var => ?_
  · exact closed name (Expr.mem_names_of_withoutConjunctsMentioningAny occurs).1
  · by_contra absent
    exact (Expr.mem_names_of_withoutConjunctsMentioningAny occurs).2
      (Automaton.mem_outside.mpr ⟨var, absent⟩)

theorem keepsPlot_reduced {name : String} (h : (Component.flat a).KeepsPlot name) :
    (Component.flat (a.restrictTo cone)).KeepsPlot
      (if (a.outside cone).contains name then "" else name) := by
  split
  · exact .inl rfl
  · next inside =>
      refine h.imp_right fun named => Component.mem_namesBelow_flat.mpr ?_
      obtain var | const := List.mem_append.mp (Component.mem_namesBelow_flat.mp named)
      · refine List.mem_append_left _ (Automaton.mem_vars_restrictTo.mpr ⟨var, ?_⟩)
        by_contra absent
        exact inside (List.contains_iff_mem.mpr (Automaton.mem_outside.mpr ⟨var, absent⟩))
      · exact List.mem_append_right _ const

/-- On a cone, a model keeps its rules. -/
theorem Sound.reduced [Scalar α] (sound : m.Sound) (root : m.root = .flat a)
    (covers : a.Covers cone) : (m.reduced a cone).Sound := by
  have automaton := Component.sound_flat_iff.mp (root ▸ sound.root)
  have modes : (Component.flat a).modeNames ⊆ (Component.flat (a.restrictTo cone)).modeNames :=
    Component.modeNames_flat_subset rfl (Automaton.keys_restrictTo ▸ List.Subset.refl _)
  have regions {kept : NameMap (Expr α)}
      (sound : ∀ entry ∈ kept.entries, m.root.KeepsRegion entry) :
      ∀ entry ∈ (kept.map (·.withoutConjunctsMentioningAny (a.outside cone))).entries,
        (Component.flat (a.restrictTo cone)).KeepsRegion entry := by
    refine List.forall_mem_map.mpr fun entry mem => ?_
    obtain ⟨mode, closed⟩ := Component.keepsRegion_flat_iff.mp (root ▸ sound entry mem)
    exact Component.keepsRegion_flat_iff.mpr ⟨modes mode, closes_reducedRegion closed⟩
  exact {
    root := Component.sound_flat_iff.mpr
      ⟨automaton.restrictTo covers, fun name const var =>
        automaton.disjoint name const (Automaton.mem_vars_restrictTo.mp var).1⟩
    init := regions sound.init
    forbidden := regions sound.forbidden
    plot := ⟨keepsPlot_reduced (root ▸ sound.plot.1), keepsPlot_reduced (root ▸ sound.plot.2)⟩
    horizon := sound.horizon }

/-- Every assignment under which a region holds is left in the region of that mode, and so is every
other one that agrees with it on some names. -/
def ProjectInto [Scalar α] (names : List String) (regions regions' : NameMap (Expr α)) : Prop :=
  ∀ mode region, regions.find? mode = some region →
    ∃ region', regions'.find? mode = some region' ∧
      ∀ env env', (∀ name ∈ names, env name = env' name) →
        region.holds env = .ok true → region'.holds env' = .ok true

theorem projectInto_reduced [Scalar α] {regions : NameMap (Expr α)}
    (closed : ∀ entry ∈ regions.entries, a.Closes entry.2) :
    ProjectInto (a.restrictTo cone).declared regions
      (regions.map (·.withoutConjunctsMentioningAny (a.outside cone))) := by
  intro mode region found
  refine ⟨_, by rw [NameMap.find?_map, found, Option.map_some], fun env env' agree holds => ?_⟩
  have left : (region.withoutConjunctsMentioningAny (a.outside cone)).holds env = .ok true :=
    Expr.holds_withoutConjunctsMentioningAny holds
  rw [← left]
  refine Expr.holds_congr _ fun name occurs => (agree name ?_).symm
  exact closes_reducedRegion (closed _ (NameMap.find?_eq_some_iff.mp found)) name occurs

end

/-- In a valid flat model, the variables that are left are the least cone of those to keep; what is
left is blind to all others, before and after they are removed; and every state of a region is left
in it. -/
theorem reduceTo_noninterference [Scalar α] {m : Model α} {a : Automaton α} (valid : m.Valid)
    (flat : m.automaton = .ok a) {keep : List String}
    (declared : ∀ name ∈ keep, name ∈ a.vars.toList) (pass : String) :
    ∃ m' a', m.reduceTo keep pass = .ok m' ∧ m'.automaton = .ok a' ∧
      IsLeast {S | a.IsCone keep S} {name | name ∈ a'.vars.toList} ∧
      a'.constants = a.constants ∧
      (∀ env env', (∀ name ∈ a'.declared, env name = env' name) →
        a.AgreesOn {name | name ∈ a'.vars.toList} env env' a ∧
          a.AgreesOn {name | name ∈ a'.vars.toList} env env' a') ∧
      ProjectInto a'.declared m.init m'.init ∧
      ProjectInto a'.declared m.forbidden m'.forbidden := by
  have sound := valid_iff.mp valid
  have root := automaton_eq_ok_iff.mp flat
  have automaton := Component.sound_flat_iff.mp (root ▸ sound.root)
  have least := Automaton.isLeast_cone declared
  have covers := least.1.covers automaton.toWellFormed
  have vars : {name | name ∈ (a.restrictTo (a.cone keep)).vars.toList} =
      {name | name ∈ a.cone keep} := by
    ext name
    exact Automaton.mem_vars_restrictTo.trans (and_iff_right_of_imp (least.1.vars name))
  have closed {kept : NameMap (Expr α)}
      (sound : ∀ entry ∈ kept.entries, m.root.KeepsRegion entry) :
      ∀ entry ∈ kept.entries, a.Closes entry.2 := fun entry mem =>
    (Component.keepsRegion_flat_iff.mp (root ▸ sound entry mem)).2
  refine ⟨m.reduced a (a.cone keep), a.restrictTo (a.cone keep),
    reduceTo_eq_ok_iff.mpr ⟨a, flat, declared, rfl⟩, rfl, ?_⟩
  rw [vars]
  refine ⟨least, rfl, fun env env' agree => ?_, projectInto_reduced (closed sound.init),
    projectInto_reduced (closed sound.forbidden)⟩
  have blind := covers.agreesOn_self agree
  exact ⟨blind, blind.trans (Automaton.agreesOn_restrictTo a (a.cone keep) env')⟩

end Model

/-- A cart that turns round at a wall, and a count of the way it has gone. -/
def cart : Automaton (Extended ℚ) where
  vars := .ofList ["position", "speed", "way"]
  constants := .ofList [("wall", ⟨1, 2⟩)]
  modes := .ofList [("roll", {
    name := "roll"
    flow := some (.ofList
      [("position", .exact (.var "speed")), ("way", .exact (.call "abs" [.var "speed"]))]) })]
  transitions := [{
    source := "roll"
    target := "roll"
    guard := .ge (.var "position") (.var "wall")
    reset := .ofList [("speed", .exact (.neg (.var "speed")))] }]

def cartModel : Model (Extended ℚ) where
  root := .flat cart
  init := .ofList
    [("roll", .and (.eq (.var "position") (.num 0)) (.eq (.var "way") (.num 0)))]
  settings := { Settings.initial with plot := ("way", "position") }

/-- Of the cart, the speed asks for the position, which decides about jumps, and not for the way. -/
theorem cart_reduceTo_noninterference : cartModel.Valid ∧
    (∀ name ∈ ["speed"], name ∈ cart.vars.toList) ∧
    ∃ m' a', cartModel.reduceTo ["speed"] "order_reduction" = .ok m' ∧ m'.automaton = .ok a' ∧
      a'.vars.toList = ["position", "speed"] ∧
      ∀ env env', (∀ name ∈ a'.declared, env name = env' name) →
        cart.AgreesOn {name | name ∈ a'.vars.toList} env env' a' := by
  have valid : cartModel.Valid := by
    rw [Model.Valid]
    decide +kernel
  have declared : ∀ name ∈ ["speed"], name ∈ cart.vars.toList := by decide
  obtain ⟨m', a', success, flat, _, _, blind, _⟩ :=
    Model.reduceTo_noninterference valid rfl declared "order_reduction"
  obtain ⟨m'', success', left⟩ : ∃ m'', cartModel.reduceTo ["speed"] "order_reduction" = .ok m'' ∧
      decide (m''.root.scope.vars.toList = ["position", "speed"]) = true :=
    exists_ok_of_any (by decide +kernel)
  obtain rfl := Except.ok.inj (success.symm.trans success')
  rw [Model.automaton_eq_ok_iff.mp flat] at left
  exact ⟨valid, declared, m', a', success, flat, of_decide_eq_true left,
    fun env env' agree => (blind env env' agree).2⟩

end HybridAutomata
