import Mathlib.Algebra.Group.Pointwise.Set.Scalar
import HybridAutomata.Proofs.Component.Runs
import HybridAutomata.Proofs.Exact.Containment
import HybridAutomata.Proofs.Model.Rewriting
import HybridAutomata.Transform.TimeScale

/-!
# Runs in scaled time

A rate that is multiplied by a positive number allows the products of the numbers that it allowed,
whether it was a number or a formula, and with its uncertainty, whose bounds have to be in order for
that. So the modes of all automata of a tree allow the same movements, that much faster. Whatever
runs there are, they are run through in that much less time, by the same states; and back again with
the inverse of the number.
-/

namespace HybridAutomata

open Extended Success
open scoped Pointwise

variable {K : Type} [Field K] [LinearOrder K] [FloorRing K] [Functions K] [IsStrictOrderedRing K]
  {k n : K} {x : String → K}

/-! ## Rates -/

omit [IsStrictOrderedRing K] in
/-- Both written forms of a product have the value of the product. -/
theorem Expr.eval_scaled {e : Expr (Extended K)} {v : K} :
    (e.scaled (finite k)).eval (assign x) = .ok (finite v) ↔
      ∃ c, e.eval (assign x) = .ok (finite c) ∧ v = k * c := by
  rw [scaled.eq_def]
  split
  · next value =>
      rw [eval, eval, Except.ok.injEq, mul_finite_eq_finite_iff]
      simp [mul_comm]
  · have product : (mul (.num (finite k)) e).eval (assign x) =
        (do return finite k * (← e.eval (assign x))) := rfl
    rw [product, bind_eq_ok_iff]
    constructor
    · rintro ⟨a, value, made⟩
      have made := Except.ok.inj made
      rw [Extended.mul_comm] at made
      obtain ⟨c, rfl, rfl⟩ := mul_finite_eq_finite_iff.mp made
      exact ⟨c, value, mul_comm c k⟩
    · rintro ⟨c, value, rfl⟩
      exact ⟨finite c, value, rfl⟩

namespace Perturbed

/-- The uncertainty has its bounds in order. -/
def NoiseOrdered {α : Type} [Scalar α] (rate : Perturbed α) : Prop :=
  ∀ noise, rate.noise = some noise → noise.Ordered

section

variable {α : Type} [Scalar α] {factor : α} {rate rate' : Perturbed α}

theorem scaled_eq_ok_iff : rate.scaled factor = .ok rate' ↔
    ∃ noise, ⟨rate.expr.scaled factor, noise⟩ = rate' ∧
      Option.Rel (fun i j => i.scale factor = .ok j) rate.noise noise := by
  rw [scaled, bind_eq_ok_iff]
  simp only [optionMapM_eq_ok_iff, pure_eq_ok_iff, and_comm]

/-- The bounds of a multiple are in order, whatever the interval was. -/
theorem noiseOrdered_of_scaled (h : rate.scaled factor = .ok rate') : rate'.NoiseOrdered := by
  obtain ⟨noise, rfl, related⟩ := scaled_eq_ok_iff.mp h
  rintro i rfl
  obtain ⟨_, _, made⟩ := exists_of_rel_right related
  obtain ⟨_, _, product⟩ := bind_eq_ok_iff.mp made
  exact Interval.ordered_of_make product

end

variable {rate rate' : Perturbed (Extended K)}

theorem exists_scaled (positive : 0 < k) (ordered : rate.NoiseOrdered) :
    ∃ rate', rate.scaled (finite k) = .ok rate' := by
  obtain ⟨noise, made⟩ : ∃ noise, Option.Rel (fun i j : Interval (Extended K) =>
      i.scale (finite k) = .ok j) rate.noise noise := by
    cases given : rate.noise with
    | none => exact ⟨none, .none⟩
    | some i =>
        obtain ⟨j, made, _⟩ := Interval.exists_scale_of_positive positive (ordered i given)
        exact ⟨some j, .some made⟩
  exact ⟨_, scaled_eq_ok_iff.mpr ⟨noise, rfl, made⟩⟩

theorem holds_noise_of_scaled (positive : 0 < k) (ordered : rate.NoiseOrdered)
    (h : rate.scaled (finite k) = .ok rate') {w : K} :
    rate'.noiseOrZero.Holds (k * w) ↔ rate.noiseOrZero.Holds w := by
  obtain ⟨noise, rfl, related⟩ := scaled_eq_ok_iff.mp h
  rw [noiseOrZero, noiseOrZero]
  cases given : rate.noise with
  | none =>
      rw [given] at related
      cases related
      simp only [Option.getD_none, Interval.zero, zero_eq, Interval.holds_point, mul_eq_zero,
        positive.ne', false_or]
  | some i =>
      rw [given] at related
      obtain ⟨j, rfl, made⟩ := exists_of_rel_left related
      obtain ⟨j', made', holds⟩ := Interval.exists_scale_of_positive positive (ordered i given)
      obtain rfl := Except.ok.inj (made'.symm.trans made)
      exact holds w

/-- What `rate` allows, `rate'` allows `k` times as fast, and nothing else. -/
def Paced (k : K) (rate rate' : Perturbed (Extended K)) : Prop :=
  ∀ x number, rate'.Allows x (k * number) ↔ rate.Allows x number

theorem paced_of_scaled (positive : 0 < k) (ordered : rate.NoiseOrdered)
    (h : rate.scaled (finite k) = .ok rate') : rate.Paced k rate' := by
  have expr : rate'.expr = rate.expr.scaled (finite k) := by
    obtain ⟨_, rfl, _⟩ := scaled_eq_ok_iff.mp h
    rfl
  have noise {w : K} := holds_noise_of_scaled positive ordered h (w := w)
  intro x number
  constructor
  · rintro ⟨v, w, value, held, sum⟩
    obtain ⟨c, value', rfl⟩ := Expr.eval_scaled.mp (expr ▸ value)
    obtain ⟨w', rfl⟩ : ∃ w', w = k * w' := ⟨w / k, (mul_div_cancel₀ w positive.ne').symm⟩
    rw [← mul_add] at sum
    exact ⟨c, w', value', noise.mp held, mul_left_cancel₀ positive.ne' sum⟩
  · rintro ⟨c, w, value, held, rfl⟩
    exact ⟨k * c, k * w, expr ▸ Expr.eval_scaled.mpr ⟨c, value, rfl⟩, noise.mpr held,
      mul_add k c w⟩

omit [IsStrictOrderedRing K] in
theorem Paced.symm (h : rate.Paced k rate') (ne : k ≠ 0) :
    rate'.Paced k⁻¹ rate := by
  intro x number
  rw [← h, mul_inv_cancel_left₀ ne]

end Perturbed

/-! ## Modes -/

namespace Mode

/-- What a mode allows at some values: a rate for every name, which is zero where the mode has none.
Without a flow it allows nothing. -/
def rateVectors (m : Mode (Extended K)) (x : String → K) : Set (String → K) :=
  {v | m.hasFlow = true ∧ ∀ y, match m.flowOf? y with
    | some rate => rate.Allows x (v y)
    | none => v y = 0}

/-- Another mode is the same except that it moves `k` times as fast. -/
structure Paced (k : K) (m m' : Mode (Extended K)) : Prop where
  name : m'.name = m.name
  urgent : m'.urgent = m.urgent
  invariant : m'.invariant = m.invariant
  hasFlow : m'.hasFlow = m.hasFlow
  rates : ∀ y, Option.Rel (Perturbed.Paced k) (m.flowOf? y) (m'.flowOf? y)

/-- The uncertainties of all rates have their bounds in order. -/
def NoiseOrdered {α : Type} [Scalar α] (m : Mode α) : Prop :=
  ∀ y rate, m.flowOf? y = some rate → rate.NoiseOrdered

section

variable {α : Type} [Scalar α] {factor : α} {m m' : Mode α}

/-- Under every name there is the product of the rate there was. -/
theorem rel_flowOf?_of_scaled (h : m.mapFlowM (·.scaled factor) = .ok m') (y : String) :
    Option.Rel (fun rate rate' => rate.scaled factor = .ok rate') (m.flowOf? y)
      (m'.flowOf? y) := by
  obtain ⟨flow, rfl, related⟩ := mapFlowM_eq_ok_iff.mp h
  exact rel_bind related fun _ _ maps => maps.find? y

theorem noiseOrdered_of_scaled (h : m.mapFlowM (·.scaled factor) = .ok m') : m'.NoiseOrdered := by
  intro y rate' found
  obtain ⟨_, _, made⟩ := exists_of_rel_right (found ▸ rel_flowOf?_of_scaled h y)
  exact Perturbed.noiseOrdered_of_scaled made

end

section

variable {m m' : Mode (Extended K)}

theorem exists_scaled (positive : 0 < k) (ordered : m.NoiseOrdered) :
    ∃ m', m.mapFlowM (·.scaled (finite k)) = .ok m' := by
  rw [mapFlowM]
  cases flow : m.flow with
  | none => exact ⟨_, rfl⟩
  | some rates =>
      obtain ⟨rates', made⟩ : ∃ rates', rates.mapM (·.scaled (finite k)) = .ok rates' := by
        refine NameMap.exists_mapM fun entry mem => ?_
        refine Perturbed.exists_scaled positive (ordered entry.1 entry.2 ?_)
        rw [flowOf?, flow]
        exact NameMap.find?_eq_some_iff.mpr mem
      rw [Option.mapM_some, made]
      exact ⟨_, rfl⟩

theorem paced_of_scaled (positive : 0 < k) (ordered : m.NoiseOrdered)
    (h : m.mapFlowM (·.scaled (finite k)) = .ok m') : m.Paced k m' := by
  have rates (y : String) : Option.Rel (Perturbed.Paced k) (m.flowOf? y) (m'.flowOf? y) :=
    rel_imp (rel_flowOf?_of_scaled h y) fun rate _ given made =>
      Perturbed.paced_of_scaled positive (ordered y rate given) made
  obtain ⟨flow, rfl, related⟩ := mapFlowM_eq_ok_iff.mp h
  refine ⟨rfl, rfl, rfl, ?_, rates⟩
  change flow.isSome = m.flow.isSome
  generalize m.flow = flow? at related
  cases related <;> rfl

end

omit [IsStrictOrderedRing K]

variable {m m' : Mode (Extended K)}

theorem Paced.symm (h : m.Paced k m') (ne : k ≠ 0) : m'.Paced k⁻¹ m where
  name := h.name.symm
  urgent := h.urgent.symm
  invariant := h.invariant.symm
  hasFlow := h.hasFlow.symm
  rates y := rel_flip (h.rates y) fun _ _ paced => paced.symm ne

theorem Paced.exists_rate (h : m.Paced k m') {y : String} {rate' : Perturbed (Extended K)}
    (found : m'.flowOf? y = some rate') : ∃ rate, m.flowOf? y = some rate ∧ rate.Paced k rate' :=
  exists_of_rel_right (found ▸ h.rates y)

theorem Paced.flowOf?_eq_none (h : m.Paced k m') {y : String} (missing : m'.flowOf? y = none) :
    m.flowOf? y = none :=
  eq_none_of_rel_right (missing ▸ h.rates y)

theorem Paced.rateVectors (h : m.Paced k m') (ne : k ≠ 0) (x : String → K) :
    m'.rateVectors x = k • m.rateVectors x := by
  ext v
  rw [Set.mem_smul_set_iff_inv_smul_mem₀ ne]
  refine and_congr (by rw [h.hasFlow]) (forall_congr' fun y => ?_)
  have related := h.rates y
  generalize m.flowOf? y = rate?, m'.flowOf? y = rate?' at related
  cases related with
  | none => simp [ne]
  | some paced =>
      have allowed := paced x (k⁻¹ * v y)
      rwa [mul_inv_cancel_left₀ ne] at allowed

end Mode

/-! ## Trees -/

namespace Automaton

/-- What the mode with a name allows at some values. -/
def rateVectors (a : Automaton (Extended K)) (name : String) (x : String → K) : Set (String → K) :=
  {v | ∃ m, a.mode? name = some m ∧ v ∈ m.rateVectors x}

/-- Another automaton is the same except that its modes move `k` times as fast. -/
structure Paced (k : K) (a a' : Automaton (Extended K)) : Prop where
  scope : a'.toScope = a.toScope
  transitions : a'.transitions = a.transitions
  modes : NameMap.Related (Mode.Paced k) a.modes a'.modes

/-- The uncertainties in all modes have their bounds in order. -/
def NoiseOrdered {α : Type} [Scalar α] (a : Automaton α) : Prop :=
  ∀ entry ∈ a.modes.entries, entry.2.NoiseOrdered

theorem noiseOrdered_of_scaled {α : Type} [Scalar α] {factor : α} {a a' : Automaton α}
    (h : a.scaled factor = .ok a') : a'.NoiseOrdered := by
  obtain ⟨modes, rfl, related⟩ := mapModesM_eq_ok_iff.mp h
  intro entry mem
  obtain ⟨_, _, _, made⟩ := exists_of_forall₂_right related mem
  exact Mode.noiseOrdered_of_scaled made

section

variable {a a' : Automaton (Extended K)}

theorem exists_scaled (positive : 0 < k) (ordered : a.NoiseOrdered) :
    ∃ a', a.scaled (finite k) = .ok a' := by
  obtain ⟨modes, made⟩ := NameMap.exists_mapM fun entry mem =>
    Mode.exists_scaled positive (ordered entry mem)
  exact ⟨_, bind_eq_ok_iff.mpr ⟨modes, made, rfl⟩⟩

theorem paced_of_scaled (positive : 0 < k) (ordered : a.NoiseOrdered)
    (h : a.scaled (finite k) = .ok a') : a.Paced k a' := by
  obtain ⟨modes, rfl, related⟩ := mapModesM_eq_ok_iff.mp h
  refine ⟨rfl, rfl, forall₂_imp_of_mem related fun entry mem _ ⟨name, made⟩ => ?_⟩
  exact ⟨name, Mode.paced_of_scaled positive (ordered entry mem) made⟩

end

omit [IsStrictOrderedRing K]

variable {a a' : Automaton (Extended K)}

theorem Paced.symm (h : a.Paced k a') (ne : k ≠ 0) : a'.Paced k⁻¹ a where
  scope := h.scope.symm
  transitions := h.transitions.symm
  modes := h.modes.flip fun _ _ paced => paced.symm ne

theorem Paced.rateVectors (h : a.Paced k a') (ne : k ≠ 0) (name : String) (x : String → K) :
    a'.rateVectors name x = k • a.rateVectors name x := by
  ext v
  rw [Set.mem_smul_set_iff_inv_smul_mem₀ ne]
  change (∃ m', a'.modes.find? name = some m' ∧ _) ↔ ∃ m, a.modes.find? name = some m ∧ _
  have related := h.modes.find? name
  generalize a.modes.find? name = mode?, a'.modes.find? name = mode?' at related
  cases related with
  | none => simp
  | some paced =>
      simp only [Option.some.injEq, exists_eq_left']
      rw [paced.rateVectors ne, Set.mem_smul_set_iff_inv_smul_mem₀ ne]

end Automaton

/-- At the same place is the same automaton, except that its modes move `k` times as fast. -/
structure Place.Paced (k : K) (p p' : Place (Automaton (Extended K))) : Prop where
  path : p'.path = p.path
  rename : p'.rename = p.rename
  item : p.item.Paced k p'.item

/-- The automata of another tree are the same, except that their modes move `k` times as fast. -/
def Component.Paced (k : K) (c c' : Component (Extended K)) : Prop :=
  List.Forall₂ (Place.Paced k) c.members c'.members

/-- The uncertainties in all automata of a tree have their bounds in order. -/
def Component.NoiseOrdered {α : Type} [Scalar α] (c : Component α) : Prop :=
  ∀ a ∈ c.automata, a.NoiseOrdered

theorem Component.noiseOrdered_of_scaled {α : Type} [Scalar α] {factor : α} {c c' : Component α}
    (h : c.mapAutomataM (·.scaled factor) = .ok c') : c'.NoiseOrdered := by
  intro a' mem
  rw [← map_item_members, List.mem_map] at mem
  obtain ⟨p', mem, rfl⟩ := mem
  obtain ⟨_, _, changed⟩ := exists_of_forall₂_right (members_of_mapAutomataM h) mem
  exact Automaton.noiseOrdered_of_scaled changed.item

theorem Component.exists_scaled (positive : 0 < k) {c : Component (Extended K)}
    (ordered : c.NoiseOrdered) : ∃ c', c.mapAutomataM (·.scaled (finite k)) = .ok c' :=
  exists_mapAutomataM fun a mem => Automaton.exists_scaled positive (ordered a mem)

theorem Component.paced_of_scaled (positive : 0 < k) {c c' : Component (Extended K)}
    (ordered : c.NoiseOrdered) (h : c.mapAutomataM (·.scaled (finite k)) = .ok c') :
    c.Paced k c' := by
  refine forall₂_imp_of_mem (members_of_mapAutomataM h) fun p mem p' changed => ?_
  have inOrder : p.item.NoiseOrdered :=
    ordered p.item (map_item_members c ▸ List.mem_map_of_mem mem)
  exact ⟨changed.path, changed.rename, Automaton.paced_of_scaled positive inOrder changed.item⟩

omit [IsStrictOrderedRing K] in
theorem Component.Paced.symm {c c' : Component (Extended K)} (h : c.Paced k c') (ne : k ≠ 0) :
    c'.Paced k⁻¹ c :=
  List.Forall₂.imp (fun _ _ paced => ⟨paced.path.symm, paced.rename.symm, paced.item.symm ne⟩)
    (List.Forall₂.flip h)

/-! ## Runs -/

section

variable {k : ℝ}

/-- The automaton is at the same place, in the same mode that moves `k` times as fast. -/
structure Local.Paced (k : ℝ) (l l' : Local (Extended ℝ)) : Prop where
  rename : l'.place.rename = l.place.rename
  mode : l.mode.Paced k l'.mode

/-- A path that is run through `k` times as fast moves `k` times as fast. -/
theorem hasDerivWithinAt_faster {f : ℝ → ℝ} {derivative t : ℝ} (positive : 0 < k)
    (h : HasDerivWithinAt f derivative (Set.Ici (k * t)) (k * t)) :
    HasDerivWithinAt (fun s => f (k * s)) (k * derivative) (Set.Ici t) t := by
  have speed : HasDerivWithinAt (fun s => k * s) k (Set.Ici t) t := by
    simpa using (hasDerivWithinAt_id t (Set.Ici t)).const_mul k
  have maps : Set.MapsTo (fun s => k * s) (Set.Ici t) (Set.Ici (k * t)) :=
    fun s later => mul_le_mul_of_nonneg_left later positive.le
  exact h.scomp t speed maps

/-- The same path, run through `k` times as fast. -/
theorem JointState.Evolves.paced {s s' : JointState (Extended ℝ)} {duration : ℝ}
    {path : ℝ → Valuation} (h : s.Evolves duration path) (paced : List.Forall₂ (Local.Paced k) s s')
    (positive : 0 < k) : s'.Evolves (duration / k) (fun t => path (k * t)) := by
  have inside {t : ℝ} (ht : t ∈ Set.Icc 0 (duration / k)) : k * t ∈ Set.Icc 0 duration :=
    ⟨mul_nonneg positive.le ht.1, (le_div_iff₀' positive).mp ht.2⟩
  refine {
    nonneg := div_nonneg h.nonneg positive.le
    hasFlow := ?_
    invariant := ?_
    continuous := fun z => (h.continuous z).comp (by fun_prop) fun t ht => inside ht
    moves := ?_
    still := ?_ }
  · intro l' mem
    obtain ⟨l, given, paced⟩ := exists_of_forall₂_right paced mem
    rw [paced.mode.hasFlow]
    exact h.hasFlow l given
  · intro l' mem t ht
    obtain ⟨l, given, paced⟩ := exists_of_forall₂_right paced mem
    rw [paced.mode.invariant, paced.rename]
    exact h.invariant l given (k * t) (inside ht)
  · intro l' mem y rate' found t ht
    obtain ⟨l, given, paced⟩ := exists_of_forall₂_right paced mem
    obtain ⟨rate, stored, faster⟩ := paced.mode.exists_rate found
    obtain ⟨derivative, allowed, has⟩ := h.moves l given y rate stored (k * t)
      ⟨(inside ⟨ht.1, ht.2.le⟩).1, (lt_div_iff₀' positive).mp ht.2⟩
    rw [paced.rename]
    exact ⟨k * derivative, (faster _ derivative).mpr allowed, hasDerivWithinAt_faster positive has⟩
  · intro z missing t ht
    have still : ∀ l ∈ s, ∀ y, l.place.rename y = z → l.mode.flowOf? y = none := by
      intro l given y same
      obtain ⟨l', mem, paced⟩ := exists_of_forall₂_left paced given
      exact paced.mode.flowOf?_eq_none (missing l' mem y (paced.rename ▸ same))
    rw [mul_zero]
    exact h.still z still (k * t) (inside ht)

/-- The same move, in that much less time. -/
noncomputable def TreeMove.paced (k : ℝ) : TreeMove → TreeMove
  | .delay duration path => .delay (duration / k) fun t => path (k * t)
  | .jump index t values => .jump index t values

theorem Place.Sets.paced {p p' : Place (Automaton (Extended ℝ))} {t : Transition (Extended ℝ)}
    {before after : Valuation} (h : p.Sets t before after) (paced : p.Paced k p') :
    p'.Sets t before after where
  sets y := by
    rw [paced.rename]
    exact h.sets y
  keeps z none := h.keeps z (paced.rename ▸ none)

namespace Component

variable {c c' : Component (Extended ℝ)}

/-- Automata that are the same but for their pace have the same modes by name. -/
theorem inModes_paced {places places' : List (Place (Automaton (Extended ℝ)))}
    (h : List.Forall₂ (Place.Paced k) places places') (names : List String) :
    Option.Rel (List.Forall₂ (Local.Paced k)) (inModes places names) (inModes places' names) := by
  induction h generalizing names with
  | nil =>
      cases names with
      | nil => exact .some .nil
      | cons => exact .none
  | cons first _ ih =>
      cases names with
      | nil => exact .none
      | cons name names =>
          refine rel_bind (first.item.modes.find? name) fun mode mode' paced => ?_
          exact rel_map (ih names) fun _ _ others => .cons ⟨first.rename, paced⟩ others

theorem Paced.exists_state (h : c.Paced k c') {names : List String} {s : JointState (Extended ℝ)}
    (found : c.state? names = some s) :
    ∃ s', c'.state? names = some s' ∧ List.Forall₂ (Local.Paced k) s s' := by
  have related := inModes_paced h names
  rw [state?] at found
  rw [found] at related
  exact exists_of_rel_left related

theorem Paced.admits (h : c.Paced k c') {s : TreeState} (admits : c.Admits s) : c'.Admits s := by
  obtain ⟨joint, found, holds⟩ := admits
  obtain ⟨joint', found', paced⟩ := h.exists_state found
  refine ⟨joint', found', fun l' mem => ?_⟩
  obtain ⟨l, given, paced⟩ := exists_of_forall₂_right paced mem
  rw [paced.mode.invariant, paced.rename]
  exact holds l given

/-- One move. -/
theorem Paced.makes (h : c.Paced k c') (positive : 0 < k) {s s' : TreeState} {move : TreeMove}
    (makes : c.Makes s move s') : c'.Makes s (move.paced k) s' := by
  cases makes with
  | delay found evolves =>
      obtain ⟨joint', found', paced⟩ := h.exists_state found
      have made := Makes.delay found' (evolves.paced paced positive)
      rwa [mul_zero, mul_div_cancel₀ _ positive.ne'] at made
  | jump member mem source enabled sets =>
      obtain ⟨p', member', paced⟩ := exists_getElem?_of_forall₂ h member
      refine .jump member' ?_ source ?_ (sets.paced paced)
      · rwa [paced.item.transitions]
      · rwa [paced.rename]

theorem Paced.run (h : c.Paced k c') (positive : 0 < k) {s s' : TreeState} {moves : List TreeMove}
    (run : c.Run s moves s') : c'.Run s (moves.map (.paced k)) s' := by
  induction run with
  | nil admits => exact .nil (h.admits admits)
  | cons admits makes _ ih => exact .cons (h.admits admits) (h.makes positive makes) ih

theorem Paced.waits (h : c.Paced k c') (positive : 0 < k) {names : List String} {duration : ℝ}
    {path : ℝ → Valuation} (waits : c.Waits names duration path) :
    c'.Waits names (duration / k) (fun t => path (k * t)) := by
  have back := h.symm positive.ne'
  intro s' found' urgent time inside index p' member' t mem source
  obtain ⟨s, found, paced⟩ := back.exists_state found'
  obtain ⟨l', mem', urgent⟩ := urgent
  obtain ⟨l, given, slower⟩ := exists_of_forall₂_left paced mem'
  obtain ⟨p, member, same⟩ := exists_getElem?_of_forall₂ back member'
  rw [← same.rename]
  refine waits s found ⟨l, given, slower.mode.urgent ▸ urgent⟩ (k * time) ?_ index p member t ?_
    source
  · exact ⟨mul_nonneg positive.le inside.1, (lt_div_iff₀' positive).mp inside.2⟩
  · rwa [same.item.transitions]

theorem Paced.prompt (h : c.Paced k c') (positive : 0 < k) {s : TreeState} {moves : List TreeMove}
    (prompt : c.Prompt s moves) : c'.Prompt s (moves.map (.paced k)) := by
  induction moves generalizing s with
  | nil => trivial
  | cons move moves ih =>
      cases move with
      | delay duration path =>
          refine ⟨h.waits positive prompt.1, ?_⟩
          have rest := ih prompt.2
          rwa [← mul_div_cancel₀ duration positive.ne'] at rest
      | jump index t values => exact ih prompt

/-- Whatever one tree does, another one does in that much less time, through the same states and as
promptly. -/
def Reparametrises (k : ℝ) (c c' : Component (Extended ℝ)) : Prop :=
  ∀ s moves s', c.Run s moves s' → c'.Run s (moves.map (.paced k)) s' ∧
    (c.Prompt s moves → c'.Prompt s (moves.map (.paced k)))

theorem Paced.reparametrises (h : c.Paced k c') (positive : 0 < k) : c.Reparametrises k c' :=
  fun _ _ _ run => ⟨h.run positive run, h.prompt positive⟩

end Component

end

/-! ## Models -/

/-- Another model is the same, except that it moves `k` times as fast and that less time is looked
at. -/
structure Model.Paced (k : K) (m m' : Model (Extended K)) : Prop where
  root : m.root.Paced k m'.root
  init : m'.init = m.init
  forbidden : m'.forbidden = m.forbidden
  settings : m'.settings = { m.settings with
    horizon := m.settings.horizon / finite k
    step := m.settings.step / finite k }

namespace Model

variable {m : Model (Extended K)} {pass : String}

omit [IsStrictOrderedRing K] in
/-- The numbers that are accepted are positive. -/
theorem exists_of_isPositive {factor : Extended K} (accepted : Scalar.isPositive factor = true) :
    ∃ k, 0 < k ∧ factor = finite k := by
  rw [Scalar.isPositive, Bool.and_eq_true, isFinite_iff, decide_eq_true_iff] at accepted
  obtain ⟨⟨k, rfl⟩, positive⟩ := accepted
  rw [zero_eq, finite_lt_finite] at positive
  exact ⟨k, positive, rfl⟩

/-- Every positive number is accepted, and there is no fault. -/
theorem exists_scaleTime (positive : 0 < k) (ordered : m.root.NoiseOrdered) (pass : String) :
    ∃ m', m.scaleTime (finite k) pass = .ok m' ∧ m.Paced k m' ∧ m'.root.NoiseOrdered := by
  have accepted : Scalar.isPositive (finite k) = true := by
    simp [Scalar.isPositive, positive]
  obtain ⟨root, made⟩ := Component.exists_scaled positive ordered
  have inOrder : root.NoiseOrdered := Component.noiseOrdered_of_scaled made
  have faster := Component.paced_of_scaled positive ordered made
  rw [scaleTime, if_pos accepted]
  exact ⟨_, bind_eq_ok_iff.mpr ⟨root, liftFault_eq_ok_iff.mpr made, rfl⟩, ⟨faster, rfl, rfl, rfl⟩,
    inOrder⟩

end Model

/-- In scaled time a model moves faster and is otherwise the same: each mode allows the multiples of
the rates that it allowed, and each run is a run of the other model in that much less time, there
and back. Scaling twice is scaling once by the product. The bounds of all uncertainties have to be
in order, and stay so. -/
theorem Model.scaleTime_reparametrises {m : Model (Extended ℝ)} {factor : Extended ℝ}
    (ordered : m.root.NoiseOrdered) (accepted : Scalar.isPositive factor = true) (pass : String) :
    ∃ (k : ℝ) (m' : Model (Extended ℝ)), 0 < k ∧ factor = finite k ∧
      m.scaleTime factor pass = .ok m' ∧ m.Paced k m' ∧ m'.root.NoiseOrdered ∧
      List.Forall₂ (fun p p' => ∀ name x,
        p'.item.rateVectors name x = k • p.item.rateVectors name x) m.root.members m'.root.members ∧
      m.root.Reparametrises k m'.root ∧ m'.root.Reparametrises k⁻¹ m.root ∧
      ∀ factor', Scalar.isPositive factor' = true →
        ∃ once twice, m.scaleTime (factor * factor') pass = .ok once ∧
          m'.scaleTime factor' pass = .ok twice ∧
          List.Forall₂ (fun p p' => ∀ name x,
            p'.item.rateVectors name x = p.item.rateVectors name x)
            once.root.members twice.root.members := by
  obtain ⟨k, positive, rfl⟩ := exists_of_isPositive accepted
  obtain ⟨m', made, paced, ordered'⟩ := exists_scaleTime positive ordered pass
  refine ⟨k, m', positive, rfl, made, paced, ordered', ?_, paced.root.reparametrises positive,
    (paced.root.symm positive.ne').reparametrises (inv_pos.mpr positive), ?_⟩
  · exact List.Forall₂.imp (fun _ _ same => same.item.rateVectors positive.ne') paced.root
  · intro factor' accepted'
    obtain ⟨n, positive', rfl⟩ := exists_of_isPositive accepted'
    obtain ⟨twice, made', paced', _⟩ := exists_scaleTime positive' ordered' pass
    obtain ⟨once, direct, product, _⟩ := exists_scaleTime (mul_pos positive positive') ordered pass
    refine ⟨once, twice, direct, made', ?_⟩
    have chains :=
      forall₂_comp (List.Forall₂.flip product.root) (forall₂_comp paced.root paced'.root)
    refine List.Forall₂.imp (fun p p'' related name x => ?_) chains
    obtain ⟨start, fast, middle, first, second⟩ := related
    rw [second.item.rateVectors positive'.ne', first.item.rateVectors positive.ne',
      fast.item.rateVectors (mul_pos positive positive').ne', smul_smul, mul_comm]

/-- The level of a pond rises at a speed that is not known exactly. -/
noncomputable def filling : Mode (Extended ℝ) where
  name := "filling"
  flow := some (.ofList [("level", ⟨.num (finite 1), some ⟨finite 0, finite 1⟩⟩)])

/-- A pond can be full when its level is six. -/
noncomputable def fullUp : Transition (Extended ℝ) where
  source := "filling"
  target := "full"
  guard := .ge (.var "level") (.num (finite 6))

/-- A pond, read at a path of this name. -/
noncomputable def pond (name : String) : Automaton (Extended ℝ) where
  vars := .ofList ["level"]
  path := Path.root.child name
  modes := .ofList [("filling", filling), ("full", { name := "full" })]
  transitions := [fullUp]

/-- Two ponds that share nothing. -/
noncomputable def ponds : Model (Extended ℝ) where
  root := .network {}
    (.more "left" (by decide) [] (.flat (pond "left"))
      (.more "right" (by decide) [] (.flat (pond "right")) .none))
  settings := .initial

/-- Both levels are the time. -/
noncomputable def pondsPath (t : ℝ) (name : String) : ℝ :=
  if name = "left.level" ∨ name = "right.level" then t else 0

/-- A pond as an instance of the network. -/
noncomputable def pondAt (name : String) : Place (Automaton (Extended ℝ)) :=
  (Place.here (pond name)).within name []

theorem ponds_evolve : JointState.Evolves [⟨pondAt "left", filling⟩, ⟨pondAt "right", filling⟩] 6
    pondsPath where
  nonneg := by norm_num
  hasFlow := by simp [filling, Mode.hasFlow]
  invariant := by simp [filling]
  continuous z := by
    unfold pondsPath
    split_ifs <;> fun_prop
  moves := by
    intro l mem y rate found t _
    have here : l.mode = filling ∧ (l.place.rename "level" = "left.level" ∨
        l.place.rename "level" = "right.level") := by
      obtain rfl | mem := List.mem_cons.mp mem
      · exact ⟨rfl, .inl rfl⟩
      · obtain rfl := List.mem_singleton.mp mem
        exact ⟨rfl, .inr rfl⟩
    obtain ⟨mode, name⟩ := here
    rw [mode] at found
    have only : (y, rate) ∈ [("level", ⟨.num (finite 1), some ⟨finite 0, finite 1⟩⟩)] :=
      NameMap.find?_eq_some_iff.mp found
    obtain ⟨rfl, rfl⟩ := Prod.mk.inj (List.mem_singleton.mp only)
    have path : (pondsPath · (l.place.rename "level")) = fun t => t := funext fun t => if_pos name
    refine ⟨1, ⟨1, 0, rfl, ⟨finite_le_finite.mpr le_rfl, finite_le_finite.mpr zero_le_one⟩,
      (add_zero 1).symm⟩, ?_⟩
    rw [path]
    exact hasDerivWithinAt_id t _
  still := by
    intro z missing t _
    have others : ¬(z = "left.level" ∨ z = "right.level") := by
      rintro (rfl | rfl)
      · have none := missing _ List.mem_cons_self "level" rfl
        cases none
      · have none := missing _ (List.mem_cons_of_mem _ List.mem_cons_self) "level" rfl
        cases none
    rw [pondsPath, pondsPath, if_neg others, if_neg others]

/-- A run in which both ponds fill, and then one of them is full. -/
theorem ponds_run : ponds.root.Run ⟨["filling", "filling"], pondsPath 0⟩
    [.delay 6 pondsPath, .jump 1 fullUp (pondsPath 6)] ⟨["filling", "full"], pondsPath 6⟩ := by
  have state : ponds.root.state? ["filling", "filling"] =
      some [⟨pondAt "left", filling⟩, ⟨pondAt "right", filling⟩] := rfl
  have admits (t : ℝ) : ponds.root.Admits ⟨["filling", "filling"], pondsPath t⟩ :=
    ⟨_, state, by simp [filling]⟩
  have admits' : ponds.root.Admits ⟨["filling", "full"], pondsPath 6⟩ :=
    ⟨[⟨pondAt "left", filling⟩, ⟨pondAt "right", { name := "full" }⟩], rfl, by simp [filling]⟩
  have full : fullUp.guard.HoldsAt (pondsPath 6 ∘ (pondAt "right").rename) := by
    have level : pondsPath 6 "right.level" = 6 := if_pos (.inr rfl)
    exact Expr.holdsAt_ge.mpr (finite_le_finite.mpr level.ge)
  have jump : ponds.root.Makes ⟨["filling", "filling"], pondsPath 6⟩ (.jump 1 fullUp (pondsPath 6))
      ⟨["filling", "full"], pondsPath 6⟩ :=
    .jump (p := pondAt "right") rfl (List.mem_singleton_self _) rfl full ⟨nofun, fun _ _ => rfl⟩
  exact .cons (admits 0) (.delay state ponds_evolve) (.cons (admits 6) jump (.nil admits'))

theorem ponds_noiseOrdered : ponds.root.NoiseOrdered := by
  have rising : filling.NoiseOrdered := by
    intro y rate found noise given
    have only : (y, rate) ∈ [("level", ⟨.num (finite 1), some ⟨finite 0, finite 1⟩⟩)] :=
      NameMap.find?_eq_some_iff.mp found
    obtain ⟨rfl, rfl⟩ := Prod.mk.inj (List.mem_singleton.mp only)
    obtain rfl := Option.some.inj given
    exact finite_le_finite.mpr zero_le_one
  have either (name : String) : (pond name).NoiseOrdered := by
    intro entry mem
    obtain rfl | rfl : entry = ("filling", filling) ∨ entry = ("full", { name := "full" }) :=
      List.mem_pair.mp mem
    · exact rising
    · nofun
  intro a mem
  obtain rfl | rfl : a = pond "left" ∨ a = pond "right" := List.mem_pair.mp mem
  · exact either "left"
  · exact either "right"

/-- With time three times as fast, the run takes two units of time. -/
theorem ponds_scaled : ponds.root.NoiseOrdered ∧
    Scalar.isPositive (finite 3 : Extended ℝ) = true ∧
    ∃ m', ponds.scaleTime (finite 3) "time_scale" = .ok m' ∧
      m'.root.Run ⟨["filling", "filling"], pondsPath 0⟩
        [.delay 2 fun time => pondsPath (3 * time), .jump 1 fullUp (pondsPath 6)]
        ⟨["filling", "full"], pondsPath 6⟩ := by
  have accepted : Scalar.isPositive (finite 3 : Extended ℝ) = true := by
    simp [Scalar.isPositive]
  obtain ⟨k, m', _, same, made, _, _, _, runs, _⟩ :=
    Model.scaleTime_reparametrises ponds_noiseOrdered accepted "time_scale"
  obtain rfl := finite.inj same
  have faster := (runs _ _ _ ponds_run).1
  have time : (6 : ℝ) / 3 = 2 := by norm_num
  simp only [List.map_cons, List.map_nil, TreeMove.paced, time] at faster
  exact ⟨ponds_noiseOrdered, accepted, m', made, faster⟩

end HybridAutomata
