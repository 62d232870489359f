import Mathlib.Order.Bounds.Basic
import HybridAutomata.Estimation.RegionBox
import HybridAutomata.Proofs.Exact.Boxes
import HybridAutomata.Proofs.Expr.Connectives
import HybridAutomata.Proofs.Expr.Substitution

/-!
# The bounding box of a region

A conjunct is a simple bound on a variable if it compares the variable, on either side, with a term
that has a value by the constants alone. The limits that are read off the bounds of a variable are
the greatest of the lower ones and the least of the upper ones, whatever the order of the conjuncts.
So the box of a region is the bounding box of its simple bounds: it is found exactly if every
variable is bounded consistently on both sides or not at all, and it holds the bounded variables of
every state of the region, its center, and its star points.
-/

namespace HybridAutomata

open Extended Success

/-! ## Simple bounds -/

theorem Expr.var?_eq_some_iff {α : Type} {e : Expr α} {name : String} :
    e.var? = some name ↔ e = .var name := by
  cases e <;> simp [Expr.var?]

/-- What is compared in this way with a number is bounded by it from below. -/
def Comparison.fromBelow : Comparison → Bool
  | .eq | .ge | .gt => true
  | .ne | .lt | .le => false

/-- What is compared in this way with a number is bounded by it from above. -/
def Comparison.fromAbove : Comparison → Bool
  | .eq | .le | .lt => true
  | .ne | .gt | .ge => false

section

variable {α : Type} [Scalar α] [LawfulComparisons α] {op : Comparison} {a b : α}

theorem Comparison.le_of_fromBelow (below : op.fromBelow = true) (h : op.apply a b = true) :
    b ≤ a := by
  cases op with
  | eq => exact (LawfulComparisons.beq_iff.mp h).2
  | ge => exact of_decide_eq_true h
  | gt => exact (LawfulComparisons.lt_iff.mp (of_decide_eq_true h)).1
  | ne | lt | le => cases below

theorem Comparison.le_of_fromAbove (above : op.fromAbove = true) (h : op.apply a b = true) :
    a ≤ b := by
  cases op with
  | eq => exact (LawfulComparisons.beq_iff.mp h).1
  | le => exact of_decide_eq_true h
  | lt => exact (LawfulComparisons.lt_iff.mp (of_decide_eq_true h)).1
  | ne | gt | ge => cases above

end

namespace Scope

section

variable {α : Type} [Scalar α]

/-- The names that have a value before the variables have one: the constants, each at the middle of
its interval. -/
def midpoints (s : Scope α) (name : String) : Option α :=
  (s.constants.find? name).map Interval.middle

/-- A conjunct that compares a variable, on either side, with a term that has the value `a` by the
constants alone. The comparison is turned so that the variable comes first. -/
inductive Bounds (s : Scope α) (name : String) (a : α) : Comparison → Expr α → Prop where
  | left {op : Comparison} {t : Expr α} : op ≠ .ne → t.eval s.midpoints = .ok a →
      Bounds s name a op (.binary (.compare op) (.var name) t)
  | right {op : Comparison} {t : Expr α} : op ≠ .ne → t.eval s.midpoints = .ok a →
      Bounds s name a op.converse (.binary (.compare op) t (.var name))

variable {s : Scope α} {name : String} {op : Comparison} {a : α} {e t : Expr α}

theorem constantValue?_eq_some_iff : s.constantValue? t = some a ↔ t.eval s.midpoints = .ok a :=
  toOption_eq_some_iff

/-- A term with a value by the constants alone is no variable, if no constant has the name of a
variable. -/
theorem filter_var?_eq_none (disjoint : ∀ name ∈ s.vars.toList, name ∉ s.constants.keys)
    (value : t.eval s.midpoints = .ok a) : t.var?.filter s.vars.contains = none := by
  rw [Option.filter_eq_none_iff]
  intro name isVar declared
  obtain rfl := Expr.var?_eq_some_iff.mp isVar
  have known := Expr.known_of_eval _ value name (List.mem_singleton_self name)
  have noConstant := disjoint name (NameSet.contains_iff.mp declared)
  rw [midpoints, NameMap.find?_eq_none_iff.mpr noConstant] at known
  exact known rfl

/-- The bound that is read off a conjunct is the one that the conjunct puts on a variable. -/
theorem simpleBound?_eq_some_iff (disjoint : ∀ name ∈ s.vars.toList, name ∉ s.constants.keys)
    {b : SimpleBound α} : s.simpleBound? e = some b ↔
      b.name ∈ s.vars.toList ∧ s.Bounds b.name b.value b.op e := by
  obtain ⟨name, op, a⟩ := b
  constructor
  · intro h
    match e, h with
    | .binary (.compare op') l r, h =>
        rw [simpleBound?] at h
        split at h
        · cases h
        · next ordered =>
            split at h
            · next name' onLeft =>
                obtain ⟨isVar, declared⟩ := Option.filter_eq_some_iff.mp onLeft
                obtain rfl := Expr.var?_eq_some_iff.mp isVar
                obtain ⟨a, value, made⟩ := Option.bind_eq_some_iff.mp h
                cases made
                exact ⟨NameSet.contains_iff.mp declared,
                  .left ordered (constantValue?_eq_some_iff.mp value)⟩
            · next name' _ onRight =>
                obtain ⟨isVar, declared⟩ := Option.filter_eq_some_iff.mp onRight
                obtain rfl := Expr.var?_eq_some_iff.mp isVar
                obtain ⟨a, value, made⟩ := Option.bind_eq_some_iff.mp h
                cases made
                exact ⟨NameSet.contains_iff.mp declared,
                  .right ordered (constantValue?_eq_some_iff.mp value)⟩
            · cases h
  · rintro ⟨declared, bounds⟩
    have isVar : (Expr.var name : Expr α).var?.filter s.vars.contains = some name :=
      Option.filter_eq_some_iff.mpr ⟨rfl, NameSet.contains_iff.mpr declared⟩
    cases bounds with
    | left ordered value =>
        rw [simpleBound?, if_neg ordered, isVar, constantValue?_eq_some_iff.mpr value]
        rfl
    | right ordered value =>
        rw [simpleBound?, if_neg ordered, filter_var?_eq_none disjoint value, isVar,
          constantValue?_eq_some_iff.mpr value]
        rfl

end

end Scope

/-! ## Greatest and least numbers -/

variable {K : Type}

/-- The greatest number of a set; negative infinity if there is none. -/
inductive IsTop [LE K] (numbers : Set K) : Extended K → Prop where
  | none : numbers = ∅ → IsTop numbers negInf
  | some {x : K} : IsGreatest numbers x → IsTop numbers (finite x)

/-- The least number of a set; infinity if there is none. -/
inductive IsBottom [LE K] (numbers : Set K) : Extended K → Prop where
  | none : numbers = ∅ → IsBottom numbers posInf
  | some {x : K} : IsLeast numbers x → IsBottom numbers (finite x)

theorem IsTop.unique [PartialOrder K] {numbers : Set K} {a b : Extended K} (h : IsTop numbers a)
    (h' : IsTop numbers b) : a = b := by
  obtain empty | greatest := h <;> obtain empty' | greatest' := h'
  · rfl
  · exact absurd greatest'.nonempty (Set.not_nonempty_iff_eq_empty.mpr empty)
  · exact absurd greatest.nonempty (Set.not_nonempty_iff_eq_empty.mpr empty')
  · rw [greatest.unique greatest']

theorem IsBottom.unique [PartialOrder K] {numbers : Set K} {a b : Extended K}
    (h : IsBottom numbers a) (h' : IsBottom numbers b) : a = b := by
  obtain empty | least := h <;> obtain empty' | least' := h'
  · rfl
  · exact absurd least'.nonempty (Set.not_nonempty_iff_eq_empty.mpr empty)
  · exact absurd least.nonempty (Set.not_nonempty_iff_eq_empty.mpr empty')
  · rw [least.unique least']

variable [Field K] [LinearOrder K] [FloorRing K] [Functions K]

section

variable {numbers : Set K} {a b : Extended K} {x : K}

theorem IsTop.greater (h : IsTop numbers a) (x : K) :
    IsTop (insert x numbers) (Scalar.greater a (finite x)) := by
  cases h with
  | none empty =>
      subst empty
      have only : Scalar.greater negInf (finite x) = finite x := by
        simp [Scalar.greater, lt_iff]
      rw [only, insert_empty_eq]
      exact .some isGreatest_singleton
  | some greatest =>
      rw [greater_finite, max_comm]
      exact .some (greatest.insert x)

theorem IsBottom.lesser (h : IsBottom numbers a) (x : K) :
    IsBottom (insert x numbers) (Scalar.lesser a (finite x)) := by
  cases h with
  | none empty =>
      subst empty
      have only : Scalar.lesser posInf (finite x) = finite x := by
        simp [Scalar.lesser, lt_iff]
      rw [only, insert_empty_eq]
      exact .some isLeast_singleton
  | some least =>
      rw [lesser_finite, min_comm]
      exact .some (least.insert x)

end

/-! ## Limits -/

namespace Limits

theorem eq_of_bounds_eq {α : Type} {limits limits' : Limits α}
    (lower : limits.lower = limits'.lower) (upper : limits.upper = limits'.upper) : limits = limits' := by
  cases limits
  cases limits'
  cases lower
  cases upper
  rfl

/-- The numbers that bound a variable from one side. -/
def valuesOf (side : Comparison → Bool) (bounds : List (SimpleBound (Extended K))) : Set K :=
  {x | ∃ b ∈ bounds, side b.op = true ∧ b.value = finite x}

section

variable {side : Comparison → Bool} {bounds : List (SimpleBound (Extended K))}
  {b : SimpleBound (Extended K)} {x : K}

omit [Field K] [LinearOrder K] [FloorRing K] [Functions K] in
theorem valuesOf_concat_of_finite (applies : side b.op = true) (value : b.value = finite x) :
    valuesOf side (bounds ++ [b]) = insert x (valuesOf side bounds) := by
  ext y
  simp only [valuesOf, Set.mem_ofPred_eq, List.mem_append, List.mem_singleton, or_and_right,
    exists_or, exists_eq_left, applies, value, true_and, Extended.finite.injEq, Set.mem_insert_iff]
  rw [or_comm, eq_comm]

omit [Field K] [LinearOrder K] [FloorRing K] [Functions K] in
theorem valuesOf_concat_of_not (idle : side b.op = false ∨ b.value = undefined) :
    valuesOf side (bounds ++ [b]) = valuesOf side bounds := by
  ext y
  simp only [valuesOf, Set.mem_ofPred_eq, List.mem_append, List.mem_singleton, or_and_right,
    exists_or, exists_eq_left, or_iff_left_iff_imp]
  rintro ⟨applies, value⟩
  obtain other | none := idle
  · rw [other] at applies
    cases applies
  · rw [none] at value
    cases value

end

/-- The lower one of the limits is the greatest number that bounds from below, and the upper one is
the least number that bounds from above. -/
structure Tightest (bounds : List (SimpleBound (Extended K))) (limits : Limits (Extended K)) :
    Prop where
  lower : IsTop (valuesOf Comparison.fromBelow bounds) limits.lower
  upper : IsBottom (valuesOf Comparison.fromAbove bounds) limits.upper

variable {bounds rest : List (SimpleBound (Extended K))} {limits : Limits (Extended K)}
  {b : SimpleBound (Extended K)}

theorem tightest_unlimited : Tightest (K := K) [] unlimited where
  lower := .none (by simp [valuesOf])
  upper := .none (by simp [valuesOf])

theorem lower_tighten (limits : Limits (Extended K)) (op : Comparison) (value : Extended K) :
    (limits.tighten op value).lower =
      if op.fromBelow = true then Scalar.greater limits.lower value else limits.lower := by
  cases op <;> rfl

theorem upper_tighten (limits : Limits (Extended K)) (op : Comparison) (value : Extended K) :
    (limits.tighten op value).upper =
      if op.fromAbove = true then Scalar.lesser limits.upper value else limits.upper := by
  cases op <;> rfl

/-- One more bound. -/
theorem Tightest.tighten (h : limits.Tightest bounds)
    (numeric : b.value = undefined ∨ ∃ x, b.value = finite x) :
    (limits.tighten b.op b.value).Tightest (bounds ++ [b]) where
  lower := by
    rw [lower_tighten]
    split
    · next applies =>
        obtain none | ⟨x, value⟩ := numeric
        · rw [valuesOf_concat_of_not (.inr none), none, greater_undefined]
          exact h.lower
        · rw [valuesOf_concat_of_finite applies value, value]
          exact h.lower.greater x
    · next idle =>
        rw [valuesOf_concat_of_not (.inl (Bool.eq_false_iff.mpr idle))]
        exact h.lower
  upper := by
    rw [upper_tighten]
    split
    · next applies =>
        obtain none | ⟨x, value⟩ := numeric
        · rw [valuesOf_concat_of_not (.inr none), none, lesser_undefined]
          exact h.upper
        · rw [valuesOf_concat_of_finite applies value, value]
          exact h.upper.lesser x
    · next idle =>
        rw [valuesOf_concat_of_not (.inl (Bool.eq_false_iff.mpr idle))]
        exact h.upper

/-- All bounds of a list. -/
theorem Tightest.foldl (h : limits.Tightest bounds)
    (numeric : ∀ b ∈ rest, b.value = undefined ∨ ∃ x, b.value = finite x) :
    (rest.foldl (fun limits b => limits.tighten b.op b.value) limits).Tightest
      (bounds ++ rest) := by
  induction rest generalizing bounds limits with
  | nil => rwa [List.append_nil]
  | cons b rest ih =>
      obtain ⟨first, others⟩ := List.forall_mem_cons.mp numeric
      have step := ih (h.tighten first) others
      rwa [List.append_assoc] at step

end Limits

/-! ## The coordinates of a box -/

namespace Scope

/-- The numbers by which the conjuncts of a region bound a variable from one side. -/
def boundsFrom (s : Scope (Extended K)) (side : Comparison → Bool) (region : Expr (Extended K))
    (name : String) : Set K :=
  {x | ∃ e ∈ region.conjuncts, ∃ op, side op = true ∧ s.Bounds name (finite x) op e}

/-- A conjunct of the region is a simple bound on the variable. -/
def IsBounded (s : Scope (Extended K)) (region : Expr (Extended K)) (name : String) : Prop :=
  ∃ e ∈ region.conjuncts, ∃ op x, s.Bounds name (finite x) op e

/-- The coordinate of a variable in the box of a region: the interval from the greatest lower to the
least upper bound, or zero alone if nothing bounds the variable. -/
inductive IsCoordinate (s : Scope (Extended K)) (region : Expr (Extended K)) (name : String) :
    Interval (Extended K) → Prop where
  | free : ¬s.IsBounded region name → IsCoordinate s region name ⟨finite 0, finite 0⟩
  | bounded {lo hi : K} : IsGreatest (s.boundsFrom Comparison.fromBelow region name) lo →
      IsLeast (s.boundsFrom Comparison.fromAbove region name) hi → lo ≤ hi →
      IsCoordinate s region name ⟨finite lo, finite hi⟩

/-- No conjunct compares a variable with a term that is infinite by the constants alone. -/
def FiniteBounds (s : Scope (Extended K)) (region : Expr (Extended K)) : Prop :=
  ∀ name ∈ s.vars.toList, ∀ e ∈ region.conjuncts, ∀ op a, s.Bounds name a op e →
    a ≠ posInf ∧ a ≠ negInf

variable {s : Scope (Extended K)} {region : Expr (Extended K)} {name : String}

theorem Bounds.ne {op : Comparison} {a : Extended K} {e : Expr (Extended K)}
    (h : s.Bounds name a op e) : op ≠ .ne := by
  cases h with
  | left ordered _ => exact ordered
  | right ordered _ => exact fun same => ordered (Comparison.converse_eq_ne_iff.mp same)

/-- Every bound bounds from one side at least. -/
theorem not_isBounded_iff : ¬s.IsBounded region name ↔
    s.boundsFrom Comparison.fromBelow region name = ∅ ∧
      s.boundsFrom Comparison.fromAbove region name = ∅ := by
  simp only [IsBounded, Set.eq_empty_iff_forall_notMem, boundsFrom, Set.mem_ofPred_eq, not_exists,
    not_and]
  constructor
  · intro none
    exact ⟨fun x e mem op _ => none e mem op x, fun x e mem op _ => none e mem op x⟩
  · rintro ⟨noLower, noUpper⟩ e mem op x bounds
    cases op with
    | ne => exact bounds.ne rfl
    | eq | ge | gt => exact noLower x e mem _ rfl bounds
    | le | lt => exact noUpper x e mem _ rfl bounds

/-- The bounds on a variable are what is read off the conjuncts. -/
theorem valuesOf_bounds (disjoint : ∀ name ∈ s.vars.toList, name ∉ s.constants.keys)
    (declared : name ∈ s.vars.toList) (side : Comparison → Bool) :
    Limits.valuesOf side ((region.conjuncts.filterMap s.simpleBound?).filter (·.name == name)) =
      s.boundsFrom side region name := by
  ext x
  simp only [Limits.valuesOf, boundsFrom, Set.mem_ofPred_eq, List.mem_filter, List.mem_filterMap,
    simpleBound?_eq_some_iff disjoint, beq_iff_eq]
  constructor
  · rintro ⟨⟨_, op, _⟩, ⟨⟨e, mem, _, bounds⟩, rfl⟩, applies, rfl⟩
    exact ⟨e, mem, op, applies, bounds⟩
  · rintro ⟨e, mem, op, applies, bounds⟩
    exact ⟨⟨name, op, finite x⟩, ⟨⟨e, mem, declared, bounds⟩, rfl⟩, applies, rfl⟩

theorem numeric_of_finiteBounds (disjoint : ∀ name ∈ s.vars.toList, name ∉ s.constants.keys)
    (finiteBounds : s.FiniteBounds region) {b : SimpleBound (Extended K)}
    (read : b ∈ region.conjuncts.filterMap s.simpleBound?) :
    b.value = undefined ∨ ∃ x, b.value = finite x := by
  obtain ⟨e, mem, found⟩ := List.mem_filterMap.mp read
  obtain ⟨declared, bounds⟩ := (simpleBound?_eq_some_iff disjoint).mp found
  have notInfinite := finiteBounds _ declared e mem _ _ bounds
  cases same : b.value <;> simp_all

/-- The limits that the conjuncts of a region put on a variable. -/
theorem limitsOf_bounds (disjoint : ∀ name ∈ s.vars.toList, name ∉ s.constants.keys)
    (finiteBounds : s.FiniteBounds region) (declared : name ∈ s.vars.toList) :
    IsTop (s.boundsFrom Comparison.fromBelow region name)
        (limitsOf name (region.conjuncts.filterMap s.simpleBound?)).lower ∧
      IsBottom (s.boundsFrom Comparison.fromAbove region name)
        (limitsOf name (region.conjuncts.filterMap s.simpleBound?)).upper := by
  have tightest : (limitsOf name (region.conjuncts.filterMap s.simpleBound?)).Tightest
      ([] ++ (region.conjuncts.filterMap s.simpleBound?).filter (·.name == name)) :=
    Limits.tightest_unlimited.foldl fun b mem =>
      numeric_of_finiteBounds disjoint finiteBounds (List.mem_of_mem_filter mem)
  rw [List.nil_append] at tightest
  rw [← valuesOf_bounds disjoint declared, ← valuesOf_bounds disjoint declared]
  exact ⟨tightest.lower, tightest.upper⟩

theorem isCoordinate_iff {a b : Extended K} {i : Interval (Extended K)}
    (lower : IsTop (s.boundsFrom Comparison.fromBelow region name) a)
    (upper : IsBottom (s.boundsFrom Comparison.fromAbove region name) b) :
    s.IsCoordinate region name i ↔ a = negInf ∧ b = posInf ∧ i = ⟨finite 0, finite 0⟩ ∨
      ∃ lo hi, a = finite lo ∧ b = finite hi ∧ lo ≤ hi ∧ i = ⟨finite lo, finite hi⟩ := by
  constructor
  · rintro (none | ⟨greatest, least, ordered⟩)
    · obtain ⟨noLower, noUpper⟩ := not_isBounded_iff.mp none
      exact .inl ⟨lower.unique (.none noLower), upper.unique (.none noUpper), rfl⟩
    · exact .inr
        ⟨_, _, lower.unique (.some greatest), upper.unique (.some least), ordered, rfl⟩
  · rintro (⟨rfl, rfl, rfl⟩ | ⟨lo, hi, rfl, rfl, ordered, rfl⟩)
    · cases lower with
      | none noLower =>
          cases upper with
          | none noUpper => exact .free (not_isBounded_iff.mpr ⟨noLower, noUpper⟩)
    · obtain _ | greatest := lower
      obtain _ | least := upper
      exact .bounded greatest least ordered

/-- A range is found exactly if the limits are consistent, or there are none. -/
theorem range_eq_ok_iff {limits : Limits (Extended K)}
    (lower : IsTop (s.boundsFrom Comparison.fromBelow region name) limits.lower)
    (upper : IsBottom (s.boundsFrom Comparison.fromAbove region name) limits.upper)
    {quoted : Expr (Extended K)} {i : Interval (Extended K)} :
    limits.range quoted name = .ok i ↔ s.IsCoordinate region name i := by
  rw [isCoordinate_iff lower upper]
  obtain ⟨a, b⟩ := limits
  dsimp only at lower upper ⊢
  rw [Limits.range]
  obtain _ | @⟨lo, _⟩ := lower <;> obtain _ | @⟨hi, _⟩ := upper
  · simp [Scalar.isFinite, lt_iff, Interval.zero, eq_comm]
  · simp [Scalar.isFinite, lt_iff]
  · simp [Scalar.isFinite, lt_iff]
  · by_cases ordered : lo ≤ hi
    · simp [Scalar.isFinite, lt_iff, Interval.make?, ordered, eq_comm]
    · simp [Scalar.isFinite, lt_iff, Interval.make?, ordered]

/-- The box of a region consists of the coordinates of the variables. -/
theorem regionBox_eq_ok_iff (disjoint : ∀ name ∈ s.vars.toList, name ∉ s.constants.keys)
    (finiteBounds : s.FiniteBounds region) {box : List (Interval (Extended K))} :
    s.regionBox region = .ok box ↔ List.Forall₂ (s.IsCoordinate region) s.vars.toList box := by
  rw [regionBox, mapM_eq_ok_iff]
  refine forall₂_congr_of_mem fun name declared i => ?_
  obtain ⟨lower, upper⟩ := limitsOf_bounds disjoint finiteBounds declared
  exact range_eq_ok_iff lower upper

/-! ## States of the region -/

/-- A term with a value by the constants alone has that value in every state. -/
theorem eval_valuation (disjoint : ∀ name ∈ s.vars.toList, name ∉ s.constants.keys)
    {t : Expr (Extended K)} {a : Extended K} (value : t.eval s.midpoints = .ok a)
    (state : List (Extended K)) : t.eval (s.valuation state) = .ok a := by
  rw [← value]
  refine Expr.eval_congr t fun name mem => ?_
  have known := Expr.known_of_eval t value name mem
  refine valuation_of_not_mem (fun declared => known ?_) state
  rw [midpoints, NameMap.find?_eq_none_iff.mpr (disjoint name declared), Option.map_none]

/-- Where a simple bound holds, the variable compares like this with the number. -/
theorem Bounds.apply_of_holds (disjoint : ∀ name ∈ s.vars.toList, name ∉ s.constants.keys)
    {op : Comparison} {b : Extended K} {e : Expr (Extended K)} (h : s.Bounds name b op e)
    {state : List (Extended K)} (holds : e.holds (s.valuation state) = .ok true) :
    ∃ a, s.valuation state name = some a ∧ op.apply a b = true := by
  have known {a : Extended K} (value : (Expr.var name).eval (s.valuation state) = .ok a) :
      s.valuation state name = some a := by
    rw [Expr.eval] at value
    split at value
    · next found => rw [found, Except.ok.inj value]
    · cases value
  cases h with
  | left _ value =>
      rw [Expr.holds, eval_valuation disjoint value state] at holds
      obtain ⟨a, left, holds⟩ := bind_eq_ok_iff.mp holds
      exact ⟨a, known left, Except.ok.inj holds⟩
  | right _ value =>
      rw [Expr.holds, eval_valuation disjoint value state] at holds
      obtain ⟨_, ⟨⟩, holds⟩ := bind_eq_ok_iff.mp holds
      obtain ⟨a, right, holds⟩ := bind_eq_ok_iff.mp holds
      refine ⟨a, known right, ?_⟩
      rw [Comparison.apply_converse _ (Scalar.beq_symmetric _ _)]
      exact Except.ok.inj holds

/-- In a state of the region, the variables that are bounded are inside their coordinates. -/
theorem IsCoordinate.holds (disjoint : ∀ name ∈ s.vars.toList, name ∉ s.constants.keys)
    {i : Interval (Extended K)} (h : s.IsCoordinate region name i)
    (isBounded : s.IsBounded region name) {state : List (Extended K)}
    (satisfied : region.holds (s.valuation state) = .ok true) :
    ∃ x, s.valuation state name = some (finite x) ∧ i.Holds x := by
  obtain free | ⟨greatest, least, _⟩ := h
  · exact absurd isBounded free
  · have conjuncts := (Expr.conjuncts_hold_iff (s.valuation state) region).mpr satisfied
    obtain ⟨e, mem, op, below, lower⟩ := greatest.1
    obtain ⟨a, value, compared⟩ := lower.apply_of_holds disjoint (conjuncts e mem)
    have atLeast := Comparison.le_of_fromBelow below compared
    obtain ⟨e, mem, op, above, upper⟩ := least.1
    obtain ⟨a', value', compared⟩ := upper.apply_of_holds disjoint (conjuncts e mem)
    obtain rfl := Option.some.inj (value.symm.trans value')
    have atMost := Comparison.le_of_fromAbove above compared
    cases a with
    | finite x => exact ⟨x, value, atLeast, atMost⟩
    | undefined | posInf | negInf => simp at atLeast atMost

end Scope

/-! ## Points of a box -/

theorem Interval.middle_finite [IsStrictOrderedRing K] (lo hi : K) :
    Interval.middle ⟨finite lo, finite hi⟩ = finite ((lo + hi) / 2) := by
  have two : ((2 : ℕ) : K) ≠ 0 := Nat.cast_ne_zero.mpr two_ne_zero
  rw [middle, ofNat_eq, finite_add, finite_div two, Nat.cast_ofNat]

namespace Box

variable {box : List (Interval (Extended K))}

/-- A star point has one coordinate on a face of the box, and the others in the center. -/
theorem exists_of_mem_star {point : List (Extended K)} (mem : point ∈ star box) :
    ∃ (index : Nat) (i : Interval (Extended K)) (face : Extended K), box[index]? = some i ∧
      (face = i.min ∨ face = i.max) ∧ point = (center box).set index face := by
  obtain ⟨moved, listed, inside⟩ := List.mem_flatten.mp mem
  obtain ⟨index, lt, rfl⟩ := List.mem_mapIdx.mp listed
  obtain rfl | rfl := List.mem_pair.mp inside
  · exact ⟨index, box[index], _, List.getElem?_eq_getElem lt, .inl rfl, rfl⟩
  · exact ⟨index, box[index], _, List.getElem?_eq_getElem lt, .inr rfl, rfl⟩

variable [IsStrictOrderedRing K]

/-- The center of a box is in the box. -/
theorem boxHolds_center (proper : ∀ i ∈ box, ∃ lo hi, i = ⟨finite lo, finite hi⟩ ∧ lo ≤ hi) :
    ∃ x, center box = x.map finite ∧ BoxHolds box x := by
  induction box with
  | nil => exact ⟨[], rfl, .nil⟩
  | cons i box ih =>
      obtain ⟨⟨lo, hi, rfl, ordered⟩, others⟩ := List.forall_mem_cons.mp proper
      obtain ⟨x, center, inside⟩ := ih others
      refine ⟨(lo + hi) / 2 :: x, ?_, .cons ⟨?_, ?_⟩ inside⟩
      · rw [List.map_cons, ← center, ← Interval.middle_finite]
        rfl
      · exact finite_le_finite.mpr (by linarith)
      · exact finite_le_finite.mpr (by linarith)

/-- The star points of a box are in the box. -/
theorem boxHolds_of_mem_star
    (proper : ∀ i ∈ box, ∃ lo hi, i = ⟨finite lo, finite hi⟩ ∧ lo ≤ hi)
    {point : List (Extended K)} (mem : point ∈ star box) :
    ∃ x, point = x.map finite ∧ BoxHolds box x := by
  obtain ⟨index, i, face, place, onFace, rfl⟩ := exists_of_mem_star mem
  obtain ⟨x, center, inside⟩ := boxHolds_center proper
  obtain ⟨lo, hi, rfl, ordered⟩ := proper i (List.mem_of_getElem? place)
  obtain ⟨y, rfl, inRange⟩ :
      ∃ y, face = finite y ∧ Interval.Holds ⟨finite lo, finite hi⟩ y := by
    obtain rfl | rfl := onFace
    · exact ⟨lo, rfl, le_rfl, ordered⟩
    · exact ⟨hi, rfl, ordered, le_rfl⟩
  exact ⟨x.set index y, by rw [center, List.map_set], forall₂_set inside place inRange⟩

end Box

/-! ## The order of the conjuncts -/

/-- The same answer for two regions; a failure may quote the region. -/
inductive SameAnswer {β : Type} (region region' : Expr (Extended K)) :
    Except (Failure (Extended K)) β → Except (Failure (Extended K)) β → Prop where
  | found (b : β) : SameAnswer region region' (.ok b) (.ok b)
  | contradictory (name : String) : SameAnswer region region'
      (.error (.unsupported (.variable name) .contradictoryBounds))
      (.error (.unsupported (.variable name) .contradictoryBounds))
  | oneSided (name : String) : SameAnswer region region'
      (.error (.unsupported (.variable name) (.boundedOnOneSide region)))
      (.error (.unsupported (.variable name) (.boundedOnOneSide region')))

section

variable {region region' : Expr (Extended K)}

theorem sameAnswer_range (limits : Limits (Extended K)) (name : String) :
    SameAnswer region region' (limits.range region name) (limits.range region' name) := by
  rw [Limits.range, Limits.range]
  split
  · split
    · exact .found _
    · exact .contradictory name
  · exact .found _
  · exact .oneSided name

omit [Field K] [LinearOrder K] [FloorRing K] [Functions K] in
theorem sameAnswer_mapM {γ δ : Type} {f g : γ → Except (Failure (Extended K)) δ} {xs : List γ}
    (h : ∀ x ∈ xs, SameAnswer region region' (f x) (g x)) :
    SameAnswer region region' (xs.mapM f) (xs.mapM g) := by
  induction xs with
  | nil => exact .found []
  | cons x xs ih =>
      obtain ⟨first, others⟩ := List.forall_mem_cons.mp h
      rw [List.mapM_cons, List.mapM_cons]
      generalize f x = a, g x = b at first
      cases first with
      | found y =>
          have rest := ih others
          generalize xs.mapM f = c, xs.mapM g = d at rest
          cases rest with
          | found ys => exact .found (y :: ys)
          | contradictory name => exact .contradictory name
          | oneSided name => exact .oneSided name
      | contradictory name => exact .contradictory name
      | oneSided name => exact .oneSided name

end

namespace Scope

variable {s : Scope (Extended K)} {region region' : Expr (Extended K)}

/-- The box depends only on what the conjuncts are. -/
theorem sameAnswer_regionBox (disjoint : ∀ name ∈ s.vars.toList, name ∉ s.constants.keys)
    (finiteBounds : s.FiniteBounds region)
    (same : ∀ e, e ∈ region'.conjuncts ↔ e ∈ region.conjuncts) :
    SameAnswer region region' (s.regionBox region) (s.regionBox region') := by
  have finiteBounds' : s.FiniteBounds region' := fun name declared e mem =>
    finiteBounds name declared e ((same e).mp mem)
  refine sameAnswer_mapM fun name declared => ?_
  have bounds (side : Comparison → Bool) :
      s.boundsFrom side region' name = s.boundsFrom side region name := by
    simp only [boundsFrom, same]
  obtain ⟨lower, upper⟩ := limitsOf_bounds disjoint finiteBounds declared
  obtain ⟨lower', upper'⟩ := limitsOf_bounds disjoint finiteBounds' declared
  rw [bounds] at lower' upper'
  have limits : limitsOf name (region'.conjuncts.filterMap s.simpleBound?) =
      limitsOf name (region.conjuncts.filterMap s.simpleBound?) :=
    Limits.eq_of_bounds_eq (lower'.unique lower) (upper'.unique upper)
  rw [limits]
  exact sameAnswer_range _ name

/-- The box of a region is the bounding box of its simple bounds, where no constant has the name of
a variable and no bound is infinite. It is found exactly if every variable is bounded consistently
on both sides or not at all, and it consists of the intervals from the greatest lower to the least
upper bound, and of zeros. In every state of the region the bounded variables are inside their
coordinates; the center and the star points are in the box; and neither the order of the conjuncts
nor repetitions among them make a difference. -/
theorem regionBox_is_boundingBox [IsStrictOrderedRing K]
    (disjoint : ∀ name ∈ s.vars.toList, name ∉ s.constants.keys)
    (finiteBounds : s.FiniteBounds region) :
    ((∃ box, s.regionBox region = .ok box) ↔
        ∀ name ∈ s.vars.toList, ¬s.IsBounded region name ∨
          ∃ lo hi, IsGreatest (s.boundsFrom Comparison.fromBelow region name) lo ∧
            IsLeast (s.boundsFrom Comparison.fromAbove region name) hi ∧ lo ≤ hi) ∧
      (∀ box, s.regionBox region = .ok box →
        List.Forall₂ (s.IsCoordinate region) s.vars.toList box ∧
        (∀ state, region.holds (s.valuation state) = .ok true → ∀ (k : Nat) name i,
          s.vars.toList[k]? = some name → box[k]? = some i → s.IsBounded region name →
            ∃ x, state[k]? = some (finite x) ∧ i.Holds x) ∧
        (∃ x, Box.center box = x.map finite ∧ BoxHolds box x) ∧
        ∀ point ∈ Box.star box, ∃ x, point = x.map finite ∧ BoxHolds box x) ∧
      ∀ region', (∀ e, e ∈ region'.conjuncts ↔ e ∈ region.conjuncts) →
        SameAnswer region region' (s.regionBox region) (s.regionBox region') := by
  refine ⟨?_, ?_, fun region' same => sameAnswer_regionBox disjoint finiteBounds same⟩
  · constructor
    · rintro ⟨box, found⟩ name declared
      obtain ⟨i, _, coordinate⟩ :=
        exists_of_forall₂_left ((regionBox_eq_ok_iff disjoint finiteBounds).mp found) declared
      obtain free | ⟨greatest, least, ordered⟩ := coordinate
      · exact .inl free
      · exact .inr ⟨_, _, greatest, least, ordered⟩
    · intro consistent
      refine exists_ok_of_mapM fun name declared => ?_
      obtain ⟨lower, upper⟩ := limitsOf_bounds disjoint finiteBounds declared
      simp only [range_eq_ok_iff lower upper]
      obtain free | ⟨lo, hi, greatest, least, ordered⟩ := consistent name declared
      · exact ⟨_, .free free⟩
      · exact ⟨_, .bounded greatest least ordered⟩
  · intro box found
    have coordinates := (regionBox_eq_ok_iff disjoint finiteBounds).mp found
    have proper : ∀ i ∈ box, ∃ lo hi, i = ⟨finite lo, finite hi⟩ ∧ lo ≤ hi := by
      intro i mem
      obtain ⟨name, _, coordinate⟩ := exists_of_forall₂_right coordinates mem
      cases coordinate with
      | free => exact ⟨0, 0, rfl, le_rfl⟩
      | bounded _ _ ordered => exact ⟨_, _, rfl, ordered⟩
    refine ⟨coordinates, ?_, Box.boxHolds_center proper,
      fun point mem => Box.boxHolds_of_mem_star proper mem⟩
    intro state satisfied k name i position place isBounded
    have declared := List.mem_of_getElem? position
    have coordinate : s.IsCoordinate region name i :=
      (List.forall₂_iff_zip.mp coordinates).2
        (List.mem_of_getElem? (List.getElem?_zip_eq_some.mpr ⟨position, place⟩))
    obtain ⟨x, value, inside⟩ := coordinate.holds disjoint isBounded satisfied
    rw [valuation_eq_getElem? position (disjoint name declared)] at value
    exact ⟨x, value, inside⟩

/-- Of the variables, `x` is bounded by the conjuncts of `x >= 1 && c + 3 > x && 4 == y` from `1` to
`5`, where the constant `c` is in the middle of `[1, 3]`; `y` is fixed, and `z` is free. -/
theorem regionBox_of_mirrored_bounds :
    let s : Scope (Extended ℚ) := {
      vars := .ofList ["x", "y", "z"]
      constants := .ofList [("c", ⟨finite 1, finite 3⟩)] }
    let least : Expr (Extended ℚ) := .binary (.compare .ge) (.var "x") (.num (finite 1))
    let greatest : Expr (Extended ℚ) :=
      .binary (.compare .gt) (.add (.var "c") (.num (finite 3))) (.var "x")
    let fixed : Expr (Extended ℚ) := .binary (.compare .eq) (.num (finite 4)) (.var "y")
    let region : Expr (Extended ℚ) :=
      .binary (.logic .and) (.binary (.logic .and) least greatest) fixed
    let box : List (Interval (Extended ℚ)) :=
      [⟨finite 1, finite 5⟩, ⟨finite 4, finite 4⟩, ⟨finite 0, finite 0⟩]
    (∀ name ∈ s.vars.toList, name ∉ s.constants.keys) ∧ s.FiniteBounds region ∧
      s.regionBox region = .ok box ∧ (∃ x, Box.center box = x.map finite ∧ BoxHolds box x) ∧
      region.holds (s.valuation [finite 2, finite 4, finite 7]) = .ok true ∧
      Interval.Holds ⟨finite (1 : ℚ), finite 5⟩ 2 := by
  intro s least greatest fixed region box
  have disjoint : ∀ name ∈ s.vars.toList, name ∉ s.constants.keys := by decide
  have upper : s.simpleBound? greatest = some ⟨"x", .lt, finite 5⟩ := by
    have middle : Interval.middle ⟨finite (1 : ℚ), finite 3⟩ = finite 2 := by
      rw [Interval.middle_finite]
      norm_num
    have total : ArithOp.add.apply (finite (2 : ℚ)) (finite 3) = finite 5 :=
      congrArg finite (by norm_num)
    rw [← total, ← middle]
    rfl
  have bounds : region.conjuncts.filterMap s.simpleBound? =
      [⟨"x", .ge, finite 1⟩, ⟨"x", .lt, finite 5⟩, ⟨"y", .eq, finite 4⟩] := by
    have parts : region.conjuncts = [least, greatest, fixed] := rfl
    rw [parts, List.filterMap_cons, List.filterMap_cons, List.filterMap_cons, upper]
    rfl
  have finiteBounds : s.FiniteBounds region := by
    intro name declared e mem op a h
    have read : ⟨name, op, a⟩ ∈ region.conjuncts.filterMap s.simpleBound? :=
      List.mem_filterMap.mpr ⟨e, mem, (simpleBound?_eq_some_iff disjoint).mpr ⟨declared, h⟩⟩
    rw [bounds] at read
    obtain ⟨_, _, rfl⟩ | ⟨_, _, rfl⟩ | ⟨_, _, rfl⟩ := by simpa using read
    all_goals simp
  have found : s.regionBox region = .ok box := by
    have names : s.vars.toList = ["x", "y", "z"] := by decide
    rw [regionBox, bounds, names]
    simp [box, limitsOf, Limits.tighten, Limits.unlimited, Limits.range, Scalar.isFinite,
      Scalar.greater, Scalar.lesser, lt_iff, Interval.make?, Interval.zero]
  have satisfied : region.holds (s.valuation [finite 2, finite 4, finite 7]) = .ok true :=
    toOption_eq_some_iff.mp (by decide +kernel)
  obtain ⟨_, ofBox, _⟩ := regionBox_is_boundingBox disjoint finiteBounds
  obtain ⟨_, states, center, _⟩ := ofBox box found
  obtain ⟨x, value, inside⟩ :=
    states _ satisfied 0 "x" _ rfl rfl ⟨least, .head _, .ge, 1, .left (by decide) rfl⟩
  cases value
  exact ⟨disjoint, finiteBounds, found, center, satisfied, inside⟩

end Scope

end HybridAutomata
