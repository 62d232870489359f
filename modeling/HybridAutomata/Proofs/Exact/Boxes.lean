import HybridAutomata.Dynamics.Tube
import HybridAutomata.Proofs.Automaton.Coordinates
import HybridAutomata.Proofs.Exact.Containment
import HybridAutomata.Proofs.Exact.Ranges
import HybridAutomata.Proofs.Expr.Lookups

/-!
# Boxes around states

A box holds a state if every interval of it holds the coordinate at its position. The ranges of a
field over a box hold its rates in all states of the box, with any values of the constants inside
their intervals; and a box that is carried on by these ranges holds the states that are carried on
by the rates.
-/

namespace HybridAutomata

open Extended Success

variable {K : Type} [Field K] [LinearOrder K] [FloorRing K] [Functions K]

namespace Interval

variable {i j k : Interval (Extended K)} {x : K}

theorem Holds.of_reaches (h : i.Holds x) (wider : i.Reaches j) : j.Holds x :=
  ⟨Extended.le_trans (wider.min h.defined.1) h.1, Extended.le_trans h.2 (wider.max h.defined.2)⟩

/-- Two intervals that hold one number meet. -/
theorem Holds.meets (h : i.Holds x) (h' : j.Holds x) : i.meets j = true := by
  rw [Interval.meets, Bool.and_eq_true, decide_eq_true_eq, decide_eq_true_eq]
  exact ⟨Extended.le_trans h.1 h'.2, Extended.le_trans h'.1 h.2⟩

theorem reaches_foldl_hull (is : List (Interval (Extended K))) (j : Interval (Extended K)) :
    j.Reaches (is.foldl hull j) ∧ ∀ i ∈ is, i.Reaches (is.foldl hull j) := by
  induction is generalizing j with
  | nil => exact ⟨j.reaches_refl, by simp⟩
  | cons first rest ih =>
      obtain ⟨start, others⟩ := ih (j.hull first)
      refine ⟨(j.reaches_hull_left first).trans start, ?_⟩
      intro i mem
      obtain rfl | mem := List.mem_cons.mp mem
      · exact (j.reaches_hull_right i).trans start
      · exact others i mem

/-- The hull of many intervals holds what one of them does. -/
theorem Holds.of_hullAll {is : List (Interval (Extended K))} (hull : hullAll is = some k)
    (mem : i ∈ is) (h : i.Holds x) : k.Holds x := by
  cases is with
  | nil => cases mem
  | cons first rest =>
      obtain rfl := Option.some.inj hull
      obtain ⟨start, others⟩ := reaches_foldl_hull rest first
      obtain rfl | mem := List.mem_cons.mp mem
      · exact h.of_reaches start
      · exact h.of_reaches (others i mem)

section

variable [IsStrictOrderedRing K]

theorem Holds.width_nonneg (h : i.Holds x) : finite 0 ≤ i.width := by
  have opposite : finite (-x) ≤ -i.min := by
    rw [← neg_finite, Extended.neg_le_neg_iff]
    exact h.1
  rw [← add_neg_cancel x]
  exact finite_le_add h.2 opposite

theorem Holds.bloat (h : i.Holds x) {amount : Extended K} (nonneg : finite 0 ≤ amount) :
    ∃ k, i.bloat amount = .ok k ∧ k.Holds x := by
  have opposite : -amount ≤ finite 0 := by
    rw [← neg_zero, ← neg_finite, Extended.neg_le_neg_iff]
    exact nonneg
  have lower : i.min - amount ≤ finite (x + 0) := add_le_finite h.1 opposite
  have upper : finite (x + 0) ≤ i.max + amount := finite_le_add h.2 nonneg
  rw [add_zero] at lower upper
  exact exists_make lower upper

end

end Interval

/-! ## The room for a change of rates -/

section

variable [IsStrictOrderedRing K]

theorem zero_le_finite_mul {c : K} (positive : 0 < c) {a : Extended K} (nonneg : finite 0 ≤ a) :
    finite 0 ≤ finite c * a := by
  cases a with
  | finite y => exact mul_nonneg positive.le nonneg
  | undefined => exact absurd nonneg (not_le_undefined _)
  | posInf =>
      have product : finite c * posInf = towards (SignType.sign c * 1) := rfl
      rw [product, sign_pos positive]
      exact le_posInf_iff.mpr (by simp)
  | negInf => exact absurd nonneg (not_finite_le_negInf _)

/-- The room that is left around a coordinate is not negative. -/
theorem zero_le_room {i : Interval (Extended K)} {x : K} (h : i.Holds x) :
    finite 0 ≤ 1e-9 + 0.1 * i.width := by
  have tenth : (0 : K) < ((1 : ℕ) : K) * 10 ^ (-((1 : ℕ) : ℤ)) := by positivity
  have least : (0 : K) ≤ ((1 : ℕ) : K) * 10 ^ (-((9 : ℕ) : ℤ)) := by positivity
  have share : finite (0 : K) ≤ 0.1 * i.width := zero_le_finite_mul tenth h.width_nonneg
  rw [← add_zero 0]
  exact finite_le_add (finite_le_finite.mpr least) share

end

/-! ## Boxes -/

/-- Every interval of a box holds the coordinate of a state at its position. -/
def BoxHolds (box : List (Interval (Extended K))) (x : List K) : Prop :=
  List.Forall₂ Interval.Holds box x

/-- A state carried on by rates for a time. -/
def carriedState (x rates : List K) (elapsed : K) : List K :=
  List.zipWith (fun a rate => a + elapsed * rate) x rates

omit [LinearOrder K] [FloorRing K] [Functions K] in
theorem length_carriedState {x rates : List K} (length : x.length = rates.length) (elapsed : K) :
    (carriedState x rates elapsed).length = x.length := by
  rw [carriedState, List.length_zipWith, length, Nat.min_self]

section

variable {box ranges box' : List (Interval (Extended K))} {x rates : List K}
  {elapsed : Interval (Extended K)}

/-- What is done at every position of a box and of the ranges of its rates, and what it does to the
numbers that they hold. -/
theorem exists_mapM_zip
    {f : Interval (Extended K) × Interval (Extended K) →
      Except (Fault (Extended K)) (Interval (Extended K))} {op : K → K → K}
    (step : ∀ {i j a r}, i.Holds a → j.Holds r → ∃ k, f (i, j) = .ok k ∧ k.Holds (op a r))
    (hx : BoxHolds box x) (hr : BoxHolds ranges rates) :
    ∃ made, (box.zip ranges).mapM f = .ok made ∧ BoxHolds made (List.zipWith op x rates) := by
  induction hx generalizing ranges rates with
  | nil => exact ⟨[], rfl, .nil⟩
  | cons first _ ih =>
      cases hr with
      | nil => exact ⟨[], rfl, .nil⟩
      | cons first' others' =>
          obtain ⟨made, success, holds⟩ := ih others'
          obtain ⟨k, hk, result⟩ := step first first'
          refine ⟨k :: made, ?_, .cons result holds⟩
          rw [List.zip_cons_cons, List.mapM_cons, hk, success]
          rfl

namespace VectorField

variable [IsStrictOrderedRing K]

/-- A box carried on holds the states carried on, for every time that the interval of times holds.
-/
theorem exists_carried {s : K} (hs : elapsed.Holds s) (hx : BoxHolds box x)
    (hr : BoxHolds ranges rates) :
    ∃ box', carried elapsed box ranges = .ok box' ∧ BoxHolds box' (carriedState x rates s) := by
  refine exists_mapM_zip ?_ hx hr
  intro i j a r ha hr
  obtain ⟨drift, product, holds⟩ := hs.mul hr
  obtain ⟨k, sum, result⟩ := ha.add holds
  exact ⟨k, bind_eq_ok_iff.mpr ⟨drift, product, sum⟩, result⟩

theorem carried_holds {s : K} (made : carried elapsed box ranges = .ok box') (hs : elapsed.Holds s)
    (hx : BoxHolds box x) (hr : BoxHolds ranges rates) :
    BoxHolds box' (carriedState x rates s) := by
  obtain ⟨other, made', holds⟩ := exists_carried hs hx hr
  obtain rfl := Except.ok.inj (made.symm.trans made')
  exact holds

/-- The rough range of a coordinate holds the number that the coordinate starts from. -/
theorem exists_roughly (now : elapsed.Holds 0) {i j : Interval (Extended K)} {a r : K}
    (ha : i.Holds a) (hr : j.Holds r) : ∃ k, roughly elapsed i j = .ok k ∧ k.Holds a := by
  obtain ⟨drift, product, holds⟩ := now.mul hr
  obtain ⟨reached, sum, _⟩ := ha.add holds
  have hull : (i.hull reached).Holds a := ha.of_reaches (Interval.reaches_hull_left i reached)
  obtain ⟨k, bloated, result⟩ := hull.bloat (zero_le_room holds)
  refine ⟨k, ?_, result⟩
  exact bind_eq_ok_iff.mpr ⟨drift, product, bind_eq_ok_iff.mpr ⟨reached, sum, bloated⟩⟩

/-- The rough box is around the box that it starts from. -/
theorem exists_rough (now : elapsed.Holds 0) (hx : BoxHolds box x) (hr : BoxHolds ranges rates)
    (length : x.length ≤ rates.length) :
    ∃ rough, (box.zip ranges).mapM (fun (i, rate) => roughly elapsed i rate) = .ok rough ∧
      BoxHolds rough x := by
  have kept : List.zipWith (fun a _ => a) x rates = x :=
    (List.map_zip_eq_zipWith (f := (Prod.fst : K × K → K))).symm.trans (List.map_fst_zip length)
  rw [← kept]
  exact exists_mapM_zip (exists_roughly now) hx hr

end VectorField

end

/-! ## Rates -/

/-- The numbers that the names of a scope stand for in a state: the coordinates of the variables,
and given numbers for the constants. -/
def Scope.reading (s : Scope (Extended K)) (constants : String → K) (x : List K) (name : String) :
    K :=
  (valuation.coordinate s.vars.toList x name).getD (constants name)

/-- The numbers chosen for constants are inside their intervals. -/
def Scope.Admits (s : Scope (Extended K)) (constants : String → K) : Prop :=
  ∀ name i, s.constants.find? name = some i → i.Holds (constants name)

theorem Scope.Admits.holds_ranging {s : Scope (Extended K)} {constants : String → K}
    (h : s.Admits constants) {box : List (Interval (Extended K))} {x : List K}
    (hx : BoxHolds box x) {name : String} {i : Interval (Extended K)}
    (found : s.ranging box name = some i) : i.Holds (s.reading constants x name) := by
  have related := coordinate_rel hx s.vars.toList name
  rw [Scope.ranging] at found
  rw [Scope.reading]
  generalize valuation.coordinate s.vars.toList box name = given at found related
  generalize valuation.coordinate s.vars.toList x name = value at related
  cases related with
  | some holds =>
      obtain rfl := Option.some.inj found
      exact holds
  | none => exact h name i found

namespace VectorField

variable {f : VectorField (Extended K)} {constants : String → K} {e : Expr (Extended K)}

/-- The formula is one of arithmetic in every state of every box: the exponents of its powers have
whole values of less than 32 bits. -/
def IsArithmetic (f : VectorField (Extended K)) (constants : String → K) (e : Expr (Extended K)) :
    Prop :=
  ∀ box x, BoxHolds box x → e.Arithmetic (f.scope.ranging box) (f.scope.reading constants x)

/-- The value of a formula in a state. -/
def valueAt? (f : VectorField (Extended K)) (constants : String → K) (x : List K)
    (e : Expr (Extended K)) : Option K :=
  e.value? (f.scope.reading constants x)

/-- The rates in a state; none if one of them is undefined there. -/
def ratesAt? (f : VectorField (Extended K)) (constants : String → K) (x : List K) :
    Option (List K) :=
  f.vars.mapM fun name =>
    match f.rate? name with
    | some e => f.valueAt? constants x e
    | none => some 0

variable {box ranges : List (Interval (Extended K))} {x rates : List K}

theorem length_ratesAt (defined : f.ratesAt? constants x = some rates) :
    rates.length = f.dimension := by
  obtain ⟨total, rfl⟩ := mapM_eq_some_iff.mp defined
  exact List.filterMap_length_eq_length.mpr total

variable [IsStrictOrderedRing K] [IntegerPowers K]

/-- A range over a box holds the value in a state of the box. -/
theorem range_holds (admits : f.scope.Admits constants) (arithmetic : f.IsArithmetic constants e)
    (hx : BoxHolds box x) {i : Interval (Extended K)} (range : f.range e box = .ok i) {y : K}
    (value : f.valueAt? constants x e = some y) : i.Holds y := by
  obtain ⟨j, range', holds⟩ := (arithmetic box x hx).exists_range (fun name mem => by
    obtain ⟨j, found⟩ := Option.ne_none_iff_exists'.mp (Expr.known_of_range e range name mem)
    exact ⟨j, found, admits.holds_ranging hx found⟩) value
  obtain rfl := Except.ok.inj (range.symm.trans range')
  exact holds

/-- The ranges of the rates over a box hold the rates in a state of the box. -/
theorem derivativeRange_holds (admits : f.scope.Admits constants)
    (arithmetic : ∀ name e, f.rate? name = some e → f.IsArithmetic constants e)
    (hx : BoxHolds box x) (made : f.derivativeRange box = .ok ranges)
    (defined : f.ratesAt? constants x = some rates) : BoxHolds ranges rates := by
  refine forall₂_of_mapM_some made defined fun name i y range value => ?_
  cases rate : f.rate? name with
  | some e =>
      simp only [rate] at range value
      exact range_holds admits (arithmetic name e rate) hx range value
  | none =>
      simp only [rate] at range value
      cases range
      cases value
      exact Interval.holds_zero

end VectorField

end HybridAutomata
