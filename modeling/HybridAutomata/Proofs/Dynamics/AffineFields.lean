import Mathlib.Data.Matrix.Mul
import Mathlib.Data.Nat.Factorial.Basic
import Mathlib.Tactic.Module
import HybridAutomata.Proofs.Continuization.Clock
import HybridAutomata.Proofs.Dynamics.Trajectories
import HybridAutomata.Proofs.Exact.Fields

/-!
# Steps of affine fields

A mode in which every rate is an affine function of the state has the field `F x = A x + b`. The
rates that an integration step samples are then polynomials in the step, and their weighted mean
gives the Taylor polynomial of the solution up to the fourth power: a step of the length `h` leads
from `x` to

`x + h F x + h²/2 A (F x) + h³/6 A² (F x) + h⁴/24 A³ (F x)`.

Other samples or weights would miss one of the powers. A clock advances by the step, so along a grid
it measures the time that has passed.
-/

namespace HybridAutomata

open Extended Success Matrix

namespace VectorField

variable {K : Type}

/-! ## Taylor polynomials -/

section

variable [Field K] {n : ℕ} {A : Matrix (Fin n) (Fin n) K} {b : Fin n → K} {i : Fin n}

/-- The Taylor polynomial, up to the fourth power of the time `h`, of the solution from `x`. -/
def taylor (A : Matrix (Fin n) (Fin n) K) (b : Fin n → K) (h : K) (x : Fin n → K) : Fin n → K :=
  x + ∑ k ∈ Finset.range 4, (h ^ (k + 1) / ((k + 1).factorial : K)) • A ^ k *ᵥ (A *ᵥ x + b)

theorem taylor_eq (A : Matrix (Fin n) (Fin n) K) (b : Fin n → K) (h : K) (x : Fin n → K) :
    taylor A b h x = x + h • (A *ᵥ x + b) + (h ^ 2 / 2) • A *ᵥ (A *ᵥ x + b) +
      (h ^ 3 / 6) • A *ᵥ (A *ᵥ (A *ᵥ x + b)) +
        (h ^ 4 / 24) • A *ᵥ (A *ᵥ (A *ᵥ (A *ᵥ x + b))) := by
  simp [taylor, Finset.sum_range_succ, Nat.factorial, pow_succ', ← mulVec_mulVec, add_assoc]
  norm_num

/-- The times of a grid, each with the state that is reached from the one before. -/
def orbit (A : Matrix (Fin n) (Fin n) K) (b : Fin n → K) (x : Fin n → K) (t : K) :
    List K → List (K × (Fin n → K))
  | [] => [(t, x)]
  | t' :: times => (t, x) :: orbit A b (taylor A b (t' - t) x) t' times

theorem map_fst_orbit (x : Fin n → K) (t : K) (times : List K) :
    (orbit A b x t times).map Prod.fst = t :: times := by
  induction times generalizing x t with
  | nil => rfl
  | cons t' times ih => rw [orbit, List.map_cons, ih]

theorem head?_orbit (x : Fin n → K) (t : K) (times : List K) :
    (orbit A b x t times).head? = some (t, x) := by
  cases times <;> rfl

/-- The coordinate rises at the rate one in every state. -/
structure Measures (A : Matrix (Fin n) (Fin n) K) (b : Fin n → K) (i : Fin n) : Prop where
  row : ∀ x, (A *ᵥ x) i = 0
  constant : b i = 1

theorem measures_of_rate (rate : ∀ x, (A *ᵥ x + b) i = 1) : Measures A b i := by
  have constant : b i = 1 := by simpa using rate 0
  exact ⟨fun x => by simpa [constant] using rate x, constant⟩

theorem Measures.taylor_apply (measures : Measures A b i) (h : K) (x : Fin n → K) :
    taylor A b h x i = x i + h := by
  simp only [taylor_eq, Pi.add_apply, Pi.smul_apply, smul_eq_mul, measures.row, measures.constant]
  ring

/-- At every time of a grid the coordinate has risen by the time that has passed. -/
theorem Measures.orbit_apply (measures : Measures A b i) {x : Fin n → K} {t : K}
    {times : List K} : ∀ s ∈ orbit A b x t times, s.2 i = x i + (s.1 - t) := by
  induction times generalizing x t with
  | nil => simp [orbit]
  | cons t' times ih =>
      rw [orbit, List.forall_mem_cons]
      refine ⟨by simp, fun s mem => ?_⟩
      rw [ih s mem, measures.taylor_apply]
      ring

end

/-! ## States -/

/-- The state with finite coordinates. -/
def point {n : ℕ} (x : Fin n → K) : List (Extended K) := List.ofFn fun i => finite (x i)

@[simp] theorem length_point {n : ℕ} (x : Fin n → K) : (point x).length = n := List.length_ofFn

theorem getElem?_point {n : ℕ} (x : Fin n → K) (i : Fin n) :
    (point x)[(i : ℕ)]? = some (finite (x i)) := by
  rw [point, List.getElem?_ofFn, dif_pos i.isLt]

/-- A time and a state as a sample. -/
def sample {n : ℕ} (s : K × (Fin n → K)) : Sample (Extended K) := ⟨finite s.1, point s.2⟩

theorem finalState_map_sample {n : ℕ} {path : List (K × (Fin n → K))} (nonempty : path ≠ []) :
    (Trajectory.mk (path.map sample) none).finalState = .ok (point (path.getLast nonempty).2) := by
  rw [Trajectory.finalState, List.getLast?_map, List.getLast?_eq_getLast_of_ne_nil nonempty]
  rfl

variable [Field K] [LinearOrder K] [FloorRing K] [Functions K]

theorem finite_sample {n : ℕ} (s : K × (Fin n → K)) : (sample s).Finite := by
  refine List.all_eq_true.mpr fun a mem => ?_
  obtain ⟨i, rfl⟩ := List.mem_ofFn.mp mem
  exact isFinite_iff.mpr ⟨s.2 i, rfl⟩

theorem moved_point {n : ℕ} (x rate : Fin n → K) (t : K) :
    moved (point x) (point rate) (finite t) = point (x + t • rate) := by
  refine List.ext_getElem (by simp [moved]) fun i _ _ => ?_
  simp [moved, point]

theorem weightedAll_point [CharZero K] {n : ℕ} (h : K) (x k₁ k₂ k₃ k₄ : Fin n → K) :
    weightedAll (finite h) (point x) (point k₁) (point k₂) (point k₃) (point k₄) =
      point (x + (h / 6) • (k₁ + (2 : K) • k₂ + (2 : K) • k₃ + k₄)) := by
  have six : (6 : K) ≠ 0 := by norm_num
  rw [weightedAll_eq_zipWith]
  refine List.ext_getElem (by simp) fun i _ _ => ?_
  simp [point, weighted, finite_div six, mul_add]

variable {f : VectorField (Extended K)}

/-! ## Rates -/

/-- The value of a formula in every state is an affine function of the state. -/
def IsAffineRate (f : VectorField (Extended K)) (e : Expr (Extended K)) (a : Fin f.dimension → K)
    (c : K) : Prop :=
  ∀ x, f.eval e (point x) = .ok (finite (a ⬝ᵥ x + c))

namespace IsAffineRate

variable {e l r : Expr (Extended K)} {a a' : Fin f.dimension → K} {c c' : K}

theorem num (c : K) : f.IsAffineRate (.num (finite c)) 0 c := by
  intro x
  rw [zero_dotProduct, zero_add]
  rfl

theorem var (i : Fin f.dimension) {name : String} (position : f.vars[(i : ℕ)]? = some name) :
    f.IsAffineRate (.var name) (Pi.single i 1) 0 := by
  intro x
  have value : f.scope.valuation (point x) name = some (finite (x i)) := by
    rw [Scope.valuation, Scope.coordinate_eq_getElem? f.scope.vars.nodup position, getElem?_point]
  rw [eval, Expr.eval, value, single_one_dotProduct, add_zero]

/-- A constant is taken at the middle of its interval. -/
theorem constant {name : String} {range : Interval (Extended K)} (noVariable : name ∉ f.vars)
    (found : f.scope.constants.find? name = some range) (middle : range.middle = finite c) :
    f.IsAffineRate (.var name) 0 c := by
  intro x
  rw [eval, Expr.eval, Scope.valuation_of_not_mem noVariable, found, Option.map_some, middle,
    zero_dotProduct, zero_add]

theorem neg (h : f.IsAffineRate e a c) : f.IsAffineRate (.neg e) (-a) (-c) := by
  intro x
  have value := h x
  rw [eval] at value ⊢
  rw [Expr.neg, Expr.eval, value, neg_dotProduct, ← neg_add]
  rfl

theorem add (hl : f.IsAffineRate l a c) (hr : f.IsAffineRate r a' c') :
    f.IsAffineRate (.add l r) (a + a') (c + c') := by
  intro x
  have left := hl x
  have right := hr x
  rw [eval] at left right ⊢
  rw [Expr.add, Expr.eval, left, right, add_dotProduct, add_add_add_comm]
  rfl

theorem sub (hl : f.IsAffineRate l a c) (hr : f.IsAffineRate r a' c') :
    f.IsAffineRate (.sub l r) (a - a') (c - c') := by
  intro x
  have left := hl x
  have right := hr x
  rw [eval] at left right ⊢
  rw [Expr.sub, Expr.eval, left, right, sub_dotProduct, ← add_sub_add_comm]
  exact congrArg Except.ok (finite_sub _ _)

/-- A factor in front that does not depend on the state scales a rate. -/
theorem mul (hl : f.IsAffineRate l 0 c) (hr : f.IsAffineRate r a c') :
    f.IsAffineRate (.mul l r) (c • a) (c * c') := by
  intro x
  have left := hl x
  have right := hr x
  rw [zero_dotProduct, zero_add] at left
  rw [eval] at left right ⊢
  rw [Expr.mul, Expr.eval, left, right, smul_dotProduct, smul_eq_mul, ← mul_add]
  rfl

theorem div (hl : f.IsAffineRate l a c) (hr : f.IsAffineRate r 0 c') (nonzero : c' ≠ 0) :
    f.IsAffineRate (.div l r) (c'⁻¹ • a) (c / c') := by
  intro x
  have left := hl x
  have right := hr x
  rw [zero_dotProduct, zero_add] at right
  rw [eval] at left right ⊢
  rw [Expr.div, Expr.eval, left, right, smul_dotProduct, smul_eq_mul, inv_mul_eq_div, ← add_div]
  exact congrArg Except.ok (finite_div nonzero)

end IsAffineRate

/-- All rates are affine functions of the state. A variable without a rate stands still. -/
structure IsAffine (f : VectorField (Extended K))
    (A : Matrix (Fin f.dimension) (Fin f.dimension) K) (b : Fin f.dimension → K) : Prop where
  rates : ∀ (i : Fin f.dimension) name e, f.vars[(i : ℕ)]? = some name → f.rate? name = some e →
    f.IsAffineRate e (A i) (b i)
  still : ∀ (i : Fin f.dimension) name, f.vars[(i : ℕ)]? = some name → f.rate? name = none →
    A i = 0 ∧ b i = 0

namespace IsAffine

variable {A : Matrix (Fin f.dimension) (Fin f.dimension) K} {b : Fin f.dimension → K}

theorem derivative (h : f.IsAffine A b) (x : Fin f.dimension → K) :
    f.derivative (point x) = .ok (point (A *ᵥ x + b)) := by
  refine mapM_eq_ok_iff.mpr (forall₂_of_getElem? (length_point _).symm ?_)
  intro i name rate position value
  have inside : i < f.dimension := (List.getElem?_eq_some_iff.mp position).1
  have coordinate : finite ((A *ᵥ x + b) ⟨i, inside⟩) = rate :=
    Option.some.inj ((getElem?_point _ ⟨i, inside⟩).symm.trans value)
  rw [← coordinate]
  cases rated : f.rate? name with
  | some e => exact h.rates ⟨i, inside⟩ name e position rated x
  | none =>
      obtain ⟨row, constant⟩ := h.still ⟨i, inside⟩ name position rated
      have still : (A *ᵥ x + b) ⟨i, inside⟩ = 0 := by
        rw [Pi.add_apply, mulVec, row, constant, zero_dotProduct, add_zero]
      rw [still, zero_eq]

/-! ## Steps and trajectories -/

theorem advance [CharZero K] (affine : f.IsAffine A b) (x : Fin f.dimension → K) (h : K) :
    f.advance (point x) (finite h) = .ok (point (taylor A b h x)) := by
  have two : (2 : K) ≠ 0 := by norm_num
  have half : (finite h : Extended K) / 2 = finite (h / 2) := by simp [finite_div two]
  -- Along a movement the rate changes by what the matrix makes of it.
  have shifted (y : Fin f.dimension → K) (t : K) :
      A *ᵥ (x + t • y) + b = A *ᵥ x + b + t • A *ᵥ y := by
    rw [mulVec_add, mulVec_smul, add_right_comm]
  simp only [VectorField.advance, half, affine.derivative, moved_point, weightedAll_point, bind,
    Except.bind, shifted]
  refine congrArg (fun y => Except.ok (point y)) ?_
  simp only [mulVec_add, mulVec_smul, taylor_eq]
  module

theorem isChain_orbit [CharZero K] (affine : f.IsAffine A b) (x : Fin f.dimension → K) (t : K)
    (times : List K) : ((orbit A b x t times).map sample).IsChain f.Follows := by
  induction times generalizing x t with
  | nil => exact .singleton _
  | cons t' times ih =>
      rw [orbit, List.map_cons]
      refine List.isChain_cons.mpr ⟨fun s next => ?_, ih _ t'⟩
      rw [List.head?_map, head?_orbit] at next
      obtain rfl := Option.some.inj next
      rw [Follows, sample, sample, finite_sub]
      exact affine.advance x (t' - t)

/-- A trajectory of an affine field does not break off. -/
theorem trajectory [CharZero K] (affine : f.IsAffine A b) (x : Fin f.dimension → K) (t : K)
    (times : List K) : f.trajectory (point x) ((t :: times).map finite) =
      ⟨(orbit A b x t times).map sample, none⟩ := by
  refine (trajectory_eq_iff (by simp)).mpr ⟨length_point x, ⟨?_, ?_, ?_⟩, fun s mem => ?_⟩
  · rw [← map_fst_orbit (A := A) (b := b) x t times, List.map_map, List.map_map]
    rfl
  · rw [List.head?_map, head?_orbit]
    rfl
  · exact affine.isChain_orbit x t times
  · obtain ⟨p, -, rfl⟩ := List.mem_map.mp (List.mem_of_mem_tail mem)
    exact finite_sample p

end IsAffine

/-! ## Clocks -/

variable {a : Automaton (Extended K)} {mode name : String} {m : Mode (Extended K)}

theorem rate?_of_isClock (field : ofMode a mode = .ok f) (found : a.mode? mode = some m)
    (clock : m.isClock name = true) : f.rate? name = some (.num (finite 1)) := by
  obtain ⟨m', flow, found', flows, rfl⟩ := ofMode_eq_ok_iff.mp field
  obtain rfl : m = m' := Option.some.inj (found.symm.trans found')
  obtain ⟨rate, given, one⟩ := Mode.isClock_iff.mp clock
  rw [Mode.flowOf?, flows, Option.bind_some] at given
  obtain ⟨below, above⟩ := beq_iff.mp one
  rw [ofNat_eq, Nat.cast_one] at below above
  rw [rate?, given, eq_finite_of_le below above]
  rfl

theorem IsAffine.measures {A : Matrix (Fin f.dimension) (Fin f.dimension) K}
    {b : Fin f.dimension → K} (affine : f.IsAffine A b) {i : Fin f.dimension}
    (position : f.vars[(i : ℕ)]? = some name) (rate : f.rate? name = some (.num (finite 1))) :
    Measures A b i := by
  refine measures_of_rate fun x => ?_
  have value := affine.rates i name _ position rate x
  exact (Extended.finite.inj (Except.ok.inj value)).symm

/-- In a mode whose rates are affine in the variables an integration step is the Taylor polynomial
of the fourth degree. A clock of the mode advances by the step, and along a grid it shows the time
that has passed. -/
theorem advance_eq_taylor [CharZero K] (field : ofMode a mode = .ok f)
    (found : a.mode? mode = some m) {A : Matrix (Fin f.dimension) (Fin f.dimension) K}
    {b : Fin f.dimension → K} (affine : f.IsAffine A b) :
    (∀ x h, f.advance (point x) (finite h) = .ok (point
      (x + h • (A *ᵥ x + b) + (h ^ 2 / 2) • A *ᵥ (A *ᵥ x + b) +
        (h ^ 3 / 6) • A *ᵥ (A *ᵥ (A *ᵥ x + b)) +
          (h ^ 4 / 24) • A *ᵥ (A *ᵥ (A *ᵥ (A *ᵥ x + b)))))) ∧
      ∀ (i : Fin f.dimension) name, f.vars[(i : ℕ)]? = some name → m.isClock name = true →
        (∀ x h, ∃ y, f.advance (point x) (finite h) = .ok (point y) ∧ y i = x i + h) ∧
          ∀ x t times, (∃ path : List (K × (Fin f.dimension → K)),
              f.trajectory (point x) ((t :: times).map finite) = ⟨path.map sample, none⟩ ∧
                path.map Prod.fst = t :: times ∧ ∀ s ∈ path, s.2 i = x i + (s.1 - t)) ∧
            ∃ y, (f.trajectory (point x) ((t :: times).map finite)).finalState = .ok (point y) ∧
              y i = x i + ((t :: times).getLast (List.cons_ne_nil t times) - t) := by
  refine ⟨fun x h => taylor_eq A b h x ▸ affine.advance x h, fun i name position clock => ?_⟩
  have measures := affine.measures position (rate?_of_isClock field found clock)
  refine ⟨fun x h => ⟨_, affine.advance x h, measures.taylor_apply h x⟩, fun x t times => ?_⟩
  have grid : (orbit A b x t times).map Prod.fst = t :: times := map_fst_orbit x t times
  have nonempty : orbit A b x t times ≠ [] := by
    rintro none
    simp [none] at grid
  refine ⟨⟨_, affine.trajectory x t times, grid, measures.orbit_apply⟩,
    ((orbit A b x t times).getLast nonempty).2, ?_, ?_⟩
  · rw [affine.trajectory]
    exact finalState_map_sample nonempty
  · rw [measures.orbit_apply _ (List.getLast_mem nonempty)]
    simp only [← grid, List.getLast_map]

/-! ### An oscillator with a clock -/

section

variable (K)

def oscillatorFlow : NameMap (Perturbed (Extended K)) :=
  .ofList [("x", .exact (.var "v")), ("v", .exact (.mul (.neg (.var "k")) (.var "x"))),
    ("t", .exact (.num 1))]

def oscillatorMode : Mode (Extended K) where
  name := "on"
  flow := some (oscillatorFlow K)

/-- A spring, whose stiffness is known up to an interval, and a clock. -/
def oscillator : Automaton (Extended K) where
  vars := .ofList ["x", "v", "t"]
  constants := .ofList [("k", ⟨1 / 2, 3 / 2⟩)]
  modes := .ofList [("on", oscillatorMode K)]

def oscillatorField : VectorField (Extended K) := ⟨(oscillator K).toScope, oscillatorFlow K⟩

/-- At the middle of its interval the stiffness is one. -/
theorem oscillator_isAffine : (oscillatorField ℚ).IsAffine
    (!![0, 1, 0; -1, 0, 0; 0, 0, 0] : Matrix (Fin 3) (Fin 3) ℚ) ![0, 0, 1] := by
  let f := oscillatorField ℚ
  have position : f.IsAffineRate (.var "x") (Pi.single (0 : Fin 3) 1) 0 :=
    .var (f := f) (0 : Fin 3) rfl
  have stiffness : f.IsAffineRate (.var "k") 0 1 := by
    have found : f.scope.constants.find? "k" = some ⟨1 / 2, 3 / 2⟩ := rfl
    refine .constant (by decide) found ?_
    have two : ((2 : ℕ) : ℚ) ≠ 0 := by norm_num
    simp only [Interval.middle, ofNat_eq, finite_div two, finite_add]
    norm_num
  have speed : f.IsAffineRate (.var "v") (![0, 1, 0] : Fin 3 → ℚ) 0 := by
    have row : (Pi.single 1 1 : Fin 3 → ℚ) = ![0, 1, 0] := by decide
    exact row ▸ .var (f := f) (1 : Fin 3) rfl
  have acceleration : f.IsAffineRate (.mul (.neg (.var "k")) (.var "x"))
      (![-1, 0, 0] : Fin 3 → ℚ) 0 := by
    have row : (-1 : ℚ) • (Pi.single 0 1 : Fin 3 → ℚ) = ![-1, 0, 0] := by
      ext i
      fin_cases i <;> simp
    have constant : (-1 : ℚ) * 0 = 0 := mul_zero _
    have factor : f.IsAffineRate (.neg (.var "k")) 0 (-1) :=
      neg_zero (G := Fin f.dimension → ℚ) ▸ stiffness.neg
    exact row ▸ constant ▸ factor.mul position
  have clock : f.IsAffineRate (.num 1) (![0, 0, 0] : Fin 3 → ℚ) 1 := by
    have row : (0 : Fin 3 → ℚ) = ![0, 0, 0] := by decide
    have one : (1 : Extended ℚ) = finite 1 := by rw [ofNat_eq, Nat.cast_one]
    exact row ▸ one ▸ .num (f := f) 1
  constructor
  · intro (i : Fin 3) name e place rated
    fin_cases i
    · obtain rfl : "x" = name := Option.some.inj place
      obtain rfl : .var "v" = e := Option.some.inj rated
      exact speed
    · obtain rfl : "v" = name := Option.some.inj place
      obtain rfl : .mul (.neg (.var "k")) (.var "x") = e := Option.some.inj rated
      exact acceleration
    · obtain rfl : "t" = name := Option.some.inj place
      obtain rfl : .num 1 = e := Option.some.inj rated
      exact clock
  · intro (i : Fin 3) name place none
    fin_cases i
    · obtain rfl : "x" = name := Option.some.inj place
      cases none
    · obtain rfl : "v" = name := Option.some.inj place
      cases none
    · obtain rfl : "t" = name := Option.some.inj place
      cases none

/-- The cosine and the sine of one half up to the fourth power, and the time on the clock. -/
theorem advance_eq_taylor_oscillator :
    ofMode (oscillator ℚ) "on" = .ok (oscillatorField ℚ) ∧
      (oscillator ℚ).mode? "on" = some (oscillatorMode ℚ) ∧
      (oscillatorField ℚ).IsAffine
        (!![0, 1, 0; -1, 0, 0; 0, 0, 0] : Matrix (Fin 3) (Fin 3) ℚ) ![0, 0, 1] ∧
      (oscillatorMode ℚ).isClock "t" = true ∧
      (oscillatorField ℚ).advance [finite 1, finite 0, finite 5] (finite (1 / 2)) =
        .ok [finite (337 / 384), finite (-23 / 48), finite (11 / 2)] ∧
      ∃ y : Fin 3 → ℚ, ((oscillatorField ℚ).trajectory [finite 1, finite 0, finite 5]
        [finite 0, finite (1 / 2), finite 3]).finalState = .ok (point y) ∧ y 2 = 8 := by
  have field : ofMode (oscillator ℚ) "on" = .ok (oscillatorField ℚ) := rfl
  have found : (oscillator ℚ).mode? "on" = some (oscillatorMode ℚ) := rfl
  have clock : (oscillatorMode ℚ).isClock "t" = true :=
    Mode.isClock_iff.mpr ⟨1, rfl, by simp⟩
  obtain ⟨steps, clocks⟩ := advance_eq_taylor field found oscillator_isAffine
  have turned (x v t : ℚ) : (!![0, 1, 0; -1, 0, 0; 0, 0, 0] : Matrix (Fin 3) (Fin 3) ℚ) *ᵥ
      ![x, v, t] = ![v, -x, 0] := by
    ext i
    fin_cases i <;> simp [mulVec, dotProduct, Fin.sum_univ_three]
  have reached : taylor (!![0, 1, 0; -1, 0, 0; 0, 0, 0] : Matrix (Fin 3) (Fin 3) ℚ) ![0, 0, 1]
      (1 / 2) ![1, 0, 5] = ![337 / 384, -23 / 48, 11 / 2] := by
    simp only [taylor_eq, turned, cons_add_cons, smul_cons, empty_add_empty, smul_empty]
    norm_num
  obtain ⟨-, y, ends, shown⟩ :=
    (clocks (2 : Fin 3) "t" rfl clock).2 (![1, 0, 5] : Fin 3 → ℚ) 0 [1 / 2, 3]
  refine ⟨field, found, oscillator_isAffine, clock, ?_, y, ends, ?_⟩
  · exact (steps (![1, 0, 5] : Fin 3 → ℚ) (1 / 2)).trans (congrArg (fun y : Fin 3 → ℚ =>
      Except.ok (point y)) ((taylor_eq _ _ _ _).symm.trans reached))
  · have elapsed : (5 : ℚ) + (3 - 0) = 8 := by norm_num
    exact shown.trans elapsed

end

end VectorField

end HybridAutomata
