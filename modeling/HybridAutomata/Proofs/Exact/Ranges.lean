import HybridAutomata.Proofs.Exact.Powers
import HybridAutomata.Proofs.Exact.Values

/-!
# Enclosure of formulas

The range of a formula over intervals holds the value of the formula at every point of these
intervals. The formulas are those of arithmetic: numbers, names, the four operations, absolute
values, minima and maxima, and powers whose exponents have whole values of 32 bits. Intervals may be
unbounded, and quotients may make them so on the way.
-/

namespace HybridAutomata

open Extended Success

variable {K : Type} [Field K] [LinearOrder K] [FloorRing K] [Functions K]

namespace Interval

/-! ## Functions of order -/

section

variable {i j : Interval (Extended K)} {x y : K}

theorem Holds.min (hx : i.Holds x) (hy : j.Holds y) :
    ∃ k, make (Scalar.lesser i.min j.min) (Scalar.lesser i.max j.max) = .ok k ∧
      k.Holds (Min.min x y) := by
  refine exists_make ?_ ?_
  · obtain eq | eq := min_choice x y
    · rw [eq]
      exact Extended.le_trans (lesser_le_left _ hx.defined.1) hx.1
    · rw [eq]
      exact Extended.le_trans (lesser_le_right _ hy.defined.1) hy.1
  · exact le_lesser (Extended.le_trans (finite_le_finite.mpr (min_le_left x y)) hx.2)
      (Extended.le_trans (finite_le_finite.mpr (min_le_right x y)) hy.2)

theorem Holds.max (hx : i.Holds x) (hy : j.Holds y) :
    ∃ k, make (Scalar.greater i.min j.min) (Scalar.greater i.max j.max) = .ok k ∧
      k.Holds (Max.max x y) := by
  refine exists_make ?_ ?_
  · exact greater_le (Extended.le_trans hx.1 (finite_le_finite.mpr (le_max_left x y)))
      (Extended.le_trans hy.1 (finite_le_finite.mpr (le_max_right x y)))
  · obtain eq | eq := max_choice x y
    · rw [eq]
      exact Extended.le_trans hx.2 (le_greater_left _ hx.defined.2)
    · rw [eq]
      exact Extended.le_trans hy.2 (le_greater_right _ hy.defined.2)

theorem Holds.abs [IsStrictOrderedRing K] (hx : i.Holds x) :
    ∃ k, i.abs = .ok k ∧ k.Holds |x| := by
  rw [Interval.abs, zero_eq]
  split
  · next nonneg =>
      rw [abs_of_nonneg (finite_le_finite.mp (Extended.le_trans nonneg hx.1))]
      exact ⟨i, rfl, hx⟩
  · split
    · next nonpos =>
        rw [abs_of_nonpos (finite_le_finite.mp (Extended.le_trans hx.2 nonpos))]
        exact hx.neg
    · have opposite := hx.neg_bounds.2
      refine exists_make (finite_le_finite.mpr (abs_nonneg x)) ?_
      obtain eq | eq := abs_choice x
      · rw [eq]
        exact Extended.le_trans hx.2 (le_greater_left _ hx.defined.2)
      · rw [eq]
        exact Extended.le_trans opposite (le_greater_right _ (defined_of_le opposite).2)

end

end Interval

namespace Expr

/-! ## Formulas of arithmetic -/

/-- The formulas whose ranges are shown to enclose their values. The exponent of a power has a whole
value of less than 32 bits; unless logarithms are at hand, its range is a single number. -/
inductive Arithmetic (env : String → Option (Interval (Extended K))) (v : String → K) :
    Expr (Extended K) → Prop where
  | num (a : K) : Arithmetic env v (.num (finite a))
  | var (name : String) : Arithmetic env v (.var name)
  | neg {e : Expr (Extended K)} : Arithmetic env v e → Arithmetic env v (neg e)
  | add {l r : Expr (Extended K)} :
      Arithmetic env v l → Arithmetic env v r → Arithmetic env v (add l r)
  | sub {l r : Expr (Extended K)} :
      Arithmetic env v l → Arithmetic env v r → Arithmetic env v (sub l r)
  | mul {l r : Expr (Extended K)} :
      Arithmetic env v l → Arithmetic env v r → Arithmetic env v (mul l r)
  | div {l r : Expr (Extended K)} :
      Arithmetic env v l → Arithmetic env v r → Arithmetic env v (div l r)
  | pow {l r : Expr (Extended K)} (n : ℤ) :
      Arithmetic env v l → Arithmetic env v r → r.value? v = some (n : K) → |n| < 2 ^ 31 →
      ((∀ i, r.range env = .ok i → i.isPoint = true) ∨ Exponentials K) →
      Arithmetic env v (pow l r)
  | abs {e : Expr (Extended K)} : Arithmetic env v e → Arithmetic env v (.call "abs" [e])
  | min {l r : Expr (Extended K)} :
      Arithmetic env v l → Arithmetic env v r → Arithmetic env v (.call "min" [l, r])
  | max {l r : Expr (Extended K)} :
      Arithmetic env v l → Arithmetic env v r → Arithmetic env v (.call "max" [l, r])

/-- A whole literal of less than 32 bits can be an exponent everywhere. -/
theorem Arithmetic.pow_intCast {env : String → Option (Interval (Extended K))} {v : String → K}
    {e : Expr (Extended K)} {n : ℤ} (h : Arithmetic env v e) (small : |n| < 2 ^ 31) :
    Arithmetic env v (Expr.pow e (.num (finite (n : K)))) := by
  refine .pow n h (.num _) rfl small (.inl fun i found => ?_)
  rw [range, liftFaultRange_eq_ok_iff, Interval.point_finite] at found
  obtain rfl := Except.ok.inj found
  exact beq_iff.mpr ⟨le_rfl, le_rfl⟩

/-! ## The range of a step -/

section

variable {α : Type} [Scalar α] {env : String → Option (Interval α)} {e l r : Expr α}
  {i j k : Interval α}

attribute [local simp] range rangeArgs

theorem range_neg (he : e.range env = .ok i) (h : i.neg = .ok k) :
    (neg e).range env = .ok k := by
  simp only [range, bind_eq_ok_iff, liftFaultRange_eq_ok_iff]
  exact ⟨i, he, h⟩

theorem range_arith {op : ArithOp} (hl : l.range env = .ok i) (hr : r.range env = .ok j)
    (h : Interval.applyArith op i j = .ok k) : (binary (.arith op) l r).range env = .ok k := by
  simp only [range, bind_eq_ok_iff, liftFaultRange_eq_ok_iff]
  exact ⟨i, hl, j, hr, h⟩

theorem range_call {name : String} {args : List (Expr α)} {is : List (Interval α)}
    (hargs : rangeArgs env args = .ok is)
    (h : Interval.applyFunction name is = .ok (some k)) : (call name args).range env = .ok k := by
  simp only [range, bind_eq_ok_iff, liftFaultRange_eq_ok_iff]
  exact ⟨is, hargs, some k, h, rfl⟩

theorem rangeArgs_one (he : e.range env = .ok i) : rangeArgs env [e] = .ok [i] := by
  simp [he, bind, Except.bind, pure, Except.pure]

theorem rangeArgs_two (hl : l.range env = .ok i) (hr : r.range env = .ok j) :
    rangeArgs env [l, r] = .ok [i, j] := by
  simp [hl, hr, bind, Except.bind, pure, Except.pure]

end

/-! ## Enclosure -/

section

variable [IsStrictOrderedRing K] [IntegerPowers K]
  {env : String → Option (Interval (Extended K))} {v : String → K} {e : Expr (Extended K)}

theorem Arithmetic.exists_range (h : Arithmetic env v e)
    (inside : ∀ name ∈ e.names, ∃ i, env name = some i ∧ i.Holds (v name)) {x : K}
    (hx : e.value? v = some x) : ∃ i, e.range env = .ok i ∧ i.Holds x := by
  induction h generalizing x with
  | num a =>
      obtain rfl : a = x := Extended.finite.inj (number?_eq_some_iff.mp hx)
      exact ⟨_, by simpa [range] using Interval.point_finite a, Interval.holds_point.mpr rfl⟩
  | var name =>
      obtain ⟨i, found, holds⟩ := inside name (by simp [names])
      cases hx
      exact ⟨i, by simp [range, found], holds⟩
  | neg _ ih =>
      obtain ⟨a, ha, rfl⟩ := value?_neg.mp hx
      obtain ⟨i, hi, holds⟩ := ih inside ha
      obtain ⟨k, hk, holds'⟩ := holds.neg
      exact ⟨k, range_neg hi hk, holds'⟩
  | add _ _ ihl ihr =>
      obtain ⟨insideL, insideR⟩ := List.forall_mem_append.mp inside
      obtain ⟨a, b, ha, hb, rfl⟩ := value?_add.mp hx
      obtain ⟨i, hi, holds⟩ := ihl insideL ha
      obtain ⟨j, hj, holds'⟩ := ihr insideR hb
      obtain ⟨k, hk, result⟩ := holds.add holds'
      exact ⟨k, range_arith hi hj hk, result⟩
  | sub _ _ ihl ihr =>
      obtain ⟨insideL, insideR⟩ := List.forall_mem_append.mp inside
      obtain ⟨a, b, ha, hb, rfl⟩ := value?_sub.mp hx
      obtain ⟨i, hi, holds⟩ := ihl insideL ha
      obtain ⟨j, hj, holds'⟩ := ihr insideR hb
      obtain ⟨k, hk, result⟩ := holds.sub holds'
      exact ⟨k, range_arith hi hj hk, result⟩
  | mul _ _ ihl ihr =>
      obtain ⟨insideL, insideR⟩ := List.forall_mem_append.mp inside
      obtain ⟨a, b, ha, hb, rfl⟩ := value?_mul.mp hx
      obtain ⟨i, hi, holds⟩ := ihl insideL ha
      obtain ⟨j, hj, holds'⟩ := ihr insideR hb
      obtain ⟨k, hk, result⟩ := holds.mul holds'
      exact ⟨k, range_arith hi hj hk, result⟩
  | div _ _ ihl ihr =>
      obtain ⟨insideL, insideR⟩ := List.forall_mem_append.mp inside
      obtain ⟨a, b, ha, hb, ne, rfl⟩ := value?_div.mp hx
      obtain ⟨i, hi, holds⟩ := ihl insideL ha
      obtain ⟨j, hj, holds'⟩ := ihr insideR hb
      obtain ⟨k, hk, result⟩ := holds.div holds' ne
      exact ⟨k, range_arith hi hj hk, result⟩
  | pow n _ _ exponent bound known ihl ihr =>
      obtain ⟨insideL, insideR⟩ := List.forall_mem_append.mp inside
      obtain ⟨a, ha, defined, rfl⟩ := (value?_pow_intCast exponent).mp hx
      obtain ⟨i, hi, holds⟩ := ihl insideL ha
      obtain ⟨j, hj, holds'⟩ := ihr insideR exponent
      obtain ⟨k, hk, result⟩ := holds.pow holds' bound defined (known.imp_left fun h => h j hj)
      exact ⟨k, range_arith hi hj hk, result⟩
  | abs _ ih =>
      have inside' := List.forall_mem_append.mp inside
      obtain ⟨a, ha, rfl⟩ := value?_abs.mp hx
      obtain ⟨i, hi, holds⟩ := ih inside'.1 ha
      obtain ⟨k, hk, result⟩ := holds.abs
      exact ⟨k, range_call (rangeArgs_one hi) (map_eq_ok_iff.mpr ⟨k, hk, rfl⟩), result⟩
  | min _ _ ihl ihr =>
      obtain ⟨insideL, inside'⟩ := List.forall_mem_append.mp inside
      have insideR := List.forall_mem_append.mp inside'
      obtain ⟨a, b, ha, hb, rfl⟩ := value?_min.mp hx
      obtain ⟨i, hi, holds⟩ := ihl insideL ha
      obtain ⟨j, hj, holds'⟩ := ihr insideR.1 hb
      obtain ⟨k, hk, result⟩ := holds.min holds'
      exact ⟨k, range_call (rangeArgs_two hi hj) (map_eq_ok_iff.mpr ⟨k, hk, rfl⟩), result⟩
  | max _ _ ihl ihr =>
      obtain ⟨insideL, inside'⟩ := List.forall_mem_append.mp inside
      have insideR := List.forall_mem_append.mp inside'
      obtain ⟨a, b, ha, hb, rfl⟩ := value?_max.mp hx
      obtain ⟨i, hi, holds⟩ := ihl insideL ha
      obtain ⟨j, hj, holds'⟩ := ihr insideR.1 hb
      obtain ⟨k, hk, result⟩ := holds.max holds'
      exact ⟨k, range_call (rangeArgs_two hi hj) (map_eq_ok_iff.mpr ⟨k, hk, rfl⟩), result⟩

/-- Where a formula has a value at a point inside the intervals of its names, its range is found
without a fault, has its bounds in order, and contains what evaluation answers at the point. -/
theorem range_encloses (h : Arithmetic env v e)
    (inside : ∀ name ∈ e.names, ∃ i, env name = some i ∧ i.contains (finite (v name)) = true)
    {x : K} (hx : e.value? v = some x) :
    e.eval (assign v) = .ok (finite x) ∧
      ∃ i, e.range env = .ok i ∧ i.Ordered ∧ i.contains (finite x) = true := by
  obtain ⟨i, hi, holds⟩ := h.exists_range (fun name mem => by
    obtain ⟨i, found, contains⟩ := inside name mem
    exact ⟨i, found, Interval.contains_iff.mp contains⟩) hx
  exact ⟨eval_of_value? v e hx, i, hi, holds.ordered, Interval.contains_iff.mpr holds⟩

end

/-- The inverse of a cube around zero, divided by something unbounded: `x ^ (-3) / y` for `x` from
`-2` on and `y` up to `3`, at `x = 2` and `y = 2`. -/
theorem range_encloses_inverse_cube :
    (div (pow (.var "x") (.num (finite (-3)))) (.var "y") : Expr (Extended ℚ)).eval
        (assign fun _ => 2) = .ok (finite (1 / 16)) ∧
      ∃ i, (div (pow (.var "x") (.num (finite (-3)))) (.var "y") : Expr (Extended ℚ)).range
          (fun name => some (if name = "x" then ⟨finite (-2), posInf⟩ else ⟨negInf, finite 3⟩)) =
        .ok i ∧ i.Ordered ∧ i.contains (finite (1 / 16)) = true := by
  have known : ∀ i, (Expr.num (finite (-3 : ℚ))).range (fun name =>
      some (if name = "x" then ⟨finite (-2), posInf⟩ else ⟨negInf, finite 3⟩)) = .ok i →
      i.isPoint = true := by
    intro i h
    rw [range, liftFaultRange_eq_ok_iff, Interval.point_finite] at h
    cases h
    decide
  refine range_encloses (v := fun _ => (2 : ℚ))
    (.div (.pow (-3) (.var "x") (.num (-3)) rfl (by decide) (.inl known)) (.var "y")) ?_ ?_
  · intro name mem
    refine ⟨_, rfl, ?_⟩
    split <;> decide
  · decide +kernel

end Expr

end HybridAutomata
