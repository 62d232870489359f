import Mathlib.Data.Int.Log
import Mathlib.Tactic.Linarith
import Mathlib.Tactic.Positivity
import Mathlib.Tactic.Ring
import HybridAutomata.Proofs.Exact.Fields

/-!
# Rounding to double precision

A double precision number is a multiple of a power of two, of the larger one of the power of two
that leaves 53 digits before the point, and a least one. Rounding takes an exact number to the
nearest such multiple, and of two equally near ones to the one with an even factor. What is too
large for the format becomes an infinity. Rounding keeps the order and commutes with opposites.
-/

namespace HybridAutomata

open Extended

namespace Rounding

/-! ## Whole numbers -/

/-- The whole number nearest to a number; a half goes to the even neighbour. -/
def halfEven (x : ℚ) : ℤ :=
  if Int.fract x < 1 / 2 then ⌊x⌋ else if 1 / 2 < Int.fract x then ⌊x⌋ + 1 else ⌊x⌋ + ⌊x⌋ % 2

theorem floor_le_halfEven (x : ℚ) : ⌊x⌋ ≤ halfEven x ∧ halfEven x ≤ ⌊x⌋ + 1 := by
  unfold halfEven
  split_ifs <;> omega

theorem halfEven_mono {x y : ℚ} (h : x ≤ y) : halfEven x ≤ halfEven y := by
  obtain below | same := (Int.floor_mono h).lt_or_eq
  · exact (floor_le_halfEven x).2.trans ((Int.add_one_le_of_lt below).trans (floor_le_halfEven y).1)
  · have fractions : Int.fract x ≤ Int.fract y := by
      rw [Int.fract, Int.fract, same]
      exact sub_le_sub_right h _
    unfold halfEven
    rw [same]
    split_ifs <;> first | omega | linarith

@[simp] theorem halfEven_intCast (n : ℤ) : halfEven n = n := by
  rw [halfEven, Int.fract_intCast, if_pos (by norm_num), Int.floor_intCast]

theorem halfEven_neg (x : ℚ) : halfEven (-x) = -halfEven x := by
  obtain zero | positive := (Int.fract_nonneg x).eq_or_lt
  · obtain ⟨n, rfl⟩ := Int.fract_eq_zero_iff.mp zero.symm
    rw [← Int.cast_neg, halfEven_intCast, halfEven_intCast]
  · have fraction : Int.fract (-x) = 1 - Int.fract x := Int.fract_neg positive.ne'
    have floor : ⌊-x⌋ = -⌊x⌋ - 1 := by
      have split := Int.floor_add_fract (-x)
      have split' := Int.floor_add_fract x
      have sum : ((⌊-x⌋ : ℤ) : ℚ) = ((-⌊x⌋ - 1 : ℤ) : ℚ) := by
        push_cast
        linarith
      exact Int.cast_injective sum
    unfold halfEven
    rw [fraction, floor]
    split_ifs <;> first | omega | linarith

theorem halfEven_nonneg {x : ℚ} (h : 0 ≤ x) : 0 ≤ halfEven x := by
  have mono := halfEven_mono h
  rwa [← Int.cast_zero, halfEven_intCast] at mono

/-! ## Multiples of powers of two -/

/-- The exponent of the power of two whose multiples are the double precision numbers of a size. -/
def exponentOf (x : ℚ) : ℤ := max (Int.log 2 |x| - 52) (-1074)

/-- The nearest double precision number, if exponents had no upper bound. -/
def nearest (x : ℚ) : ℚ := halfEven (x / 2 ^ exponentOf x) * 2 ^ exponentOf x

theorem exponentOf_neg (x : ℚ) : exponentOf (-x) = exponentOf x := by
  rw [exponentOf, abs_neg, exponentOf]

theorem nearest_neg (x : ℚ) : nearest (-x) = -nearest x := by
  rw [nearest, exponentOf_neg, neg_div, halfEven_neg, nearest]
  push_cast
  ring

theorem two_zpow_pos (e : ℤ) : (0 : ℚ) < 2 ^ e := zpow_pos two_pos e

theorem nearest_nonneg {x : ℚ} (h : 0 ≤ x) : 0 ≤ nearest x := by
  have factor := halfEven_nonneg (div_nonneg h (two_zpow_pos (exponentOf x)).le)
  exact mul_nonneg (Int.cast_nonneg factor) (two_zpow_pos _).le

theorem exponentOf_of_between {x : ℚ} {e : ℤ} (positive : 0 < x) (least : -1074 ≤ e)
    (lower : -1074 < e → 2 ^ (e + 52) ≤ x) (upper : x < 2 ^ (e + 53)) : exponentOf x = e := by
  have below := (Int.lt_zpow_iff_log_lt one_lt_two positive).mp upper
  rw [exponentOf, abs_of_pos positive]
  obtain rfl | above := least.eq_or_lt
  · omega
  · have reached := (Int.zpow_le_iff_le_log one_lt_two positive).mp (lower above)
    omega

/-- A power of two is a multiple of each smaller one. -/
theorem two_zpow_div {e f : ℤ} (h : e ≤ f) : (2 : ℚ) ^ f / 2 ^ e = ((2 ^ (f - e).toNat : ℤ) : ℚ) := by
  rw [← zpow_sub₀ two_ne_zero]
  push_cast
  rw [← zpow_natCast, Int.toNat_of_nonneg (by omega)]

/-- Numbers up to a multiple of their power of two are not rounded above it. -/
theorem nearest_le_two_zpow {x : ℚ} {f : ℤ} (h : x ≤ 2 ^ f) (le : exponentOf x ≤ f) :
    nearest x ≤ 2 ^ f := by
  have factor : halfEven (x / 2 ^ exponentOf x) ≤ 2 ^ (f - exponentOf x).toNat := by
    have mono := halfEven_mono (div_le_div_of_nonneg_right h (two_zpow_pos (exponentOf x)).le)
    rwa [two_zpow_div le, halfEven_intCast] at mono
  have bound : (halfEven (x / 2 ^ exponentOf x) : ℚ) ≤ 2 ^ f / 2 ^ exponentOf x := by
    rw [two_zpow_div le]
    exact Int.cast_le.mpr factor
  exact (le_div_iff₀ (two_zpow_pos _)).mp bound

theorem two_zpow_le_nearest {x : ℚ} {f : ℤ} (h : 2 ^ f ≤ x) (le : exponentOf x ≤ f) :
    2 ^ f ≤ nearest x := by
  have factor : 2 ^ (f - exponentOf x).toNat ≤ halfEven (x / 2 ^ exponentOf x) := by
    have mono := halfEven_mono (div_le_div_of_nonneg_right h (two_zpow_pos (exponentOf x)).le)
    rwa [two_zpow_div le, halfEven_intCast] at mono
  have bound : 2 ^ f / 2 ^ exponentOf x ≤ (halfEven (x / 2 ^ exponentOf x) : ℚ) := by
    rw [two_zpow_div le]
    exact Int.cast_le.mpr factor
  exact (div_le_iff₀ (two_zpow_pos _)).mp bound

/-- Numbers above zero with different powers of two have a power of two between them that both are
compared with. -/
theorem nearest_mono_of_pos {x y : ℚ} (positive : 0 < x) (h : x ≤ y) : nearest x ≤ nearest y := by
  have positive' := positive.trans_le h
  have logs : Int.log 2 |x| ≤ Int.log 2 |y| := by
    rw [abs_of_pos positive, abs_of_pos positive']
    exact Int.log_mono_right positive h
  obtain same | less : exponentOf x = exponentOf y ∨ Int.log 2 |x| < Int.log 2 |y| ∧
      exponentOf y = Int.log 2 |y| - 52 := by
    unfold exponentOf
    omega
  · rw [nearest, nearest, same]
    have factors := halfEven_mono (div_le_div_of_nonneg_right h (two_zpow_pos (exponentOf y)).le)
    exact mul_le_mul_of_nonneg_right (Int.cast_le.mpr factors) (two_zpow_pos _).le
  · obtain ⟨less, exponent⟩ := less
    have lower : x ≤ 2 ^ Int.log 2 |y| := by
      refine ((Int.lt_zpow_iff_log_lt (by norm_num) positive).mpr ?_).le
      rwa [abs_of_pos positive] at less
    have upper : 2 ^ Int.log 2 |y| ≤ y := by
      rw [abs_of_pos positive']
      exact_mod_cast Int.zpow_log_le_self (b := 2) (by norm_num) positive'
    have small : exponentOf x ≤ Int.log 2 |y| := by
      unfold exponentOf at exponent ⊢
      omega
    exact (nearest_le_two_zpow lower small).trans (two_zpow_le_nearest upper (by omega))

theorem nearest_mono {x y : ℚ} (h : x ≤ y) : nearest x ≤ nearest y := by
  obtain positive | nonpos := lt_or_ge 0 x
  · exact nearest_mono_of_pos positive h
  · obtain negative | nonneg := lt_or_ge y 0
    · have mirrored := nearest_mono_of_pos (neg_pos.mpr negative) (neg_le_neg h)
      rwa [nearest_neg, nearest_neg, neg_le_neg_iff] at mirrored
    · have below : nearest x ≤ 0 := by
        have mirrored := nearest_nonneg (neg_nonneg.mpr nonpos)
        rwa [nearest_neg, neg_nonneg] at mirrored
      exact below.trans (nearest_nonneg nonneg)

/-- A multiple of the power of two, or of a larger one, is its own nearest number. -/
theorem nearest_of_multiple {k e : ℤ} (h : exponentOf (k * 2 ^ e) ≤ e) :
    nearest (k * 2 ^ e) = k * 2 ^ e := by
  have factor : (k * 2 ^ e : ℚ) / 2 ^ exponentOf (k * 2 ^ e) =
      ((k * 2 ^ (e - exponentOf (k * 2 ^ e)).toNat : ℤ) : ℚ) := by
    rw [mul_div_assoc, two_zpow_div h]
    push_cast
    rfl
  rw [nearest, factor, halfEven_intCast, ← factor, div_mul_cancel₀ _ (two_zpow_pos _).ne']

theorem nearest_zero : nearest 0 = 0 := by
  rw [nearest, zero_div, ← Int.cast_zero, halfEven_intCast, Int.cast_zero, zero_mul]

/-! ## Overflow -/

/-- The least power of two that no double reaches. -/
def bound : ℚ := 2 ^ (1024 : ℤ)

theorem bound_pos : 0 < bound := zpow_pos two_pos 1024

/-- The value of the double that is nearest to an exact number. What is rounded to the bound or
beyond is infinite. -/
def rounded : Extended ℚ → Extended ℚ
  | finite x =>
      if bound ≤ nearest x then posInf
      else if nearest x ≤ -bound then negInf
      else finite (nearest x)
  | a => a

theorem rounded_of_ge {x : ℚ} (h : bound ≤ nearest x) : rounded (finite x) = posInf := if_pos h

theorem rounded_of_le {x : ℚ} (h : nearest x ≤ -bound) : rounded (finite x) = negInf :=
  (if_neg (h.trans_lt (neg_lt_self bound_pos)).not_ge).trans (if_pos h)

theorem rounded_finite {x : ℚ} (h : |nearest x| < bound) :
    rounded (finite x) = finite (nearest x) := by
  obtain ⟨lower, upper⟩ := abs_lt.mp h
  exact (if_neg upper.not_ge).trans (if_neg lower.not_ge)

theorem rounded_cases (x : ℚ) : bound ≤ nearest x ∨ nearest x ≤ -bound ∨ |nearest x| < bound := by
  rw [abs_lt]
  obtain large | below := le_or_gt bound (nearest x)
  · exact .inl large
  · obtain small | above := le_or_gt (nearest x) (-bound)
    · exact .inr (.inl small)
    · exact .inr (.inr ⟨above, below⟩)

@[simp] theorem rounded_eq_undefined_iff {a : Extended ℚ} :
    rounded a = undefined ↔ a = undefined := by
  cases a with
  | finite x =>
      obtain h | h | h := rounded_cases x
      · simp [rounded_of_ge h]
      · simp [rounded_of_le h]
      · simp [rounded_finite h]
  | undefined => exact Iff.rfl
  | posInf => exact Iff.rfl
  | negInf => exact Iff.rfl

theorem rounded_neg (a : Extended ℚ) : rounded (-a) = -rounded a := by
  cases a with
  | finite x =>
      rw [neg_finite]
      obtain h | h | h := rounded_cases x
      · have mirrored : nearest (-x) ≤ -bound := by
          rw [nearest_neg]
          exact neg_le_neg h
        rw [rounded_of_ge h, rounded_of_le mirrored, neg_posInf]
      · have mirrored : bound ≤ nearest (-x) := by
          rw [nearest_neg]
          exact le_neg_of_le_neg h
        rw [rounded_of_le h, rounded_of_ge mirrored, neg_negInf]
      · have mirrored : |nearest (-x)| < bound := by rwa [nearest_neg, abs_neg]
        rw [rounded_finite h, rounded_finite mirrored, nearest_neg, neg_finite]
  | undefined => rfl
  | posInf => rfl
  | negInf => rfl

theorem rounded_finite_mono {x y : ℚ} (h : x ≤ y) : rounded (finite x) ≤ rounded (finite y) := by
  have mono := nearest_mono h
  have defined (z : ℚ) : rounded (finite z) ≠ undefined := rounded_eq_undefined_iff.not.mpr nofun
  obtain hx | hx | hx := rounded_cases x
  · rw [rounded_of_ge (hx.trans mono)]
    exact le_posInf_iff.mpr (defined x)
  · rw [rounded_of_le hx]
    exact negInf_le_iff.mpr (defined y)
  · obtain hy | hy | hy := rounded_cases y
    · rw [rounded_of_ge hy]
      exact le_posInf_iff.mpr (defined x)
    · exact absurd (mono.trans hy) (abs_lt.mp hx).1.not_ge
    · rw [rounded_finite hx, rounded_finite hy]
      exact finite_le_finite.mpr mono

/-- Rounding keeps the order. -/
theorem rounded_mono {a b : Extended ℚ} (h : a ≤ b) : rounded a ≤ rounded b := by
  obtain ⟨ha, hb⟩ := defined_of_le h
  replace ha : rounded a ≠ undefined := rounded_eq_undefined_iff.not.mpr ha
  replace hb : rounded b ≠ undefined := rounded_eq_undefined_iff.not.mpr hb
  cases a with
  | undefined => exact absurd h (not_undefined_le b)
  | negInf => exact negInf_le_iff.mpr hb
  | posInf =>
      cases b with
      | posInf => exact h
      | _ => simp at h
  | finite x =>
      cases b with
      | undefined => exact absurd h (not_le_undefined _)
      | posInf => exact le_posInf_iff.mpr ha
      | negInf => exact absurd h (not_finite_le_negInf x)
      | finite y => exact rounded_finite_mono (finite_le_finite.mp h)

end Rounding

end HybridAutomata
