import Mathlib
import HybridAutomata.Proofs.Doubles.Decimals

/-!
# The shortest decimal is read back

The neighbourhood of a double consists of numbers to which the double is the nearest one. The search
for a decimal in it goes down to a grid that is finer than the neighbourhood, so that it finds one,
and the double is read back from it.
-/

namespace HybridAutomata

open Extended

namespace Decimal

/-- The number that a decimal stands for. -/
def value (d : Decimal) : ℚ := d.digits * 10 ^ d.exponent

theorem value_strip (d : Decimal) : d.strip.value = d.value := by
  induction d using strip.induct with
  | case1 d h ih =>
      have digits : d.digits = 10 * (d.digits / 10) := by omega
      rw [strip, dif_pos h, ih, value, value]
      conv_rhs => rw [digits]
      rw [zpow_add_one₀ (by norm_num)]
      push_cast
      ring
  | case2 d h => rw [strip, dif_neg h]

end Decimal

namespace Rounding

variable {y : ℚ} {n : ℤ}

theorem halfEven_of_close (h : |y - n| < 1 / 2 ∨ |y - n| ≤ 1 / 2 ∧ n % 2 = 0) : halfEven y = n := by
  have close : |y - n| ≤ 1 / 2 := h.elim le_of_lt And.left
  obtain ⟨lower, upper⟩ := abs_le.mp close
  obtain below | above := lt_or_ge y n
  · have floor : ⌊y⌋ = n - 1 := by
      rw [Int.floor_eq_iff]
      push_cast
      constructor <;> linarith
    have fraction : Int.fract y = y - n + 1 := by
      rw [Int.fract, floor]
      push_cast
      ring
    rw [halfEven, fraction, floor, if_neg (by linarith)]
    obtain strict | ⟨_, even⟩ := h
    · rw [if_pos (by linarith [(abs_lt.mp strict).1]), sub_add_cancel]
    · split <;> omega
  · have floor : ⌊y⌋ = n := Int.floor_eq_iff.mpr ⟨above, by linarith⟩
    have fraction : Int.fract y = y - n := by rw [Int.fract, floor]
    rw [halfEven, fraction, floor]
    obtain strict | ⟨_, even⟩ := h
    · rw [if_pos (by linarith [(abs_lt.mp strict).2])]
    · rw [if_neg (c := 1 / 2 < _) (by linarith), even, add_zero, ite_self]

end Rounding

namespace Double

open Rounding

variable {m : ℕ} {e : ℤ} {y : ℚ}

/-- The numbers whose distance to a double is at most half of that to its neighbours are nearest to
the double. Below a power of two the neighbour is twice as near. -/
theorem Canonical.nearest_of_close (h : Canonical m e)
    (close : |y - m| < 1 / 2 ∨ |y - m| ≤ 1 / 2 ∧ m % 2 = 0)
    (lower : m = 2 ^ 52 → -1074 < e → m - 1 / 4 ≤ y) : nearest (y * 2 ^ e) = m * 2 ^ e := by
  have within : |y - m| ≤ 1 / 2 := close.elim le_of_lt And.left
  obtain ⟨left, right⟩ := abs_le.mp within
  have one : (1 : ℚ) ≤ m := by exact_mod_cast h.positive
  have positive : 0 < y * 2 ^ e := mul_pos (by linarith) (two_zpow_pos e)
  have digits : (m : ℚ) + 1 ≤ 2 ^ 53 := by exact_mod_cast h.digits
  by_cases boundary : y < m ∧ m = 2 ^ 52 ∧ -1074 < e
  · obtain ⟨below, rfl, above⟩ := boundary
    have near := lower rfl above
    push_cast at below near ⊢
    have half : y * 2 ^ e = 2 * y * 2 ^ (e - 1) := by
      rw [zpow_sub_one₀ two_ne_zero]
      ring
    have exponent : exponentOf (y * 2 ^ e) = e - 1 := by
      refine exponentOf_of_between positive (by omega) (fun _ => ?_) ?_
      · rw [show e - 1 + 52 = 51 + e by ring, zpow_add₀ two_ne_zero]
        exact mul_le_mul_of_nonneg_right (by norm_num at near ⊢; linarith) (two_zpow_pos e).le
      · rw [show e - 1 + 53 = 52 + e by ring, zpow_add₀ two_ne_zero]
        exact mul_lt_mul_of_pos_right (by exact_mod_cast below) (two_zpow_pos e)
    have factor : halfEven (2 * y * 2 ^ (e - 1) / 2 ^ (e - 1)) = 2 ^ 53 := by
      rw [mul_div_cancel_right₀ _ (two_zpow_pos (e - 1)).ne']
      refine halfEven_of_close (.inr ⟨abs_le.mpr ?_, by norm_num⟩)
      push_cast
      constructor <;> linarith
    rw [nearest, exponent, half, factor, zpow_sub_one₀ two_ne_zero]
    push_cast
    ring
  · have exponent : exponentOf (y * 2 ^ e) = e := by
      refine exponentOf_of_between positive h.least (fun above => ?_) ?_
      · rw [add_comm, zpow_add₀ two_ne_zero]
        refine mul_le_mul_of_nonneg_right ?_ (two_zpow_pos e).le
        change (2 : ℚ) ^ 52 ≤ y
        obtain same | more := (h.normal above).eq_or_lt
        · have whole : (m : ℚ) ≤ y := not_lt.mp fun below => boundary ⟨below, same.symm, above⟩
          rw [← same] at whole
          exact_mod_cast whole
        · have full : (2 : ℚ) ^ 52 + 1 ≤ m := by exact_mod_cast more
          linarith
      · rw [add_comm, zpow_add₀ two_ne_zero]
        refine mul_lt_mul_of_pos_right ?_ (two_zpow_pos e)
        change y < (2 : ℚ) ^ 53
        linarith
    have factor : halfEven (y * 2 ^ e / 2 ^ exponentOf (y * 2 ^ e)) = m := by
      rw [exponent, mul_div_cancel_right₀ _ (two_zpow_pos e).ne']
      exact halfEven_of_close (by exact_mod_cast close)
    rw [nearest, factor, exponent, Int.cast_natCast]

end Double

namespace Binary64

open Rounding

variable {bits fuel k : ℕ} {e : ℤ}

/-! ## Neighbourhoods -/

/-- The quarters of the binary unit between a number and the end of its neighbourhood below. -/
def below (bits : ℕ) : ℕ := if bits % binade = 0 ∧ bits / binade > 1 then 1 else 2

/-- A quarter of the binary unit, in the units of a neighbourhood on the grid `10 ^ e`. -/
def quarter (bits : ℕ) (e : ℤ) : ℕ := tenTo (-e).toNat <<< (exponent bits - 2).toNat

theorem neighbourhood_eq (bits : ℕ) (e : ℤ) : neighbourhood bits e =
    ⟨(4 * significand bits - below bits) * quarter bits e, 4 * significand bits * quarter bits e,
      (4 * significand bits + 2) * quarter bits e,
      tenTo e.toNat <<< (-(exponent bits - 2)).toNat, significand bits % 2 == 0⟩ := rfl

theorem below_cases (bits : ℕ) : below bits = 1 ∨ below bits = 2 ∧
    ¬(significand bits = 2 ^ 52 ∧ -1074 < exponent bits) := by
  by_cases edge : bits % binade = 0 ∧ bits / binade > 1
  · exact .inl (if_pos edge)
  · refine .inr ⟨if_neg edge, fun ⟨mantissa, above⟩ => edge ?_⟩
    obtain small | large := lt_or_ge bits binade
    · rw [(significand_of_lt small).2] at above
      omega
    · obtain ⟨hm, he⟩ := significand_of_ge large
      rw [hm] at mantissa
      rw [he] at above
      rw [binade] at mantissa
      exact ⟨by rw [binade]; omega, by omega⟩

theorem pow_toNat {c : ℚ} (h : c ≠ 0) (n : ℤ) : c ^ n.toNat = c ^ n * c ^ (-n).toNat := by
  rw [← zpow_natCast, ← zpow_natCast, ← zpow_add₀ h]
  congr 1
  omega

/-- Binary and decimal units are measured alike. -/
theorem exists_measure (bits : ℕ) (e : ℤ) : ∃ d : ℚ, 0 < d ∧
    (quarter bits e : ℚ) = 2 ^ exponent bits / 4 * d ∧
      ((neighbourhood bits e).unit : ℚ) = 10 ^ e * d := by
  have power (n : ℕ) : tenTo n = 10 ^ n := rfl
  have fourth : (2 : ℚ) ^ exponent bits / 4 = 2 ^ (exponent bits - 2) := by
    rw [zpow_sub₀ two_ne_zero]
    norm_num
  simp only [fourth, neighbourhood_eq, quarter, power, Nat.shiftLeft_eq]
  generalize exponent bits - 2 = q
  refine ⟨10 ^ (-e).toNat * 2 ^ (-q).toNat, mul_pos (pow_pos (by norm_num) _) (pow_pos two_pos _),
    ?_, ?_⟩
  · push_cast
    rw [pow_toNat two_ne_zero q]
    ring
  · push_cast
    rw [pow_toNat (by norm_num) e]
    ring

/-- Whole numbers are compared as what they measure is. -/
theorem measured_le_iff {a b : ℕ} {p q c : ℚ} (positive : 0 < c) (ha : (a : ℚ) = p * c)
    (hb : (b : ℚ) = q * c) : a ≤ b ↔ p ≤ q := by
  rw [← mul_le_mul_iff_of_pos_right positive, ← ha, ← hb, Nat.cast_le]

/-- An accepted point is between the ends of the neighbourhood, and on them at most if the mantissa
is even. -/
theorem between_of_accepts (positive : 0 < bits) (small : bits < infinityBits)
    (h : (neighbourhood bits e).accepts k = true) :
    ∃ y : ℚ, y * 2 ^ exponent bits = k * 10 ^ e ∧
      ((significand bits - below bits / 4 : ℚ) < y ∧ y < significand bits + 1 / 2 ∨
        ((significand bits - below bits / 4 : ℚ) ≤ y ∧ y ≤ significand bits + 1 / 2) ∧
          significand bits % 2 = 0) := by
  obtain ⟨d, unit, quarters, units⟩ := exists_measure bits e
  have binary : (0 : ℚ) < 2 ^ exponent bits := two_zpow_pos (exponent bits)
  have measure : 0 < 2 ^ exponent bits * d := mul_pos binary unit
  refine ⟨k * 10 ^ e / 2 ^ exponent bits, div_mul_cancel₀ _ binary.ne', ?_⟩
  generalize scaled : (k * 10 ^ e / 2 ^ exponent bits : ℚ) = y
  have point : ((k * (neighbourhood bits e).unit : ℕ) : ℚ) = y * (2 ^ exponent bits * d) := by
    rw [← scaled, Nat.cast_mul, units]
    field_simp
  have lower : ((neighbourhood bits e).lower : ℚ) =
      (significand bits - below bits / 4) * (2 ^ exponent bits * d) := by
    have pos := (canonical_of_pattern positive small).1.positive
    have few := below_cases bits
    rw [neighbourhood_eq, Nat.cast_mul, Nat.cast_sub (by omega), quarters]
    push_cast
    ring
  have upper : ((neighbourhood bits e).upper : ℚ) =
      (significand bits + 1 / 2) * (2 ^ exponent bits * d) := by
    rw [neighbourhood_eq, Nat.cast_mul, quarters]
    push_cast
    ring
  rw [Neighbourhood.accepts] at h
  split at h
  · next closed =>
      simp only [Bool.and_eq_true, decide_eq_true_eq] at h
      rw [measured_le_iff measure lower point, measured_le_iff measure point upper] at h
      exact .inr ⟨h, beq_iff_eq.mp closed⟩
  · simp only [Bool.and_eq_true, decide_eq_true_eq, ← not_le] at h
    rw [measured_le_iff measure point lower, measured_le_iff measure upper point] at h
    exact .inl ⟨not_le.mp h.1, not_le.mp h.2⟩

/-- The points of a neighbourhood are nearest to its number. -/
theorem nearest_of_accepts (positive : 0 < bits) (small : bits < infinityBits)
    (h : (neighbourhood bits e).accepts k = true) : nearest (k * 10 ^ e) = magnitude bits := by
  obtain ⟨y, same, ends⟩ := between_of_accepts positive small h
  obtain ⟨canonical, _⟩ := canonical_of_pattern positive small
  rw [magnitude, ← same]
  have few := below_cases bits
  have part : (below bits / 4 : ℚ) ≤ 1 / 2 := by
    have : (below bits : ℚ) ≤ 2 := by exact_mod_cast (show below bits ≤ 2 by omega)
    linarith
  refine canonical.nearest_of_close ?_ fun mantissa above => ?_
  · obtain ⟨lower, upper⟩ | ⟨⟨lower, upper⟩, even⟩ := ends
    · exact .inl (abs_lt.mpr ⟨by linarith, by linarith⟩)
    · exact .inr ⟨abs_le.mpr ⟨by linarith, by linarith⟩, even⟩
  · obtain quarter | ⟨_, other⟩ := few
    · rw [quarter, Nat.cast_one] at ends
      obtain ⟨lower, _⟩ | ⟨⟨lower, _⟩, _⟩ := ends <;> linarith
    · exact absurd ⟨mantissa, above⟩ other

/-! ## The search -/

theorem accepts_of_gridPoint? {n : Neighbourhood} (h : n.gridPoint? = some k) :
    n.accepts k = true := by
  unfold Neighbourhood.gridPoint? at h
  dsimp only at h
  split at h
  · next down up =>
      cases h
      split
      · exact up
      · exact down
  · next down _ =>
      cases h
      exact down
  · next _ up =>
      cases h
      exact up
  · cases h

/-- On a grid as fine as a quarter of the binary unit there is a point in the neighbourhood. -/
theorem gridPoint?_ne_none (positive : 0 < significand bits)
    (fine : (neighbourhood bits e).unit ≤ quarter bits e) :
    (neighbourhood bits e).gridPoint? ≠ none := by
  generalize point : (neighbourhood bits e).value / (neighbourhood bits e).unit = k
  have accepted : (neighbourhood bits e).accepts k = true := by
    have unit : 0 < (neighbourhood bits e).unit := by
      rw [neighbourhood_eq, Nat.shiftLeft_eq]
      exact Nat.mul_pos (Nat.pow_pos (by decide)) (Nat.two_pow_pos _)
    have left : k * (neighbourhood bits e).unit ≤ (neighbourhood bits e).value :=
      point ▸ Nat.div_mul_le_self _ _
    have right : (neighbourhood bits e).value <
        k * (neighbourhood bits e).unit + (neighbourhood bits e).unit :=
      point ▸ Nat.lt_div_mul_add unit
    have lower : (neighbourhood bits e).lower + quarter bits e ≤ (neighbourhood bits e).value := by
      rw [neighbourhood_eq, ← Nat.succ_mul]
      refine Nat.mul_le_mul_right _ ?_
      have := below_cases bits
      omega
    have upper : (neighbourhood bits e).value < (neighbourhood bits e).upper := by
      rw [neighbourhood_eq]
      exact Nat.mul_lt_mul_of_pos_right (by omega) (unit.trans_le fine)
    rw [Neighbourhood.accepts]
    split <;> simp only [Bool.and_eq_true, decide_eq_true_eq] <;> omega
  unfold Neighbourhood.gridPoint?
  dsimp only
  rw [point, accepted]
  split <;> simp_all

theorem exists_searchDown (found : ∃ n < fuel, (neighbourhood bits (e - n)).gridPoint? ≠ none) :
    ∃ k e', (neighbourhood bits e').accepts k = true ∧
      searchDown bits e fuel = Decimal.strip ⟨k, e'⟩ := by
  induction fuel generalizing e with
  | zero =>
      obtain ⟨_, none, _⟩ := found
      exact absurd none (Nat.not_lt_zero _)
  | succ fuel ih =>
      rw [searchDown]
      split
      · next k here => exact ⟨k, e, accepts_of_gridPoint? here, rfl⟩
      · next nothing =>
          refine ih ?_
          obtain ⟨n, less, point⟩ := found
          cases n with
          | zero =>
              rw [Nat.cast_zero, sub_zero] at point
              exact absurd nothing point
          | succ n =>
              refine ⟨n, Nat.lt_of_succ_lt_succ less, ?_⟩
              rwa [show e - 1 - (n : ℤ) = e - (n + 1 : ℕ) by omega]

/-! ## The grids that are searched -/

/-- Numbers whose logarithms are compared with those of two and ten are compared as powers of them. -/
theorem ten_zpow_le {s b : ℤ} {k l : ℕ} (positive : 0 < k) (lower : (2 : ℚ) ^ k ≤ 10 ^ l)
    (upper : (10 : ℚ) ^ l ≤ 2 ^ (k + 1)) (h : s * k ≤ b * l) (small : b ≤ k) :
    (10 : ℚ) ^ s ≤ 2 ^ (b + 1) := by
  have two : (0 : ℚ) < 2 ^ k := pow_pos two_pos k
  have most : (10 : ℚ) ^ l / 2 ^ k ≤ 2 := by
    rw [div_le_iff₀ two]
    exact upper.trans_eq (pow_succ' 2 k)
  have powers : ((10 : ℚ) ^ s) ^ k ≤ (2 ^ (b + 1)) ^ k := by
    calc ((10 : ℚ) ^ s) ^ k = 10 ^ (s * k) := by rw [zpow_mul, zpow_natCast]
      _ ≤ 10 ^ (b * l) := zpow_le_zpow_right₀ (by norm_num) h
      _ = (10 ^ l / 2 ^ k) ^ b * (2 ^ k) ^ b := by
          rw [← mul_zpow, div_mul_cancel₀ _ two.ne', mul_comm, zpow_mul, zpow_natCast]
      _ ≤ (10 ^ l / 2 ^ k) ^ (k : ℤ) * (2 ^ k) ^ b :=
          mul_le_mul_of_nonneg_right (zpow_le_zpow_right₀ ((one_le_div two).mpr lower) small)
            (zpow_pos two b).le
      _ ≤ 2 ^ k * (2 ^ k) ^ b := by
          rw [zpow_natCast]
          exact mul_le_mul_of_nonneg_right
            (pow_le_pow_left₀ (div_nonneg (by positivity) two.le) most k) (zpow_pos two b).le
      _ = (2 ^ (b + 1)) ^ k := by
          rw [zpow_add_one₀ two_ne_zero, mul_pow, mul_comm, ← zpow_natCast (2 : ℚ) k, ← zpow_mul,
            mul_comm (k : ℤ), zpow_mul, zpow_natCast, zpow_natCast]
  exact (pow_le_pow_iff_left₀ (zpow_pos (by norm_num) s).le (zpow_pos two_pos _).le
    positive.ne').mp powers

/-- The exponents that the search begins at are those of numbers of the given size. -/
theorem ten_zpow_startExponent_le (positive : 0 < bits) (small : bits < infinityBits) :
    (10 : ℚ) ^ (startExponent bits - 1) ≤ 2 ^ (exponent bits + 54) := by
  obtain ⟨canonical, least⟩ := canonical_of_pattern positive small
  have digits : (significand bits).log2 < 53 :=
    (Nat.log2_lt canonical.positive.ne').mpr canonical.digits
  generalize binary : Int.ofNat (significand bits).log2 + exponent bits + 1 = b
  rw [Int.ofNat_eq_natCast] at binary
  have start : startExponent bits = Int.fdiv (b * 30103) 100000 + 1 := by
    rw [← binary]
    rfl
  have division : Int.fdiv (b * 30103) 100000 * 100000 ≤ b * 30103 := by
    rw [Int.fdiv_eq_ediv_of_nonneg _ (by decide)]
    omega
  have lower : 2 ^ 100000 ≤ 10 ^ 30103 := by decide +kernel
  have upper : 10 ^ 30103 ≤ 2 ^ (100000 + 1) := by decide +kernel
  rw [start, add_sub_cancel_right]
  calc (10 : ℚ) ^ Int.fdiv (b * 30103) 100000 ≤ 2 ^ (b + 1) :=
        ten_zpow_le (k := 100000) (l := 30103) (by decide) (by exact_mod_cast lower)
          (by exact_mod_cast upper) division (by omega)
    _ ≤ 2 ^ (exponent bits + 54) := zpow_le_zpow_right₀ one_le_two (by omega)

/-- The last grid is as fine as a quarter of the binary unit. -/
theorem last_grid_fine (positive : 0 < bits) (small : bits < infinityBits) :
    (neighbourhood bits (startExponent bits - 19)).unit ≤
      quarter bits (startExponent bits - 19) := by
  obtain ⟨d, measure, quarters, units⟩ := exists_measure bits (startExponent bits - 19)
  refine (measured_le_iff measure units quarters).mpr ?_
  rw [show startExponent bits - 19 = startExponent bits - 1 - 18 by ring,
    zpow_sub₀ (by norm_num : (10 : ℚ) ≠ 0), div_le_iff₀ (by norm_num)]
  refine (ten_zpow_startExponent_le positive small).trans ?_
  rw [zpow_add₀ two_ne_zero, div_mul_eq_mul_div, mul_div_assoc]
  refine mul_le_mul_of_nonneg_left ?_ (two_zpow_pos _).le
  norm_num

/-- A finite double is the nearest one to its shortest decimal. -/
theorem nearest_shortest (positive : 0 < bits) (small : bits < infinityBits) :
    nearest (shortest bits).value = magnitude bits := by
  have mantissa := (canonical_of_pattern positive small).1.positive
  obtain ⟨k, e, accepted, found⟩ : ∃ k e, (neighbourhood bits e).accepts k = true ∧
      searchDown bits (startExponent bits) 20 = Decimal.strip ⟨k, e⟩ :=
    exists_searchDown ⟨19, by decide, gridPoint?_ne_none mantissa (last_grid_fine positive small)⟩
  rw [shortest, found, Decimal.value_strip]
  exact nearest_of_accepts positive small accepted

end Binary64

end HybridAutomata
