import Mathlib
import HybridAutomata.Proofs.Doubles.Values

/-!
# Rounded results of doubles

The operations on doubles compute a whole number of powers of two exactly and drop the digits that
are too many. The two bits that are kept of what was dropped decide which way to round, and with
them the result is the nearest double.
-/

namespace HybridAutomata

namespace Double

open Extended Rounding
open Float.Model (UnpackedFloat Format totalExponent)
open Float.Model.UnpackedFloat (Sign ExtendedMantissa shiftToExponent shiftToTargetExponent
  roundWithAccuracy decreaseExponent)

variable {s : Sign} {m m' : ℕ} {e e' : ℤ}

/-! ## Dropped digits -/

/-- The mantissa is the whole part of a number. The bits say where the number is between the
mantissa and its successor: one half above the mantissa or further, and neither there nor at the
mantissa. -/
structure Represents (em : ExtendedMantissa) (x : ℚ) : Prop where
  lower : em.mantissa ≤ x
  upper : x < em.mantissa + 1
  round : em.roundBit = true ↔ em.mantissa + 1 / 2 ≤ x
  sticky : em.stickyBit = true ↔ x ≠ em.mantissa ∧ x ≠ em.mantissa + 1 / 2

theorem represents_exact (m : ℕ) : Represents (.ofMantissaAndAccuracy m .exact) m where
  lower := le_rfl
  upper := lt_add_one _
  round := by simp [ExtendedMantissa.ofMantissaAndAccuracy]
  sticky := by simp [ExtendedMantissa.ofMantissaAndAccuracy]

/-- Both bits together say whether anything was dropped at all. -/
theorem Represents.inexact {em : ExtendedMantissa} {x : ℚ} (h : Represents em x) :
    (em.roundBit || em.stickyBit) = true ↔ x ≠ em.mantissa := by
  rw [Bool.or_eq_true, h.round, h.sticky]
  constructor
  · rintro (half | ⟨whole, _⟩) same
    · linarith
    · exact whole same
  · intro dropped
    by_cases half : (em.mantissa + 1 / 2 : ℚ) ≤ x
    · exact .inl half
    · exact .inr ⟨dropped, fun same => half same.ge⟩

theorem Represents.shiftRightOne {em : ExtendedMantissa} {x : ℚ} (h : Represents em x) :
    Represents em.shiftRightOne (x / 2) := by
  have lower := h.lower
  have upper := h.upper
  -- the digit that is dropped decides on which side of one half the number is
  obtain ⟨digit, odd, split⟩ : ∃ digit : ℚ, (em.mantissa % 2 ≠ 0 ∧ digit = 1 ∨
      em.mantissa % 2 = 0 ∧ digit = 0) ∧ (em.mantissa : ℚ) = 2 * (em.mantissa / 2 : ℕ) + digit := by
    refine ⟨(em.mantissa % 2 : ℕ), ?_, by exact_mod_cast (Nat.div_add_mod em.mantissa 2).symm⟩
    obtain even | odd := Nat.mod_two_eq_zero_or_one em.mantissa
    · exact .inr ⟨even, by rw [even, Nat.cast_zero]⟩
    · exact .inl ⟨by rw [odd]; exact one_ne_zero, by rw [odd, Nat.cast_one]⟩
  rw [split] at lower upper
  have dropped := h.inexact
  rw [split] at dropped
  have round : em.shiftRightOne.roundBit = true ↔ em.mantissa % 2 ≠ 0 := bne_iff_ne
  obtain ⟨odd, rfl⟩ | ⟨even, rfl⟩ := odd
  · refine ⟨?_, ?_, round.trans (iff_of_true odd ?_), dropped.trans ⟨?_, ?_⟩⟩ <;>
      dsimp only [ExtendedMantissa.shiftRightOne]
    · linarith
    · linarith
    · linarith
    · exact fun ne => ⟨fun same => by linarith, fun same => ne (by linarith)⟩
    · exact fun ne same => ne.2 (by linarith)
  · refine ⟨?_, ?_, round.trans (iff_of_false (not_not.mpr even) ?_), dropped.trans ⟨?_, ?_⟩⟩ <;>
      dsimp only [ExtendedMantissa.shiftRightOne]
    · linarith
    · linarith
    · exact fun half => by linarith
    · exact fun ne => ⟨fun same => ne (by linarith), fun same => by linarith⟩
    · exact fun ne same => ne.1 (by linarith)

theorem Represents.shiftRight {em : ExtendedMantissa} {x : ℚ} (h : Represents em x) (n : ℕ) :
    Represents (em >>> n) (x / 2 ^ n) := by
  change Represents (n.repeat ExtendedMantissa.shiftRightOne em) _
  induction n with
  | zero => simpa [Nat.repeat] using h
  | succ n ih =>
      rw [Nat.repeat, pow_succ, ← div_div]
      exact ih.shiftRightOne

theorem Represents.roundedMantissa {em : ExtendedMantissa} {x : ℚ} (h : Represents em x) :
    (em.roundedMantissa : ℤ) = halfEven x := by
  obtain ⟨mantissa, roundBit, stickyBit⟩ := em
  obtain ⟨lower, upper, round, sticky⟩ := h
  dsimp only at lower upper round sticky
  have floor : ⌊x⌋ = mantissa := Int.floor_eq_iff.mpr ⟨lower, upper⟩
  have fraction : Int.fract x = x - mantissa := by rw [Int.fract, floor, Int.cast_natCast]
  rw [halfEven, fraction, floor]
  cases roundBit with
  | false =>
      have below : ¬(mantissa + 1 / 2 : ℚ) ≤ x := fun half => Bool.false_ne_true (round.mpr half)
      rw [if_pos (by linarith)]
      cases stickyBit <;> rfl
  | true =>
      have half := round.mp rfl
      rw [if_neg (by linarith)]
      cases stickyBit with
      | true =>
          have above := lt_of_le_of_ne half (sticky.mp rfl).2.symm
          rw [if_pos (by linarith)]
          rfl
      | false =>
          have same : x = mantissa + 1 / 2 := by
            by_contra other
            exact Bool.false_ne_true (sticky.mpr ⟨fun whole => by linarith, other⟩)
          rw [if_neg (by linarith)]
          rfl

/-! ## Exponents -/

theorem log_mul_two_zpow (pos : 0 < m) (e : ℤ) : Int.log 2 ((m : ℚ) * 2 ^ e) = m.log2 + e := by
  have positive := mul_two_zpow_pos pos e
  apply le_antisymm
  · have upper : (m : ℚ) < 2 ^ ((m.log2 : ℤ) + 1) := by
      exact_mod_cast Nat.lt_log2_self (n := m)
    have below : (m : ℚ) * 2 ^ e < ((2 : ℕ) : ℚ) ^ ((m.log2 : ℤ) + 1 + e) := by
      rw [Nat.cast_ofNat, zpow_add₀ two_ne_zero]
      exact mul_lt_mul_of_pos_right upper (two_zpow_pos e)
    have less := (Int.lt_zpow_iff_log_lt one_lt_two positive).mp below
    omega
  · have lower : (2 : ℚ) ^ (m.log2 : ℤ) ≤ m := by
      exact_mod_cast Nat.log2_self_le pos.ne'
    refine (Int.zpow_le_iff_le_log one_lt_two positive).mp ?_
    rw [Nat.cast_ofNat, zpow_add₀ two_ne_zero]
    exact mul_le_mul_of_nonneg_right lower (two_zpow_pos e).le

/-- The exponent that is aimed at is that of the nearest double. -/
theorem targetExponent_eq (pos : 0 < m) (e : ℤ) :
    Format.binary64.targetExponent (totalExponent m e) = exponentOf (m * 2 ^ e) := by
  have size := log_mul_two_zpow pos e
  rw [exponentOf, abs_of_pos (mul_two_zpow_pos pos e), size]
  change max ((m.log2 : ℤ) + 1 + e - (1 + 52 : ℕ)) (-1074) = _
  congr 1
  push_cast
  ring

theorem exists_shift (pos : 0 < m) (le : e ≤ exponentOf (m * 2 ^ e)) :
    ∃ em, shiftToTargetExponent Format.binary64 m e .exact = (em, exponentOf (m * 2 ^ e)) ∧
      Represents em (m * 2 ^ e / 2 ^ exponentOf (m * 2 ^ e)) := by
  rw [shiftToTargetExponent, targetExponent_eq pos e]
  generalize exponentOf (m * 2 ^ e) = target at le
  have scaled : (m : ℚ) / 2 ^ (target - e).toNat = m * 2 ^ e / 2 ^ target := by
    rw [mul_div_assoc, ← zpow_sub₀ two_ne_zero, ← zpow_natCast, Int.toNat_of_nonneg (by omega),
      div_eq_mul_inv, ← zpow_neg, neg_sub]
  refine ⟨_, Prod.ext rfl ?_, scaled ▸ (represents_exact m).shiftRight (target - e).toNat⟩
  change e + ((target - e).toNat : ℤ) = target
  omega

/-! ## Rounding -/

/-- A canonical form, of zero or of another number. -/
def IsCanonical : UnpackedFloat → Prop
  | .zero _ => True
  | .finite _ m e _ => Canonical m e
  | _ => False

theorem shiftToTargetExponent_eq (m : ℕ) (e : ℤ) : shiftToTargetExponent Format.binary64 m e .exact =
    shiftToExponent m e .exact (max ((m.log2 : ℤ) + 1 + e - 53) (-1074)) := rfl

/-- A rounded mantissa may have one digit too many, and its last digit is zero then. -/
theorem exists_carry (digits : m ≤ 2 ^ 53) (least : -1074 ≤ e)
    (normal : -1074 < e → 2 ^ 52 ≤ m) :
    ∃ em e', shiftToTargetExponent Format.binary64 m e .exact = (em, e') ∧
      (em.mantissa : ℚ) * 2 ^ e' = m * 2 ^ e ∧ (0 < em.mantissa → Canonical em.mantissa e') := by
  rw [shiftToTargetExponent_eq, shiftToExponent]
  refine ⟨_, _, rfl, ?_⟩
  obtain rfl | short := digits.eq_or_lt
  · have amount : (max (((2 ^ 53).log2 : ℤ) + 1 + e - 53) (-1074) - e).toNat = 1 := by
      rw [Nat.log2_two_pow]
      omega
    rw [amount]
    change ((2 ^ 53 / 2 : ℕ) : ℚ) * 2 ^ (e + (1 : ℕ)) = _ ∧ (0 < 2 ^ 53 / 2 → Canonical (2 ^ 53 / 2) _)
    refine ⟨?_, fun _ => ⟨by norm_num, by norm_num, by omega, fun _ => by norm_num⟩⟩
    rw [Nat.cast_one, zpow_add_one₀ two_ne_zero]
    norm_num
    ring
  · have log : m.log2 < 53 := by
      by_cases zero : m = 0
      · rw [zero]
        norm_num
      · exact (Nat.log2_lt zero).mpr short
    have amount : (max ((m.log2 : ℤ) + 1 + e - 53) (-1074) - e).toNat = 0 := by omega
    rw [amount]
    change (m : ℚ) * 2 ^ (e + (0 : ℕ)) = _ ∧ (0 < m → Canonical m (e + (0 : ℕ)))
    rw [Nat.cast_zero, add_zero]
    exact ⟨rfl, fun pos => ⟨pos, short, least, normal⟩⟩

/-- The bounds of a rounded mantissa. -/
theorem rounded_mantissa_bounds {x : ℚ} (positive : 0 < x) {r : ℕ}
    (rounded : (r : ℤ) = halfEven (x / 2 ^ exponentOf x)) :
    r ≤ 2 ^ 53 ∧ (-1074 < exponentOf x → 2 ^ 52 ≤ r) := by
  have size : Int.log 2 |x| = Int.log 2 x := by rw [abs_of_pos positive]
  constructor
  · have below : x / 2 ^ exponentOf x ≤ ((2 ^ 53 : ℤ) : ℚ) := by
      rw [div_le_iff₀ (two_zpow_pos _)]
      rw [Int.cast_pow, Int.cast_ofNat, ← zpow_natCast, ← zpow_add₀ two_ne_zero]
      have upper : x < ((2 : ℕ) : ℚ) ^ (Int.log 2 x + 1) := Int.lt_zpow_succ_log_self one_lt_two x
      refine upper.le.trans (zpow_le_zpow_right₀ one_le_two ?_)
      unfold exponentOf
      omega
    have factor := halfEven_mono below
    rw [halfEven_intCast, ← rounded] at factor
    exact_mod_cast factor
  · intro above
    have least : ((2 ^ 52 : ℤ) : ℚ) ≤ x / 2 ^ exponentOf x := by
      rw [le_div_iff₀ (two_zpow_pos _)]
      rw [Int.cast_pow, Int.cast_ofNat, ← zpow_natCast, ← zpow_add₀ two_ne_zero]
      have lower : ((2 : ℕ) : ℚ) ^ Int.log 2 x ≤ x := Int.zpow_log_le_self one_lt_two positive
      refine le_trans (zpow_le_zpow_right₀ one_le_two ?_) lower
      unfold exponentOf at above ⊢
      omega
    have factor := halfEven_mono least
    rw [halfEven_intCast, ← rounded] at factor
    exact_mod_cast factor

theorem roundWithAccuracy_eq {em em' : ExtendedMantissa} {f f' : ℤ}
    (shift : shiftToTargetExponent Format.binary64 m e .exact = (em, f))
    (carry : shiftToTargetExponent Format.binary64 em.roundedMantissa f .exact = (em', f')) :
    roundWithAccuracy Format.binary64 s m e .exact =
      if h : em'.mantissa = 0 then .zero s
      else .finite s em'.mantissa f' (Nat.pos_of_ne_zero h) := by
  unfold roundWithAccuracy
  rw [shift]
  dsimp only
  rw [carry]

/-- A number whose exponent is no larger than that of the nearest double is rounded to it. -/
theorem roundWithAccuracy_nearest (pos : 0 < m) (le : e ≤ exponentOf (m * 2 ^ e)) :
    IsCanonical (roundWithAccuracy Format.binary64 s m e .exact) ∧
      valueOf (roundWithAccuracy Format.binary64 s m e .exact) =
        finite (nearest (s.apply m * 2 ^ e)) := by
  obtain ⟨em, shift, represents⟩ := exists_shift pos le
  have rounded := represents.roundedMantissa
  obtain ⟨digits, normal⟩ := rounded_mantissa_bounds (mul_two_zpow_pos pos e) rounded
  obtain ⟨em', e', carry, same, canonical⟩ := exists_carry digits (le_max_right _ _) normal
  have magnitude : (em'.mantissa : ℚ) * 2 ^ e' = nearest (m * 2 ^ e) := by
    rw [same, nearest, ← rounded, Int.cast_natCast, exponentOf]
  have signed : ((s.apply em'.mantissa : ℤ) * 2 ^ e' : ℚ) = nearest (s.apply m * 2 ^ e) := by
    cases s with
    | positive => simpa [Sign.apply] using magnitude
    | negative => simpa [Sign.apply, nearest_neg] using magnitude
  rw [roundWithAccuracy_eq shift carry]
  by_cases zero : em'.mantissa = 0
  · rw [dif_pos zero]
    refine ⟨trivial, congrArg finite ?_⟩
    rw [← signed, zero]
    cases s <;> simp [Sign.apply]
  · rw [dif_neg zero]
    exact ⟨canonical (Nat.pos_of_ne_zero zero), congrArg finite signed⟩

theorem decreased_value (m n : ℕ) (e : ℤ) : ((m <<< n : ℕ) : ℚ) * 2 ^ (e - n) = m * 2 ^ e := by
  rw [Nat.shiftLeft_eq, zpow_sub₀ two_ne_zero, zpow_natCast]
  push_cast
  field_simp

/-- Digits are added where there are too few. -/
theorem round_nearest (s : Sign) (pos : 0 < m) (e : ℤ) :
    IsCanonical (UnpackedFloat.round Format.binary64 s m e) ∧
      valueOf (UnpackedFloat.round Format.binary64 s m e) =
        finite (nearest (s.apply m * 2 ^ e)) := by
  rw [UnpackedFloat.round, targetExponent_eq pos e, decreaseExponent]
  dsimp only
  generalize amount : (e - exponentOf (m * 2 ^ e)).toNat = n
  have shifted := decreased_value m n e
  have pos' : 0 < m <<< n := Nat.shiftLeft_eq m n ▸ Nat.mul_pos pos (Nat.two_pow_pos n)
  have le : e - n ≤ exponentOf ((m <<< n : ℕ) * 2 ^ (e - n)) := by
    rw [shifted]
    omega
  have rounded := roundWithAccuracy_nearest (s := s) pos' le
  cases s with
  | positive =>
      simp only [Sign.apply, Int.cast_natCast] at rounded ⊢
      rwa [shifted] at rounded
  | negative =>
      simp only [Sign.apply, Int.cast_natCast, Int.cast_neg, neg_mul] at rounded ⊢
      rwa [shifted] at rounded

theorem normalize_nearest (k e : ℤ) (s : Sign) :
    IsCanonical (UnpackedFloat.normalize Format.binary64 k e s) ∧
      valueOf (UnpackedFloat.normalize Format.binary64 k e s) = finite (nearest (k * 2 ^ e)) := by
  rw [UnpackedFloat.normalize]
  obtain negative | rfl | positive := lt_trichotomy k 0
  · have rounded := round_nearest .negative (m := (-k).toNat) (by omega) e
    have signed : Sign.negative.apply ((-k).toNat : ℤ) = k := by
      rw [Sign.apply]
      omega
    rw [signed] at rounded
    rw [show compare k 0 = .lt from compare_lt_iff_lt.mpr negative]
    exact rounded
  · refine ⟨trivial, congrArg finite ?_⟩
    rw [Int.cast_zero, zero_mul, nearest_zero]
  · have rounded := round_nearest .positive (m := k.toNat) (by omega) e
    have signed : Sign.positive.apply (k.toNat : ℤ) = k := by
      rw [Sign.apply]
      omega
    rw [signed] at rounded
    rw [show compare k 0 = .gt from compare_gt_iff_gt.mpr positive]
    exact rounded

/-! ## Doubles are not rounded -/

theorem Canonical.nearest_eq (h : Canonical m e) : nearest (m * 2 ^ e) = m * 2 ^ e := by
  have positive := mul_two_zpow_pos h.positive e
  have exponent : exponentOf (m * 2 ^ e) = e :=
    exponentOf_of_between positive h.least h.two_zpow_le h.lt_two_zpow
  rw [← Int.cast_natCast] at exponent ⊢
  exact nearest_of_multiple exponent.le

/-- What has a canonical form is its own nearest number. -/
theorem IsCanonical.nearest_eq {u : UnpackedFloat} {x : ℚ} (canonical : IsCanonical u)
    (same : valueOf u = finite x) : nearest x = x := by
  cases u with
  | notANumber => exact canonical.elim
  | infinity => exact canonical.elim
  | zero s =>
      obtain rfl := Extended.finite.inj same
      exact nearest_zero
  | finite s m e pos =>
      cases s with
      | positive =>
          obtain rfl := Extended.finite.inj (valueOf_positive.symm.trans same)
          exact Canonical.nearest_eq canonical
      | negative =>
          obtain rfl := Extended.finite.inj (valueOf_negative.symm.trans same)
          rw [nearest_neg, Canonical.nearest_eq canonical]

theorem Canonical.bound_le (h : Canonical m e) (large : 971 < e) : bound ≤ m * 2 ^ e :=
  (zpow_le_zpow_right₀ one_le_two (by omega)).trans (h.two_zpow_le (by omega))

theorem Canonical.lt_bound (h : Canonical m e) (small : e ≤ 971) : m * 2 ^ e < bound :=
  h.lt_two_zpow.trans_le (zpow_le_zpow_right₀ one_le_two (by omega))

theorem Canonical.rounded_eq (h : Canonical m e) (small : e ≤ 971) :
    rounded (finite ((m : ℚ) * 2 ^ e)) = finite ((m : ℚ) * 2 ^ e) := by
  rw [rounded_finite, h.nearest_eq]
  rw [h.nearest_eq, abs_of_pos (mul_two_zpow_pos h.positive e)]
  exact h.lt_bound small

theorem rounded_zero : rounded (finite 0) = finite 0 := by
  rw [rounded_finite, nearest_zero]
  rw [nearest_zero, abs_zero]
  exact bound_pos

theorem rounded_valueOf {u : UnpackedFloat} (h : Fits u) : rounded (valueOf u) = valueOf u := by
  rcases u with (_ | _) | _ | s | ⟨_ | _, m, e, pos⟩
  case zero => exact rounded_zero
  case finite.positive => rw [valueOf_positive, h.1.rounded_eq h.2]
  case finite.negative => rw [valueOf_negative, ← neg_finite, rounded_neg, h.1.rounded_eq h.2]
  all_goals rfl

/-! ## Packing -/

theorem repacked_of_fits {u : UnpackedFloat} (h : Fits u) : repacked u = u := by
  cases u with
  | notANumber => rfl
  | infinity s => cases s <;> rfl
  | zero s => exact repacked_zero s
  | finite s m e pos => exact h.1.repacked h.2

/-- What is a double already is kept when it is packed. -/
theorem valueOf_repacked_of_fits {u : UnpackedFloat} {a : Extended ℚ} (h : Fits u)
    (same : valueOf u = a) : valueOf (repacked u) = rounded a := by
  rw [repacked_of_fits h, ← same, rounded_valueOf h]

/-- What is too large becomes infinite when it is packed. -/
theorem IsCanonical.valueOf_repacked {u : UnpackedFloat} (canonical : IsCanonical u) :
    valueOf (repacked u) = rounded (valueOf u) := by
  cases u with
  | notANumber => exact canonical.elim
  | infinity => exact canonical.elim
  | zero s => exact valueOf_repacked_of_fits trivial rfl
  | finite s m e pos =>
      have h : Canonical m e := canonical
      obtain small | large := le_or_gt e 971
      · exact valueOf_repacked_of_fits ⟨h, small⟩ rfl
      · have infinite : rounded (finite ((m : ℚ) * 2 ^ e)) = posInf :=
          rounded_of_ge ((h.bound_le large).trans_eq h.nearest_eq.symm)
        rw [h.repacked_of_large large]
        cases s with
        | positive => rw [valueOf_positive, infinite, valueOf]
        | negative => rw [valueOf_negative, ← neg_finite, rounded_neg, infinite, valueOf, neg_posInf]

theorem valueOf_repacked {u : UnpackedFloat} {x : ℚ} (canonical : IsCanonical u)
    (same : valueOf u = finite (nearest x)) : valueOf (repacked u) = rounded (finite x) := by
  have fixed := canonical.nearest_eq same
  rw [canonical.valueOf_repacked, same, rounded, rounded, fixed]

end Double

end HybridAutomata
