import Mathlib
import HybridAutomata.Proofs.Decimal.DoubleOrder
import HybridAutomata.Proofs.Doubles.Rounding

/-!
# The values of doubles

A double stands for an exact number, an infinity, or nothing. Its mantissa and exponent are in
canonical form, with 53 digits unless the exponent is the least one, so that the order of the
doubles, which goes by exponents first, is the order of their values.
-/

namespace HybridAutomata

namespace Double

open Extended
open Rounding (two_zpow_pos)
open Float.Model (UnpackedFloat Format)
open Float.Model.UnpackedFloat (Sign packComponents unpackSign unpackExponent unpackMantissa
  unpackExponent_packComponents unpackMantissa_packComponents unpackSign_packComponents)

variable {x y : Float} {s : Sign} {m m' : ℕ} {e e' : ℤ}

/-! ## Canonical forms -/

/-- A mantissa of at most 53 digits, and of no fewer above the least exponent. -/
structure Canonical (m : ℕ) (e : ℤ) : Prop where
  positive : 0 < m
  digits : m < 2 ^ 53
  least : -1074 ≤ e
  normal : -1074 < e → 2 ^ 52 ≤ m

theorem toNat_one_append (b : BitVec 52) : (1#1 ++ b).toNat = 2 ^ 52 + b.toNat := by
  rw [BitVec.toNat_append, Nat.shiftLeft_eq, mul_comm, ← Nat.two_pow_add_eq_or_of_lt b.isLt]
  rfl

theorem canonical_of_unpack {b : BitVec Format.binary64.numBits} {pos : 0 < m}
    (h : UnpackedFloat.unpack Format.binary64 b = .finite s m e pos) :
    Canonical m e ∧ e ≤ 971 := by
  have exponents : (unpackExponent b).toNat < 2 ^ 11 := (unpackExponent b).isLt
  have mantissas : (unpackMantissa b).toNat < 2 ^ 52 := (unpackMantissa b).isLt
  by_cases ones : unpackExponent b = -1
  · by_cases zero : unpackMantissa b = 0
    · cases h.symm.trans ((if_pos ones).trans (if_pos zero))
    · cases h.symm.trans ((if_pos ones).trans (if_neg zero))
  · by_cases small : unpackExponent b = 0
    · by_cases zero : unpackMantissa b = 0
      · cases h.symm.trans ((if_neg ones).trans ((if_pos small).trans (dif_pos zero)))
      · cases h.symm.trans ((if_neg ones).trans ((if_pos small).trans (dif_neg zero)))
        rw [small]
        exact ⟨⟨pos, by omega, by decide, fun above => absurd above (by decide)⟩, by decide⟩
    · cases h.symm.trans ((if_neg ones).trans (if_neg small))
      have notZero : (unpackExponent b).toNat ≠ 0 := fun zero => small (BitVec.eq_of_toNat_eq zero)
      have notOnes : (unpackExponent b).toNat ≠ 2047 := fun all => ones (BitVec.eq_of_toNat_eq all)
      have mantissa : (1#1 ++ unpackMantissa b).toNat = 2 ^ 52 + (unpackMantissa b).toNat :=
        toNat_one_append (unpackMantissa b)
      have exponent : ((unpackExponent b).toNat : ℤ) -
          (Format.binary64.exponentBias + (52 : ℕ)) = (unpackExponent b).toNat - 1075 := by
        rw [show Format.binary64.exponentBias = 1023 from rfl]
        norm_num
      rw [exponent]
      exact ⟨⟨pos, by omega, by omega, fun _ => by omega⟩, by omega⟩

/-- The numbers that are doubles: they are canonical, and their exponents are not too large. -/
def Fits : UnpackedFloat → Prop
  | .finite _ m e _ => Canonical m e ∧ e ≤ 971
  | _ => True

theorem fits_unpack (b : BitVec Format.binary64.numBits) :
    Fits (UnpackedFloat.unpack Format.binary64 b) := by
  cases unpacked : UnpackedFloat.unpack Format.binary64 b with
  | finite => exact canonical_of_unpack unpacked
  | _ => trivial

theorem fits_parts (x : Float) : Fits (parts x) := fits_unpack x.toBits.toBitVec

/-! ## Packing canonical numbers -/

theorem unpack_infinity (s : Sign) :
    UnpackedFloat.unpack Format.binary64 (packComponents Format.binary64 s (-1) 0) =
      .infinity s := by
  simp [UnpackedFloat.unpack]

theorem Canonical.repacked_of_large (h : Canonical m e) (large : 971 < e) :
    repacked (.finite s m e h.positive) = .infinity s := by
  refine Eq.trans (congrArg (UnpackedFloat.unpack Format.binary64) ?_) (unpack_infinity s)
  refine if_pos ?_
  change 2048 ≤ (e + (1023 : ℕ) + (52 : ℕ)).toNat + 1
  omega

theorem finite_congr {pos : 0 < m} {pos' : 0 < m'} (mantissas : m = m') (exponents : e = e') :
    UnpackedFloat.finite s m e pos = .finite s m' e' pos' := by
  subst mantissas exponents
  rfl

theorem unpack_normal {f : BitVec 11} {b : BitVec 52} {pos : 0 < m} (ones : f ≠ -1#11)
    (zero : f ≠ 0#11) (mantissa : m = 2 ^ 52 + b.toNat) (exponent : e = f.toNat - 1075) :
    UnpackedFloat.unpack Format.binary64 (packComponents Format.binary64 s f b) =
      .finite s m e pos := by
  simp only [UnpackedFloat.unpack, unpackExponent_packComponents, unpackMantissa_packComponents,
    unpackSign_packComponents, Sign.ofBitVec_toBitVec]
  rw [if_neg ones, if_neg zero]
  refine finite_congr ?_ ?_
  · rw [mantissa]
    exact toNat_one_append b
  · rw [exponent, show Format.binary64.exponentBias = 1023 from rfl]
    norm_num

theorem unpack_subnormal {b : BitVec 52} {pos : 0 < m} (mantissa : m = b.toNat) :
    UnpackedFloat.unpack Format.binary64 (packComponents Format.binary64 s 0#11 b) =
      .finite s m (-1074) pos := by
  have zero : b ≠ 0#52 := by
    rintro rfl
    exact absurd mantissa pos.ne'
  simp only [UnpackedFloat.unpack, unpackExponent_packComponents, unpackMantissa_packComponents,
    unpackSign_packComponents, Sign.ofBitVec_toBitVec]
  rw [if_neg (by decide), if_pos trivial, dif_neg zero]
  exact finite_congr mantissa.symm rfl

/-- A canonical number whose exponent is not too large is its own double. -/
theorem Canonical.repacked (h : Canonical m e) (small : e ≤ 971) :
    repacked (.finite s m e h.positive) = .finite s m e h.positive := by
  obtain ⟨positive, digits, least, normal⟩ := h
  have biased : (e + Format.binary64.exponentBias + Format.binary64.mantissaBitsWithoutImplicit).toNat =
      (e + 1075).toNat := by
    change (e + (1023 : ℕ) + (52 : ℕ)).toNat = _
    omega
  change UnpackedFloat.unpack Format.binary64
    (UnpackedFloat.pack Format.binary64 (.finite s m e positive)) = _
  unfold UnpackedFloat.pack
  simp only [biased]
  rw [if_neg (by change ¬2048 ≤ _; omega)]
  split
  · next full =>
      have large : 2 ^ 52 ≤ m := by
        rw [← Nat.le_log2 positive.ne']
        exact (Nat.succ.inj (full.trans (Nat.add_comm 1 52))).ge
      have field : (BitVec.ofNat 11 (e + 1075).toNat).toNat = (e + 1075).toNat := by
        rw [BitVec.toNat_ofNat]
        omega
      refine unpack_normal ?_ ?_ ?_ ?_
      · intro ones
        have all : (e + 1075).toNat = 2047 := field.symm.trans (congrArg BitVec.toNat ones)
        omega
      · intro zero
        have none : (e + 1075).toNat = 0 := field.symm.trans (congrArg BitVec.toNat zero)
        omega
      · rw [BitVec.toNat_ofNat]
        omega
      · rw [field]
        omega
  · next short =>
      have below : m < 2 ^ 52 := by
        rw [← Nat.log2_lt positive.ne']
        have bits : m.log2 < 53 := (Nat.log2_lt positive.ne').mpr digits
        have : m.log2 ≠ 52 := fun same => short (congrArg (· + 1) same)
        omega
      obtain rfl : e = -1074 := by
        by_contra above
        exact absurd (normal (by omega)) below.not_ge
      refine unpack_subnormal ?_
      rw [BitVec.toNat_ofNat]
      exact (Nat.mod_eq_of_lt below).symm

/-! ## Values -/

/-- The exact number that a sign, mantissa and exponent stand for. -/
def valueOf : UnpackedFloat → Extended ℚ
  | .notANumber => undefined
  | .infinity .positive => posInf
  | .infinity .negative => negInf
  | .zero _ => finite 0
  | .finite s m e _ => finite (s.apply m * 2 ^ e)

/-- The exact number that a double stands for. -/
def value (x : Float) : Extended ℚ := valueOf (parts x)

theorem Canonical.lt_two_zpow (h : Canonical m e) : (m : ℚ) * 2 ^ e < 2 ^ (e + 53) := by
  rw [add_comm, zpow_add₀ two_ne_zero]
  exact mul_lt_mul_of_pos_right (by exact_mod_cast h.digits) (two_zpow_pos e)

theorem Canonical.two_zpow_le (h : Canonical m e) (above : -1074 < e) :
    (2 : ℚ) ^ (e + 52) ≤ m * 2 ^ e := by
  rw [add_comm, zpow_add₀ two_ne_zero]
  exact mul_le_mul_of_nonneg_right (by exact_mod_cast h.normal above) (two_zpow_pos e).le

/-- Canonical numbers are ordered by their exponents, and those with the same by their mantissas. -/
theorem Canonical.lt (h : Canonical m e) (h' : Canonical m' e')
    (less : e < e' ∨ e = e' ∧ m < m') : (m : ℚ) * 2 ^ e < m' * 2 ^ e' := by
  obtain exponents | ⟨rfl, mantissas⟩ := less
  · have least := h.least
    calc (m : ℚ) * 2 ^ e < 2 ^ (e + 53) := h.lt_two_zpow
      _ ≤ 2 ^ (e' + 52) := zpow_le_zpow_right₀ one_le_two (by omega)
      _ ≤ m' * 2 ^ e' := h'.two_zpow_le (by omega)
  · exact mul_lt_mul_of_pos_right (by exact_mod_cast mantissas) (two_zpow_pos e)

/-! ## The order of values -/

@[simp] theorem valueOf_positive {pos : 0 < m} :
    valueOf (.finite .positive m e pos) = finite ((m : ℚ) * 2 ^ e) := by
  rw [valueOf, Sign.apply, Int.cast_natCast]

@[simp] theorem valueOf_negative {pos : 0 < m} :
    valueOf (.finite .negative m e pos) = finite (-((m : ℚ) * 2 ^ e)) := by
  rw [valueOf, Sign.apply, Int.cast_neg, Int.cast_natCast, neg_mul]

theorem mul_two_zpow_pos (pos : 0 < m) (e : ℤ) : (0 : ℚ) < m * 2 ^ e :=
  mul_pos (Nat.cast_pos.mpr pos) (two_zpow_pos e)

theorem valueOf_lt_of_compare {u v : UnpackedFloat} (hu : Fits u) (hv : Fits v)
    (h : u.compare v = some .lt) : valueOf u < valueOf v := by
  rcases u with (_ | _) | _ | s | ⟨_ | _, m, e, pos⟩ <;>
    rcases v with (_ | _) | _ | t | ⟨_ | _, m', e', pos'⟩
  case finite.positive.finite.positive =>
    rw [valueOf_positive, valueOf_positive, finite_lt_finite]
    have less : (compare e e').then (compare m m') = .lt := Option.some.inj h
    rw [Ordering.then_eq_lt, compare_lt_iff_lt, compare_eq_iff_eq, compare_lt_iff_lt] at less
    exact hu.1.lt hv.1 less
  case finite.negative.finite.negative =>
    rw [valueOf_negative, valueOf_negative, finite_lt_finite, neg_lt_neg_iff]
    have greater : (compare e e').then (compare m m') = .gt :=
      Ordering.swap_eq_lt.mp (Option.some.inj h)
    rw [Ordering.then_eq_gt, compare_gt_iff_gt, compare_eq_iff_eq, compare_gt_iff_gt,
      eq_comm] at greater
    exact hv.1.lt hu.1 greater
  case finite.negative.finite.positive =>
    rw [valueOf_negative, valueOf_positive, finite_lt_finite]
    exact (neg_neg_of_pos (mul_two_zpow_pos pos e)).trans (mul_two_zpow_pos pos' e')
  case finite.negative.zero =>
    rw [valueOf_negative, valueOf, finite_lt_finite]
    exact neg_neg_of_pos (mul_two_zpow_pos pos e)
  case zero.finite.positive =>
    rw [valueOf_positive, valueOf, finite_lt_finite]
    exact mul_two_zpow_pos pos' e'
  all_goals first | (cases h; done) | simp [valueOf, Extended.lt_iff]

theorem valueOf_eq_of_compare {u v : UnpackedFloat} (h : u.compare v = some .eq) :
    valueOf u = valueOf v := by
  obtain rfl | ⟨⟨s, rfl⟩, t, rfl⟩ := eq_or_zero_of_compare h
  · rfl
  · rfl

@[simp] theorem value_eq_undefined_iff : value x = undefined ↔ parts x = .notANumber := by
  rw [value]
  rcases parts x with (_ | _) | _ | s | ⟨s, m, e, pos⟩ <;> simp [valueOf]

theorem defined_iff : x ≤ x ↔ value x ≠ undefined := by
  rw [← Scalar.isDefined_iff, Ne, value_eq_undefined_iff]
  exact isDefined_iff

/-- Doubles are ordered as their values are. -/
theorem le_iff : x ≤ y ↔ value x ≤ value y := by
  constructor
  · intro h
    by_cases above : y ≤ x
    · have same := valueOf_eq_of_compare (beq_iff.mp (LawfulComparisons.beq_iff.mpr ⟨h, above⟩))
      have defined := defined_iff.mp (LawfulComparisons.defined_of_le h).1
      rw [← value, ← value] at same
      rw [← same]
      exact Extended.le_refl defined
    · have less : x < y := LawfulComparisons.lt_iff.mpr ⟨h, above⟩
      exact (valueOf_lt_of_compare (fits_parts x) (fits_parts y) (lt_iff.mp less)).1
  · intro h
    obtain ⟨hx, hy⟩ := defined_of_le h
    by_contra above
    obtain le | le := LawfulComparisons.le_total (defined_iff.mpr hx) (defined_iff.mpr hy)
    · exact above le
    · have less : y < x := LawfulComparisons.lt_iff.mpr ⟨le, above⟩
      exact (valueOf_lt_of_compare (fits_parts y) (fits_parts x) (lt_iff.mp less)).2 h

end Double

end HybridAutomata
