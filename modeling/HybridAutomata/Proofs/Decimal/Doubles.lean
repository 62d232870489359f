import Mathlib.Logic.Basic
import HybridAutomata.Decimal.Double

/-!
# Comparing doubles

Doubles are compared by sign, exponent and mantissa. Equal ones agree in all three, except for the
two zeros; this makes the opposites of equal doubles equal. A finite double is defined, equals
itself, and is below zero if its sign bit is set and it is no zero. Its opposite is finite. Its
products may be infinite, but if it is no zero, none of them is undefined, unless the other factor
is.
-/

namespace HybridAutomata

namespace Double

open Float.Model (UnpackedFloat Format)
open Float.Model.UnpackedFloat (Sign packComponents unpackSign unpackExponent unpackMantissa
  unpackExponent_packComponents unpackMantissa_packComponents)

variable {x y : Float} {u v : UnpackedFloat} {s : Sign}

/-- The sign, mantissa and exponent of a double. -/
def parts (x : Float) : UnpackedFloat := x.toModel.unpack

theorem parts_eq (x : Float) :
    parts x = UnpackedFloat.unpack Format.binary64 x.toBits.toBitVec := rfl

/-! ## Comparisons of parts -/

theorem beq_iff : (x == y) = true ↔ (parts x).compare (parts y) = some .eq := by
  change ((parts x).compare (parts y) == some .eq) = true ↔ _
  exact beq_iff_eq

theorem lt_iff : x < y ↔ (parts x).compare (parts y) = some .lt :=
  decide_eq_true_iff.trans beq_iff_eq

theorem compare_self (h : u ≠ .notANumber) : u.compare u = some .eq := by
  cases u with
  | notANumber => exact absurd rfl h
  | infinity s => cases s <;> rfl
  | zero s => rfl
  | finite s m e pos =>
      have same : (compare e e).then (compare m m) = .eq := by simp
      cases s with
      | positive => exact congrArg some same
      | negative => exact congrArg (some ·.swap) same

/-- Exponents and mantissas that compare as equal are equal. -/
theorem eq_of_compare {e e' : Int} {m m' : Nat}
    (h : (compare e e').then (compare m m') = .eq) : e = e' ∧ m = m' := by
  obtain ⟨exponents, mantissas⟩ := Ordering.then_eq_eq.mp h
  exact ⟨Std.LawfulEqOrd.eq_of_compare exponents, Std.LawfulEqOrd.eq_of_compare mantissas⟩

/-- Equal numbers have the same parts, unless they are zeros. -/
theorem eq_or_zero_of_compare (h : u.compare v = some .eq) :
    u = v ∨ (∃ s, u = .zero s) ∧ ∃ s, v = .zero s := by
  rcases u with (_ | _) | _ | s | ⟨_ | _, m, e, pos⟩ <;>
    rcases v with (_ | _) | _ | t | ⟨_ | _, m', e', pos'⟩
  case zero.zero => exact .inr ⟨⟨_, rfl⟩, _, rfl⟩
  case finite.positive.finite.positive =>
    obtain ⟨rfl, rfl⟩ := eq_of_compare (Option.some.inj h)
    exact .inl rfl
  case finite.negative.finite.negative =>
    obtain ⟨rfl, rfl⟩ := eq_of_compare (Ordering.swap_eq_eq.mp (Option.some.inj h))
    exact .inl rfl
  all_goals first | exact .inl rfl | cases h

/-! ## Packing -/

/-- The parts of the double that parts are packed into. -/
def repacked (u : UnpackedFloat) : UnpackedFloat := (Float.Model.pack u).unpack

theorem parts_neg (x : Float) : parts (-x) = repacked (parts x).neg := rfl

theorem repacked_zero (s : Sign) : repacked (.zero s) = .zero s := by
  cases s <;> rfl

/-- What a pattern stands for: the exponent of ones is kept for infinities and the undefined number,
and the sign is that of the sign bit. -/
theorem unpack_cases (b : BitVec Format.binary64.numBits) :
    (unpackExponent b = -1 ∧ unpackMantissa b ≠ 0 ∧
        UnpackedFloat.unpack Format.binary64 b = .notANumber) ∨
      UnpackedFloat.unpack Format.binary64 b = .infinity (.ofBitVec (unpackSign b)) ∨
      UnpackedFloat.unpack Format.binary64 b = .zero (.ofBitVec (unpackSign b)) ∨
      ∃ m e pos, UnpackedFloat.unpack Format.binary64 b =
        .finite (.ofBitVec (unpackSign b)) m e pos := by
  by_cases ones : unpackExponent b = -1
  · by_cases zero : unpackMantissa b = 0
    · exact .inr (.inl ((if_pos ones).trans (if_pos zero)))
    · exact .inl ⟨ones, zero, (if_pos ones).trans (if_neg zero)⟩
  · by_cases small : unpackExponent b = 0
    · by_cases zero : unpackMantissa b = 0
      · exact .inr (.inr (.inl ((if_neg ones).trans ((if_pos small).trans (dif_pos zero)))))
      · exact .inr (.inr (.inr
          ⟨_, _, _, (if_neg ones).trans ((if_pos small).trans (dif_neg zero))⟩))
    · exact .inr (.inr (.inr ⟨_, _, _, (if_neg ones).trans (if_neg small)⟩))

theorem unpack_packComponents_ne {e : BitVec 11} {m : BitVec 52} (h : e ≠ -1 ∨ m = 0) :
    UnpackedFloat.unpack Format.binary64 (packComponents Format.binary64 s e m) ≠
      .notANumber := by
  obtain ⟨ones, nonzero, _⟩ | unpacked | unpacked | ⟨_, _, _, unpacked⟩ :=
    unpack_cases (packComponents Format.binary64 s e m)
  · rw [unpackExponent_packComponents] at ones
    rw [unpackMantissa_packComponents] at nonzero
    obtain notOnes | zero := h
    · exact absurd ones notOnes
    · exact absurd zero nonzero
  all_goals
    rw [unpacked]
    exact UnpackedFloat.noConfusion

/-- Packing a number gives a number, or an infinity if its exponent is too large. -/
theorem repacked_ne (h : u ≠ .notANumber) : repacked u ≠ .notANumber := by
  change UnpackedFloat.unpack Format.binary64 (UnpackedFloat.pack Format.binary64 u) ≠ _
  cases u with
  | notANumber => exact absurd rfl h
  | infinity s => exact unpack_packComponents_ne (.inr rfl)
  | zero s => exact unpack_packComponents_ne (.inr rfl)
  | finite s m e pos =>
    unfold UnpackedFloat.pack
    dsimp only
    split
    · exact unpack_packComponents_ne (.inr rfl)
    · next small =>
      split
      · refine unpack_packComponents_ne (.inl fun ones => ?_)
        have all := congrArg BitVec.toNat ones
        simp only [BitVec.toNat_ofNat] at all
        change _ % 2 ^ 11 = 2 ^ 11 - 1 at all
        omega
      · exact unpack_packComponents_ne (.inl (by decide))

theorem neg_ne (h : u ≠ .notANumber) : u.neg ≠ .notANumber := by
  cases u with
  | notANumber => exact absurd rfl h
  | _ => exact UnpackedFloat.noConfusion

/-! ## Opposites -/

/-- The opposites of equal doubles are equal. -/
theorem neg_beq_neg (h : (x == y) = true) : (-x == -y) = true := by
  rw [beq_iff] at h ⊢
  obtain same | ⟨⟨s, hx⟩, t, hy⟩ := eq_or_zero_of_compare h
  · have number : parts x ≠ .notANumber := by
      intro undefined
      rw [undefined] at h
      cases h
    rw [parts_neg, parts_neg, ← same]
    exact compare_self (repacked_ne (neg_ne number))
  · rw [parts_neg, parts_neg, hx, hy]
    change (repacked (.zero (-s))).compare (repacked (.zero (-t))) = _
    rw [repacked_zero, repacked_zero]
    rfl

/-! ## Zero and the infinities -/

theorem parts_zero : parts (Float.ofBits 0) = .zero .positive := rfl

theorem parts_infinity : parts Scalar.infinity = .infinity .positive := rfl

theorem parts_neg_infinity : parts (-Scalar.infinity) = .infinity .negative := rfl

theorem zero_beq (h : (x == Float.ofBits 0) = true) : (Float.ofBits 0 == x) = true := by
  rw [beq_iff, parts_zero] at h ⊢
  obtain same | ⟨⟨s, hx⟩, _⟩ := eq_or_zero_of_compare h
  · rw [same]
    rfl
  · rw [hx]
    rfl

/-! ## Finite doubles -/

theorem isFinite_iff : Scalar.isFinite x = true ↔ (parts x).isFinite = true := by
  unfold Scalar.isFinite
  rw [Bool.and_eq_true, decide_eq_true_iff, decide_eq_true_iff, lt_iff, lt_iff,
    parts_neg_infinity, parts_infinity]
  cases parts x with
  | infinity s => cases s <;> decide
  | notANumber => decide
  | zero s => exact ⟨fun _ => rfl, fun _ => ⟨rfl, rfl⟩⟩
  | finite s => cases s <;> exact ⟨fun _ => rfl, fun _ => ⟨rfl, rfl⟩⟩

/-- A finite double is defined and not infinite. -/
theorem ne_of_isFinite (h : Scalar.isFinite x = true) :
    parts x ≠ .notANumber ∧ x.isNaN = false ∧ x.isInf = false := by
  have finite := isFinite_iff.mp h
  change _ ∧ (parts x).isNaN = false ∧ (parts x).isInf = false
  generalize parts x = u at finite
  cases u with
  | infinity | notANumber => cases finite
  | zero | finite => exact ⟨UnpackedFloat.noConfusion, rfl, rfl⟩

theorem beq_self_of_isFinite (h : Scalar.isFinite x = true) : (x == x) = true :=
  beq_iff.mpr (compare_self (ne_of_isFinite h).1)

/-! ## Opposites of finite doubles -/

/-- Whether the exponent of a number has a pattern below that of the infinities. -/
def InRange (e : Int) : Prop := (e + Format.binary64.exponentBias + (52 : Nat)).toNat < 2047

/-- A pattern whose exponent is not that of the infinities stands for a finite number, and then the
exponent of that number is in range. -/
theorem finite_of_unpackExponent {b : BitVec Format.binary64.numBits}
    (other : unpackExponent b ≠ -1) :
    (∃ s, UnpackedFloat.unpack Format.binary64 b = .zero s) ∨
      ∃ s m e pos, UnpackedFloat.unpack Format.binary64 b = .finite s m e pos ∧ InRange e := by
  have below : (unpackExponent b).toNat < 2047 := by
    have bound : (unpackExponent b).toNat < 2 ^ 11 := (unpackExponent b).isLt
    have ne : (unpackExponent b).toNat ≠ 2047 := fun ones => other (BitVec.eq_of_toNat_eq ones)
    omega
  by_cases small : unpackExponent b = 0
  · by_cases zero : unpackMantissa b = 0
    · exact .inl ⟨_, (if_neg other).trans ((if_pos small).trans (dif_pos zero))⟩
    · refine .inr ⟨_, _, _, _, (if_neg other).trans ((if_pos small).trans (dif_neg zero)), ?_⟩
      rw [small, InRange]
      decide
  · refine .inr ⟨_, _, _, _, (if_neg other).trans (if_neg small), ?_⟩
    change ((unpackExponent b).toNat - (1023 + 52 : Int) + 1023 + 52).toNat < 2047
    omega

theorem isFinite_unpack {b : BitVec Format.binary64.numBits} (other : unpackExponent b ≠ -1) :
    (UnpackedFloat.unpack Format.binary64 b).isFinite = true := by
  obtain ⟨s, unpacked⟩ | ⟨s, m, e, pos, unpacked, _⟩ := finite_of_unpackExponent other <;>
    rw [unpacked] <;> rfl

theorem inRange_of_unpack {b : BitVec Format.binary64.numBits} {m : Nat} {e : Int} {pos : 0 < m}
    (h : UnpackedFloat.unpack Format.binary64 b = .finite s m e pos) : InRange e := by
  by_cases ones : unpackExponent b = -1
  · have special : (UnpackedFloat.unpack Format.binary64 b).isFinite = false := by
      have unpacked : UnpackedFloat.unpack Format.binary64 b = _ := if_pos ones
      rw [unpacked]
      split <;> rfl
    rw [h] at special
    cases special
  · obtain ⟨_, unpacked⟩ | ⟨_, _, _, _, unpacked, range⟩ := finite_of_unpackExponent ones
    · rw [h] at unpacked
      cases unpacked
    · rw [h] at unpacked
      cases unpacked
      exact range

theorem isFinite_repacked {m : Nat} {e : Int} {pos : 0 < m} (range : InRange e) :
    (repacked (.finite s m e pos)).isFinite = true := by
  refine isFinite_unpack ?_
  change unpackExponent (UnpackedFloat.pack Format.binary64 (.finite s m e pos)) ≠ -1
  unfold UnpackedFloat.pack
  dsimp only
  rw [if_neg (Nat.not_le.mpr (Nat.succ_lt_succ range))]
  split <;> rw [unpackExponent_packComponents]
  · intro ones
    have all := congrArg BitVec.toNat ones
    simp only [BitVec.toNat_ofNat] at all
    change _ % 2 ^ 11 = 2 ^ 11 - 1 at all
    unfold InRange at range
    omega
  · decide

/-- The opposite of a finite double is finite. -/
theorem isFinite_neg (h : Scalar.isFinite x = true) : Scalar.isFinite (-x) = true := by
  have finite := isFinite_iff.mp h
  rw [isFinite_iff, parts_neg]
  cases unpacked : parts x with
  | infinity | notANumber =>
      rw [unpacked] at finite
      cases finite
  | zero s =>
      change (repacked (.zero (-s))).isFinite = true
      rw [repacked_zero]
      rfl
  | finite s m e pos => exact isFinite_repacked (inRange_of_unpack (parts_eq x ▸ unpacked))

/-! ## Undefined numbers -/

theorem isDefined_iff : Scalar.isDefined x = true ↔ parts x ≠ .notANumber := by
  constructor
  · intro same undefined
    rw [Scalar.isDefined, beq_iff, undefined] at same
    cases same
  · exact fun number => beq_iff.mpr (compare_self number)

/-- The opposite of a defined double is defined. -/
theorem isDefined_neg (h : Scalar.isDefined x = true) : Scalar.isDefined (-x) = true := by
  rw [isDefined_iff] at h ⊢
  rw [parts_neg]
  exact repacked_ne (neg_ne h)

theorem parts_mul (x y : Float) :
    parts (x * y) = repacked (UnpackedFloat.mul Format.binary64 (parts x) (parts y)) := rfl

/-- A number is rounded to a number. -/
theorem roundWithAccuracy_ne (s : Sign) (m : Nat) (e : Int) (a : UnpackedFloat.Accuracy) :
    UnpackedFloat.roundWithAccuracy Format.binary64 s m e a ≠ .notANumber := by
  -- What is left after rounding is a mantissa, and it decides between zero and another number.
  intro undefined
  unfold UnpackedFloat.roundWithAccuracy at undefined
  obtain ⟨_, zero⟩ | ⟨_, number⟩ := dite_eq_iff.mp undefined
  · cases zero
  · cases number

/-- A finite number other than zero has no undefined products with numbers. -/
theorem mul_ne {m : Nat} {e : Int} {pos : 0 < m} (h : v ≠ .notANumber) :
    UnpackedFloat.mul Format.binary64 (.finite s m e pos) v ≠ .notANumber := by
  cases v with
  | notANumber => exact absurd rfl h
  | infinity | zero => exact UnpackedFloat.noConfusion
  | finite => exact roundWithAccuracy_ne _ _ _ _

theorem isDefined_mul (finite : Scalar.isFinite x = true)
    (nonzero : (x == Float.ofBits 0) = false) (h : Scalar.isDefined y = true) :
    Scalar.isDefined (x * y) = true := by
  rw [isDefined_iff] at h ⊢
  rw [parts_mul]
  refine repacked_ne ?_
  rw [isFinite_iff] at finite
  rw [← Bool.not_eq_true, beq_iff, parts_zero] at nonzero
  cases unpacked : parts x with
  | infinity | notANumber =>
      rw [unpacked] at finite
      cases finite
  | zero s =>
      rw [unpacked] at nonzero
      exact absurd rfl nonzero
  | finite s m e pos => exact mul_ne h

/-! ## The sign bit -/

theorem unpackSign_of_isNegative (h : isNegative x = true) :
    @unpackSign Format.binary64 x.toBits.toBitVec = 1#1 := by
  have large : 2 ^ 63 ≤ x.toBits.toNat := of_decide_eq_true h
  have bound : x.toBits.toNat < 2 ^ 64 := x.toBits.toNat_lt
  apply BitVec.eq_of_toNat_eq
  change x.toBits.toNat >>> 63 % 2 = 1
  rw [Nat.shiftRight_eq_div_pow]
  omega

/-- A number with the sign bit set is below zero, unless it is zero itself. -/
theorem compare_zero_of_isNegative (h : isNegative x = true) : parts x = .notANumber ∨
    parts x = .zero .negative ∨ (parts x).compare (.zero .positive) = some .lt := by
  have sign : Sign.ofBitVec (@unpackSign Format.binary64 x.toBits.toBitVec) = .negative := by
    rw [unpackSign_of_isNegative h]
    rfl
  obtain ⟨_, _, unpacked⟩ | unpacked | unpacked | ⟨_, _, _, unpacked⟩ :=
    unpack_cases x.toBits.toBitVec
  · exact .inl unpacked
  · exact .inr (.inr (by rw [parts_eq, unpacked, sign]; rfl))
  · exact .inr (.inl (by rw [parts_eq, unpacked, sign]))
  · exact .inr (.inr (by rw [parts_eq, unpacked, sign]; rfl))

theorem lt_zero_of_isNegative (h : isNegative x = true) (finite : Scalar.isFinite x = true)
    (nonzero : ¬(x == Float.ofBits 0) = true) : x < Float.ofBits 0 := by
  rw [beq_iff, parts_zero] at nonzero
  rw [lt_iff, parts_zero]
  obtain undefined | zero | below := compare_zero_of_isNegative h
  · exact absurd undefined (ne_of_isFinite finite).1
  · rw [zero] at nonzero
    exact absurd rfl nonzero
  · exact below

end Double

end HybridAutomata
