import Mathlib.Algebra.Order.Floor.Ring
import Mathlib.Algebra.Order.Field.Basic
import Mathlib.Data.Rat.Floor
import Mathlib.Data.Sign.Basic
import HybridAutomata.Proofs.Comparisons

/-!
# Exact numbers

Statements about values are made for exact arithmetic: the numbers are those of an ordered field,
beside them an infinity on either side, and an undefined number for what has no value. The rules for
infinities are those of the floating-point standard, with one zero. Nothing is ever rounded.

The functions that a field does not have by itself are a parameter. Over the rationals they are
undefined except for powers with whole exponents; over the reals they are the real functions.
-/

namespace HybridAutomata

/-- The functions of a field of numbers; `none` where a function has no value. -/
class Functions (K : Type) where
  pi : Option K
  sin : K → Option K
  cos : K → Option K
  tan : K → Option K
  exp : K → Option K
  ln : K → Option K
  sqrt : K → Option K
  pow : K → K → Option K

/-- A number, or one of the values that exact arithmetic adds. -/
inductive Extended (K : Type) where
  | finite (value : K)
  | undefined
  | posInf
  | negInf

namespace Extended

variable {K : Type}

/-! ## Operations -/

/-- A function value; undefined where there is none. -/
def ofOption : Option K → Extended K
  | some value => finite value
  | none => undefined

/-- The infinity in the direction of a sign; undefined without a direction. -/
def towards : SignType → Extended K
  | .pos => posInf
  | .neg => negInf
  | .zero => undefined

/-- The values of a function on numbers, with its limits at the infinities. -/
def extend (f : K → Option K) (atNegInf atPosInf : Extended K) : Extended K → Extended K
  | finite x => ofOption (f x)
  | undefined => undefined
  | posInf => atPosInf
  | negInf => atNegInf

variable [Field K] [LinearOrder K]

/-- The sign; zero for an undefined number. -/
def sign : Extended K → SignType
  | finite x => SignType.sign x
  | undefined => 0
  | posInf => 1
  | negInf => -1

@[simp] theorem sign_towards (s : SignType) : (towards s : Extended K).sign = s := by
  cases s <;> rfl

protected def neg : Extended K → Extended K
  | finite x => finite (-x)
  | undefined => undefined
  | posInf => negInf
  | negInf => posInf

protected def add : Extended K → Extended K → Extended K
  | finite x, finite y => finite (x + y)
  | finite _, b => b
  | a, finite _ => a
  | posInf, posInf => posInf
  | negInf, negInf => negInf
  | _, _ => undefined

/-- An infinite factor leaves only the signs, so that zero times infinity is undefined. -/
protected def mul : Extended K → Extended K → Extended K
  | finite x, finite y => finite (x * y)
  | a, b => towards (a.sign * b.sign)

protected def div : Extended K → Extended K → Extended K
  | finite x, finite y => if y = 0 then towards (SignType.sign x) else finite (x / y)
  | finite _, posInf | finite _, negInf => finite 0
  | a, finite y => towards (a.sign * if y = 0 then 1 else SignType.sign y)
  | _, _ => undefined

protected def le : Extended K → Extended K → Prop
  | undefined, _ | _, undefined => False
  | negInf, _ | _, posInf => True
  | finite x, finite y => x ≤ y
  | _, _ => False

instance decidableLe : DecidableRel (Extended.le (K := K))
  | undefined, _ => .isFalse (by simp [Extended.le])
  | finite _, undefined | posInf, undefined | negInf, undefined =>
      .isFalse (by simp [Extended.le])
  | negInf, finite _ | negInf, posInf | negInf, negInf | finite _, posInf | posInf, posInf =>
      .isTrue (by simp [Extended.le])
  | finite x, finite y => inferInstanceAs (Decidable (x ≤ y))
  | finite _, negInf | posInf, finite _ | posInf, negInf => .isFalse (by simp [Extended.le])

/-- Ordered in this way and not in the other one. -/
protected def lt (a b : Extended K) : Prop := a.le b ∧ ¬b.le a

instance decidableLt : DecidableRel (Extended.lt (K := K)) := fun a b =>
  inferInstanceAs (Decidable (a.le b ∧ ¬b.le a))

/-- Ordered both ways, which an undefined number is not even with itself. -/
protected def same (a b : Extended K) : Bool := decide (a.le b ∧ b.le a)

protected def abs : Extended K → Extended K
  | finite x => finite |x|
  | undefined => undefined
  | posInf | negInf => posInf

/-- Powers of infinities and with infinite exponents are limits as well. A zeroth power and a power
of one are one also where the other number is infinite or undefined. -/
protected def pow [FloorRing K] [Functions K] : Extended K → Extended K → Extended K
  | finite x, finite y => ofOption (Functions.pow x y)
  | posInf, finite y => if y = 0 then finite 1 else if 0 < y then posInf else finite 0
  | negInf, finite y =>
      if y = 0 then finite 1
      else if y < 0 then finite 0
      else if y = ⌊y⌋ ∧ ⌊y⌋ % 2 = 1 then negInf
      else posInf
  | finite x, posInf => if |x| = 1 then finite 1 else if |x| < 1 then finite 0 else posInf
  | finite x, negInf => if |x| = 1 then finite 1 else if |x| < 1 then posInf else finite 0
  | posInf, posInf | negInf, posInf => posInf
  | posInf, negInf | negInf, negInf => finite 0
  | undefined, finite y => if y = 0 then finite 1 else undefined
  | finite x, undefined => if x = 1 then finite 1 else undefined
  | undefined, _ | _, undefined => undefined

/-- The whole part, moved into a range. -/
protected def wholePart [FloorRing K] (lo hi : ℤ) : Extended K → ℤ
  | finite x => max lo (min hi (if 0 ≤ x then ⌊x⌋ else ⌈x⌉))
  | undefined => 0
  | posInf => hi
  | negInf => lo

instance [FloorRing K] [Functions K] : Scalar (Extended K) where
  add := Extended.add
  sub a b := a.add b.neg
  mul := Extended.mul
  div := Extended.div
  neg := Extended.neg
  le := Extended.le
  lt := Extended.lt
  beq := Extended.same
  decLe := decidableLe
  decLt := decidableLt
  ofDecimal mantissa exponent := finite (mantissa * 10 ^ exponent)
  infinity := posInf
  abs := Extended.abs
  ceil := extend (fun x => some ⌈x⌉) negInf posInf
  round := extend (fun x => some (if 0 ≤ x then ⌊x + 1 / 2⌋ else ⌈x - 1 / 2⌉)) negInf posInf
  wholePart := Extended.wholePart
  pi := ofOption Functions.pi
  sin := extend Functions.sin undefined undefined
  cos := extend Functions.cos undefined undefined
  tan := extend Functions.tan undefined undefined
  exp := extend Functions.exp (finite 0) posInf
  ln a := if a.same (finite 0) then negInf else extend Functions.ln undefined posInf a
  sqrt := extend Functions.sqrt undefined posInf
  pow := Extended.pow

/-! ## Numbers among the extended ones -/

section

variable [FloorRing K] [Functions K]

@[simp] theorem ofNat_eq (n : ℕ) :
    @OfNat.ofNat (Extended K) n Scalar.instOfNat = finite (n : K) := by
  change finite ((n : K) * 10 ^ (0 : ℤ)) = _
  rw [zpow_zero, mul_one]

theorem zero_eq : (0 : Extended K) = finite 0 := by
  rw [ofNat_eq, Nat.cast_zero]

@[simp] theorem infinity_eq : (Scalar.infinity : Extended K) = posInf := rfl

@[simp] theorem finite_add (x y : K) : finite x + finite y = finite (x + y) := rfl

@[simp] theorem neg_finite (x : K) : -finite x = finite (-x) := rfl

@[simp] theorem neg_posInf : -(posInf : Extended K) = negInf := rfl

@[simp] theorem neg_negInf : -(negInf : Extended K) = posInf := rfl

@[simp] theorem finite_sub (x y : K) : finite x - finite y = finite (x - y) :=
  congrArg finite (sub_eq_add_neg x y).symm

@[simp] theorem finite_mul (x y : K) : finite x * finite y = finite (x * y) := rfl

theorem finite_div {x y : K} (h : y ≠ 0) : finite x / finite y = finite (x / y) := if_neg h

/-! ## Order -/

@[simp] theorem finite_le_finite {x y : K} : finite x ≤ finite y ↔ x ≤ y := Iff.rfl

@[simp] theorem le_posInf_iff {a : Extended K} : a ≤ posInf ↔ a ≠ undefined := by
  cases a <;> simp [LE.le, Extended.le]

@[simp] theorem negInf_le_iff {a : Extended K} : negInf ≤ a ↔ a ≠ undefined := by
  cases a <;> simp [LE.le, Extended.le]

@[simp] theorem not_undefined_le (a : Extended K) : ¬undefined ≤ a := by
  simp [LE.le, Extended.le]

@[simp] theorem not_le_undefined (a : Extended K) : ¬a ≤ undefined := by
  cases a <;> simp [LE.le, Extended.le]

@[simp] theorem not_posInf_le_finite (x : K) : ¬posInf ≤ finite x := by
  simp [LE.le, Extended.le]

@[simp] theorem not_finite_le_negInf (x : K) : ¬finite x ≤ negInf := by
  simp [LE.le, Extended.le]

@[simp] theorem not_posInf_le_negInf : ¬(posInf : Extended K) ≤ negInf := by
  simp [LE.le, Extended.le]

theorem lt_iff {a b : Extended K} : a < b ↔ a ≤ b ∧ ¬b ≤ a := Iff.rfl

theorem beq_iff {a b : Extended K} : (a == b) = true ↔ a ≤ b ∧ b ≤ a := decide_eq_true_iff

@[simp] theorem finite_lt_finite {x y : K} : finite x < finite y ↔ x < y := by
  rw [lt_iff, finite_le_finite, finite_le_finite, lt_iff_le_not_ge]

@[simp] theorem finite_beq_finite (x y : K) : (finite x == finite y) = decide (x = y) := by
  rw [Bool.eq_iff_iff, beq_iff, finite_le_finite, finite_le_finite, decide_eq_true_iff,
    le_antisymm_iff]

protected theorem le_trans {a b c : Extended K} (h : a ≤ b) (h' : b ≤ c) : a ≤ c := by
  cases a <;> cases b <;> cases c <;> simp_all
  exact le_trans h h'

/-- Defined numbers are ordered. -/
protected theorem le_total {a b : Extended K} (ha : a ≠ undefined) (hb : b ≠ undefined) :
    a ≤ b ∨ b ≤ a := by
  cases a <;> cases b <;> simp_all
  exact le_total _ _

protected theorem le_refl {a : Extended K} (h : a ≠ undefined) : a ≤ a := by
  cases a <;> simp_all

theorem eq_finite_of_le {a : Extended K} {x : K} (h : a ≤ finite x) (h' : finite x ≤ a) :
    a = finite x := by
  cases a <;> simp_all
  exact le_antisymm h h'

@[simp] theorem isFinite_iff {a : Extended K} :
    Scalar.isFinite a = true ↔ ∃ x, a = finite x := by
  cases a <;> simp [Scalar.isFinite, lt_iff]

@[simp] theorem isDefined_iff {a : Extended K} : (a == a) = true ↔ a ≠ undefined := by
  cases a <;> simp [beq_iff]

@[simp] theorem posInf_beq_finite (x : K) : (posInf == finite x) = false := by
  rw [Bool.eq_false_iff, Ne, beq_iff]
  simp

@[simp] theorem negInf_beq_finite (x : K) : (negInf == finite x) = false := by
  rw [Bool.eq_false_iff, Ne, beq_iff]
  simp

@[simp] theorem undefined_beq_finite (x : K) : (undefined == finite x) = false := by
  rw [Bool.eq_false_iff, Ne, beq_iff]
  simp

/-! ## The smaller and the larger of two -/

theorem defined_of_le {a b : Extended K} (h : a ≤ b) : a ≠ undefined ∧ b ≠ undefined := by
  cases a <;> cases b <;> simp_all

instance : LawfulComparisons (Extended K) where
  le_trans := Extended.le_trans
  le_total ha hb := Extended.le_total (defined_of_le ha).1 (defined_of_le hb).1
  defined_of_le h := ⟨Extended.le_refl (defined_of_le h).1, Extended.le_refl (defined_of_le h).2⟩
  lt_iff := lt_iff
  beq_iff := beq_iff

theorem lesser_le_left {a : Extended K} (b : Extended K) (ha : a ≠ undefined) :
    Scalar.lesser a b ≤ a :=
  Scalar.lesser_le_left b (Extended.le_refl ha)

theorem lesser_le_right (a : Extended K) {b : Extended K} (hb : b ≠ undefined) :
    Scalar.lesser a b ≤ b :=
  Scalar.lesser_le_right a (Extended.le_refl hb)

theorem le_greater_left {a : Extended K} (b : Extended K) (ha : a ≠ undefined) :
    a ≤ Scalar.greater a b :=
  Scalar.le_greater_left b (Extended.le_refl ha)

theorem le_greater_right (a : Extended K) {b : Extended K} (hb : b ≠ undefined) :
    b ≤ Scalar.greater a b :=
  Scalar.le_greater_right a (Extended.le_refl hb)

theorem le_lesser {a b c : Extended K} (ha : c ≤ a) (hb : c ≤ b) : c ≤ Scalar.lesser a b := by
  rw [Scalar.lesser]
  split
  · exact ha
  · split
    · exact hb
    · exact ha

theorem greater_le {a b c : Extended K} (ha : a ≤ c) (hb : b ≤ c) : Scalar.greater a b ≤ c := by
  rw [Scalar.greater]
  split
  · exact ha
  · split
    · exact hb
    · exact ha

@[simp] theorem lesser_finite (x y : K) :
    Scalar.lesser (finite x) (finite y) = finite (min x y) := by
  obtain lt | le := lt_or_ge x y
  · simp [Scalar.lesser, lt, min_eq_left lt.le]
  · simp [Scalar.lesser, not_lt.mpr le, min_eq_right le]

@[simp] theorem greater_finite (x y : K) :
    Scalar.greater (finite x) (finite y) = finite (max x y) := by
  obtain lt | le := lt_or_ge y x
  · simp [Scalar.greater, lt, max_eq_left lt.le]
  · simp [Scalar.greater, not_lt.mpr le, max_eq_right le]

/-- An undefined number is no bound. -/
@[simp] theorem lesser_undefined (a : Extended K) : Scalar.lesser a undefined = a := by
  simp [Scalar.lesser]

@[simp] theorem greater_undefined (a : Extended K) : Scalar.greater a undefined = a := by
  simp [Scalar.greater]

end

/-! ## Monotone operations -/

section

variable [FloorRing K] [Functions K]

protected theorem mul_comm (a b : Extended K) : a * b = b * a := by
  have signs : (towards (a.sign * b.sign) : Extended K) = towards (b.sign * a.sign) := by
    rw [mul_comm]
  cases a <;> cases b <;> first
    | exact congrArg finite (mul_comm _ _)
    | exact signs

/-- What is no number keeps nothing but its sign in a product. -/
theorem mul_finite_of_ne {a : Extended K} {y : K} (h : ∀ x, a ≠ finite x) :
    a * finite y = towards (a.sign * SignType.sign y) := by
  cases a with
  | finite x => exact absurd rfl (h x)
  | undefined => rfl
  | posInf => rfl
  | negInf => rfl

/-- Only a product of numbers is a number. -/
theorem mul_finite_eq_finite_iff {a : Extended K} {y z : K} :
    a * finite y = finite z ↔ ∃ x, a = finite x ∧ z = x * y := by
  by_cases number : ∃ x, a = finite x
  · obtain ⟨x, rfl⟩ := number
    simp [eq_comm]
  · rw [mul_finite_of_ne (not_exists.mp number)]
    refine iff_of_false (fun same => ?_) fun ⟨x, same, _⟩ => number ⟨x, same⟩
    cases sign : a.sign * SignType.sign y <;> rw [sign] at same <;> cases same

@[simp] theorem neg_undefined : -(undefined : Extended K) = undefined := rfl

@[simp] protected theorem neg_neg (a : Extended K) : - -a = a := by
  cases a <;> simp

protected theorem sign_neg [IsStrictOrderedRing K] (a : Extended K) : (-a).sign = -a.sign := by
  cases a with
  | finite x => exact Left.sign_neg x
  | undefined => rfl
  | posInf => rfl
  | negInf => rfl

theorem sign_mono {a b : Extended K} (h : a ≤ b) : a.sign ≤ b.sign := by
  cases a <;> cases b <;> simp_all [Extended.sign]
  exact SignType.sign.monotone h

variable [IsStrictOrderedRing K]

@[simp] protected theorem neg_le_neg_iff {a b : Extended K} : -a ≤ -b ↔ b ≤ a := by
  cases a <;> cases b <;> simp

theorem add_le_finite {a b : Extended K} {x y : K} (ha : a ≤ finite x) (hb : b ≤ finite y) :
    a + b ≤ finite (x + y) := by
  cases a <;> cases b <;> simp_all [HAdd.hAdd, Add.add, Extended.add]
  exact add_le_add ha hb

theorem finite_le_add {a b : Extended K} {x y : K} (ha : finite x ≤ a) (hb : finite y ≤ b) :
    finite (x + y) ≤ a + b := by
  cases a <;> cases b <;> simp_all [HAdd.hAdd, Add.add, Extended.add]
  exact add_le_add ha hb

end

end Extended

end HybridAutomata
