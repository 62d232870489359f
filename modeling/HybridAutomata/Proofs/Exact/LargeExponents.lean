import HybridAutomata.Proofs.Exact.Powers

/-!
# Exponents of any size

The interval power takes a whole exponent as a number of 32 bits. An exponent above the largest one
is taken to be the largest one, which is odd, and one at or below the least one has no answer,
because its opposite is not among the numbers of 32 bits. Here it is said for every whole exponent
and every bounded base whether there is an answer and whether it encloses the powers: it does for
all exponents of less than 32 bits, and beyond them for few bases only, those with powers that do
not leave the powers of the bounds.
-/

namespace HybridAutomata

open Extended

namespace Interval

section

variable {K : Type} [Field K] [LinearOrder K] [IsStrictOrderedRing K] {x lo hi : K} {m n : ℕ}

/-! ## A larger exponent -/

theorem pow_le_pow_iff_le_one (larger : m < n) (nonneg : 0 ≤ x) : x ^ n ≤ x ^ m ↔ x ≤ 1 := by
  constructor
  · intro le
    by_contra above
    exact absurd le (not_le_of_gt (pow_lt_pow_right₀ (lt_of_not_ge above) larger))
  · intro le
    exact pow_le_pow_of_le_one nonneg le larger.le

theorem pow_le_pow_iff_one_le (larger : m < n) (positive : 0 < x) : x ^ m ≤ x ^ n ↔ 1 ≤ x := by
  constructor
  · intro le
    by_contra below
    have smaller := pow_lt_pow_right_of_lt_one₀ positive (lt_of_not_ge below) larger
    exact absurd le (not_le_of_gt smaller)
  · intro le
    exact pow_le_pow_right₀ le larger.le

/-- The powers with the exponent `n` of the numbers from `lo` to `hi` lie between the powers of the
bounds with the exponent `m`. -/
def StayBetween (lo hi : K) (m n : ℕ) : Prop :=
  ∀ x, lo ≤ x → x ≤ hi → lo ^ m ≤ x ^ n ∧ x ^ n ≤ hi ^ m

/-- Bases for which a larger exponent leads inwards: one and its opposite alone, and numbers around
zero up to one, with a lower bound whose power is no further from zero than that of the upper
bound. -/
def Contracts (lo hi : K) (m n : ℕ) : Prop :=
  (lo = hi ∧ (lo = 1 ∨ lo = -1 ∧ Odd n)) ∨
    (lo ≤ 0 ∧ 0 ≤ hi ∧ hi ≤ 1 ∧ (Odd n → -1 ≤ lo) ∧ (Even n → |lo| ^ n ≤ hi ^ m))

theorem stayBetween_of_contracts (odd : Odd m) (larger : m < n) (h : Contracts lo hi m n) :
    StayBetween lo hi m n := by
  intro x above below
  obtain ⟨rfl, one | ⟨one, oddN⟩⟩ | ⟨nonpos, nonneg, small, ofOdd, ofEven⟩ := h
  · obtain rfl : x = lo := le_antisymm below above
    simp [one]
  · obtain rfl : x = lo := le_antisymm below above
    simp [one, odd.neg_one_pow, oddN.neg_one_pow]
  · have upper : hi ^ n ≤ hi ^ m := pow_le_pow_of_le_one nonneg small larger.le
    obtain even | oddN := Nat.even_or_odd n
    · refine ⟨(odd.pow_nonpos nonpos).trans (even.pow_nonneg x), ?_⟩
      obtain negative | positive := le_total x 0
      · rw [← even.pow_abs]
        have closer : |x| ≤ |lo| := by
          rw [abs_of_nonpos negative, abs_of_nonpos nonpos]
          exact neg_le_neg above
        exact (pow_le_pow_left₀ (abs_nonneg x) closer n).trans (ofEven even)
      · exact (pow_le_pow_left₀ positive below n).trans upper
    · constructor
      · refine le_trans ?_ (oddN.pow_le_pow.mpr above)
        rw [← neg_le_neg_iff, ← odd.neg_pow, ← oddN.neg_pow]
        exact pow_le_pow_of_le_one (neg_nonneg.mpr nonpos) (neg_le.mpr (ofOdd oddN)) larger.le
      · exact (oddN.pow_le_pow.mpr below).trans upper

theorem contracts_of_stayBetween (odd : Odd m) (larger : m < n) (ordered : lo ≤ hi)
    (h : StayBetween lo hi m n) : Contracts lo hi m n := by
  obtain ⟨aboveLo, belowLo⟩ := h lo le_rfl ordered
  obtain ⟨aboveHi, belowHi⟩ := h hi ordered le_rfl
  -- an odd power of a number below zero, seen from the other side
  have mirrored (oddN : Odd n) (le : lo ^ m ≤ lo ^ n) (nonpos : lo ≤ 0) : -1 ≤ lo := by
    rw [← neg_le_neg_iff, ← odd.neg_pow, ← oddN.neg_pow] at le
    exact neg_le.mp ((pow_le_pow_iff_le_one larger (neg_nonneg.mpr nonpos)).mp le)
  obtain nonneg | negative := le_or_gt 0 hi
  · have small : hi ≤ 1 := (pow_le_pow_iff_le_one larger nonneg).mp belowHi
    obtain positive | nonpos := lt_or_ge 0 lo
    · have one : 1 ≤ lo := (pow_le_pow_iff_one_le larger positive).mp aboveLo
      have same : lo = hi := le_antisymm ordered (small.trans one)
      exact .inl ⟨same, .inl (le_antisymm (ordered.trans small) one)⟩
    · refine .inr ⟨nonpos, nonneg, small, fun oddN => mirrored oddN aboveLo nonpos, fun even => ?_⟩
      rw [even.pow_abs]
      exact belowLo
  · have power : hi ^ n < 0 := belowHi.trans_lt (odd.pow_neg negative)
    have oddN : Odd n := by
      by_contra even
      exact absurd power (not_lt_of_ge ((Nat.not_odd_iff_even.mp even).pow_nonneg hi))
    have lower : -1 ≤ lo := mirrored oddN aboveLo (ordered.trans negative.le)
    have upper : hi ≤ -1 := by
      rw [← neg_le_neg_iff, ← odd.neg_pow, ← oddN.neg_pow] at belowHi
      exact le_neg.mp ((pow_le_pow_iff_one_le larger (neg_pos.mpr negative)).mp belowHi)
    have same : lo = hi := le_antisymm ordered (upper.trans lower)
    exact .inl ⟨same, .inr ⟨le_antisymm (ordered.trans upper) lower, oddN⟩⟩

theorem stayBetween_iff_contracts (odd : Odd m) (larger : m < n) (ordered : lo ≤ hi) :
    StayBetween lo hi m n ↔ Contracts lo hi m n :=
  ⟨contracts_of_stayBetween odd larger ordered, stayBetween_of_contracts odd larger⟩

end

/-! ## Answers -/

section

variable {K : Type} [Field K] [LinearOrder K] [FloorRing K] [Functions K]

/-- The interval that holds one whole number. -/
def exactly (n : ℤ) : Interval (Extended K) := ⟨finite n, finite n⟩

variable [IsStrictOrderedRing K] {i : Interval (Extended K)} {x lo hi : K} {n : ℤ}

/-- The power with a known whole exponent is the one with the exponent moved into 32 bits. -/
theorem pow_exactly (i : Interval (Extended K)) (n : ℤ) :
    i.pow (exactly n) = i.powInt (Max.max minWord (Min.min maxWord n)) := by
  have whole : ((exactly n : Interval (Extended K)).isPoint &&
      Scalar.isWhole (exactly n : Interval (Extended K)).min) = true := by
    simp [exactly, isPoint, isWhole_intCast]
  rw [Interval.pow, if_pos whole]
  exact congrArg i.powInt (wholePart_intCast_eq n)

omit [IsStrictOrderedRing K] in
/-- The least number of 32 bits has no opposite to take the power with. -/
theorem powInt_minWord (i : Interval (Extended K)) :
    i.powInt minWord = .error .negationOverflow := by
  rw [Interval.powInt, if_neg (by decide), if_pos rfl]
  rfl

/-- With every other exponent of 32 bits there is an answer, and it encloses the powers of all that
the base holds. -/
theorem exists_powInt (hx : i.Holds x) (hn : n ≠ minWord) :
    ∃ k, i.powInt n = .ok k ∧ ∀ y, i.Holds y → ¬(y = 0 ∧ n < 0) → k.Holds (y ^ n) := by
  have answer : ∃ k, i.powInt n = .ok k := by
    by_cases undefined : x = 0 ∧ n < 0
    · -- the power by which one is divided holds zero, so that the quotient is all numbers
      obtain ⟨rfl, negative⟩ := undefined
      obtain ⟨k, power, holds⟩ := hx.powNat (n := n.natAbs) (by omega)
      rw [zero_pow (by omega), ← contains_iff, ← zero_eq] at holds
      refine ⟨entire, ?_⟩
      rw [Interval.powInt, if_neg (by omega), if_neg hn, if_pos negative, power, ofNat_eq,
        Nat.cast_one, point_finite]
      exact if_pos holds
    · obtain ⟨k, made, _⟩ := hx.powInt hn undefined
      exact ⟨k, made⟩
  obtain ⟨k, made⟩ := answer
  refine ⟨k, made, fun y hy defined => ?_⟩
  obtain ⟨k', made', holds⟩ := hy.powInt hn defined
  obtain rfl : k = k' := Except.ok.inj (made.symm.trans made')
  exact holds

omit [IsStrictOrderedRing K] in
/-- Odd powers of the bounds are the bounds of the power. -/
theorem powNat_of_odd {m : ℕ} (odd : m % 2 = 1) (ordered : lo ^ m ≤ hi ^ m) :
    Interval.powNat ⟨finite lo, finite hi⟩ m = .ok ⟨finite (lo ^ m), finite (hi ^ m)⟩ := by
  rw [Interval.powNat, if_pos odd, powNat_finite, powNat_finite]
  exact if_pos (finite_le_finite.mpr ordered)

theorem powInt_maxWord (ordered : lo ≤ hi) :
    Interval.powInt ⟨finite lo, finite hi⟩ maxWord =
      .ok ⟨finite (lo ^ (2 ^ 31 - 1)), finite (hi ^ (2 ^ 31 - 1))⟩ := by
  have odd : Odd (2 ^ 31 - 1) := by decide
  rw [Interval.powInt, if_neg (by decide), if_neg (by decide), if_neg (by decide)]
  exact powNat_of_odd (by decide) (odd.pow_le_pow.mpr ordered)

/-- The power of a bounded base with a known whole exponent has an answer if the exponent is above
the least number of 32 bits, and otherwise fails for the opposite of the exponent. An answer
encloses the powers of all numbers in the base, an inverse of zero excepted, if the exponent is at
most the largest number of 32 bits, and beyond it exactly for the bases for which a larger exponent
leads inwards. -/
theorem pow_exactly_encloses_iff (ordered : lo ≤ hi) (n : ℤ) :
    (-2 ^ 31 < n → ∃ k, Interval.pow ⟨finite lo, finite hi⟩ (exactly n) = .ok k ∧
      ((∀ x : K, lo ≤ x → x ≤ hi → ¬(x = 0 ∧ n < 0) → k.Holds (x ^ n)) ↔
        n < 2 ^ 31 ∨ Contracts lo hi (2 ^ 31 - 1) n.toNat)) ∧
      (n ≤ -2 ^ 31 →
        Interval.pow ⟨finite lo, finite hi⟩ (exactly n) = .error .negationOverflow) := by
  rw [pow_exactly]
  constructor
  · intro hasOpposite
    obtain small | large := lt_or_ge n (2 ^ 31)
    · have same : Max.max minWord (Min.min maxWord n) = n := by
        simp only [minWord, maxWord]
        omega
      have ne : n ≠ minWord := by
        simp only [minWord]
        omega
      have holdsLo : Holds (⟨finite lo, finite hi⟩ : Interval (Extended K)) lo :=
        ⟨le_rfl, finite_le_finite.mpr ordered⟩
      obtain ⟨k, made, encloses⟩ := exists_powInt holdsLo ne
      rw [same]
      exact ⟨k, made, iff_of_true (fun x above below => encloses x ⟨above, below⟩) (.inl small)⟩
    · have largest : Max.max minWord (Min.min maxWord n) = maxWord := by
        simp only [minWord, maxWord]
        omega
      obtain ⟨m, rfl⟩ := Int.eq_ofNat_of_zero_le (a := n) (by omega)
      rw [largest, powInt_maxWord ordered, Int.toNat_natCast,
        or_iff_right (not_lt_of_ge large)]
      have odd : Odd (2 ^ 31 - 1) := by decide
      have larger : 2 ^ 31 - 1 < m := by omega
      refine ⟨_, rfl, ?_⟩
      rw [← stayBetween_iff_contracts odd larger ordered]
      simp only [zpow_natCast]
      constructor
      · intro encloses x above below
        have enclosed := encloses x above below (fun inverse => by omega)
        exact ⟨finite_le_finite.mp enclosed.1, finite_le_finite.mp enclosed.2⟩
      · intro between x above below _
        obtain ⟨lower, upper⟩ := between x above below
        exact ⟨finite_le_finite.mpr lower, finite_le_finite.mpr upper⟩
  · intro noOpposite
    have least : Max.max minWord (Min.min maxWord n) = minWord := by
      simp only [minWord, maxWord]
      omega
    rw [least, powInt_minWord]

/-- A base around zero with an odd exponent above the largest one. -/
theorem pow_exactly_encloses_iff_around_zero :
    (-1 / 2 : ℚ) ≤ 1 ∧ ∃ k : Interval (Extended ℚ),
      Interval.pow ⟨finite (-1 / 2), finite 1⟩ (exactly (2 ^ 31 + 1)) = .ok k ∧
        ∀ x : ℚ, -1 / 2 ≤ x → x ≤ 1 → ¬(x = 0 ∧ (2 ^ 31 + 1 : ℤ) < 0) →
          k.Holds (x ^ (2 ^ 31 + 1 : ℤ)) := by
  have ordered : (-1 / 2 : ℚ) ≤ 1 := by norm_num
  have odd : Odd (2 ^ 31 + 1 : ℤ).toNat := by decide
  have contracts : Contracts (-1 / 2 : ℚ) 1 (2 ^ 31 - 1) (2 ^ 31 + 1 : ℤ).toNat :=
    .inr ⟨by norm_num, by norm_num, le_rfl, fun _ => by norm_num,
      fun even => absurd odd (Nat.not_odd_iff_even.mpr even)⟩
  obtain ⟨k, made, encloses⟩ := (pow_exactly_encloses_iff ordered (2 ^ 31 + 1)).1 (by decide)
  exact ⟨ordered, k, made, encloses.mpr (.inr contracts)⟩

/-- An even power of minus one is taken for an odd one, and the inverse of a power of one whose
exponent has no opposite is not found. -/
theorem pow_exactly_misses :
    Interval.pow ⟨finite (-1), finite (-1)⟩ (exactly (2 ^ 31)) =
        .ok (⟨finite (-1), finite (-1)⟩ : Interval (Extended ℚ)) ∧
      ¬Holds (⟨finite (-1), finite (-1)⟩ : Interval (Extended ℚ)) ((-1) ^ (2 ^ 31 : ℤ)) ∧
      Interval.pow (⟨finite 1, finite 1⟩ : Interval (Extended ℚ)) (exactly (-2 ^ 31)) =
        .error .negationOverflow := by
  have odd : Odd (2 ^ 31 - 1) := by decide
  have even : Even (2 ^ 31 : ℤ) := by decide
  have largest : Max.max minWord (Min.min maxWord (2 ^ 31)) = maxWord := by decide
  have least : Max.max minWord (Min.min maxWord (-2 ^ 31)) = minWord := by decide
  refine ⟨?_, ?_, ?_⟩
  · rw [pow_exactly, largest, powInt_maxWord le_rfl, odd.neg_one_pow]
  · rw [even.neg_one_zpow, holds_point]
    norm_num
  · rw [pow_exactly, least, powInt_minWord]

end

end Interval

end HybridAutomata
