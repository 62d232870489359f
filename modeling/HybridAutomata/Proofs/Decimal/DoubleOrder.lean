import Mathlib.Data.Prod.Lex
import Mathlib.Order.Compare
import HybridAutomata.Proofs.Comparisons
import HybridAutomata.Proofs.Decimal.Doubles

/-!
# The order of doubles

The comparisons of doubles are lawful. A double that is defined has a rank: its sign with the
infinities outermost, then its exponent, then its mantissa, the last two mirrored below zero.
Doubles are compared as their ranks are, and the two zeros have the same rank.
-/

namespace HybridAutomata

namespace Double

open Float.Model (UnpackedFloat)

/-- The rank of a number; none for the undefined one. -/
def rank : UnpackedFloat → Option (ℤ ×ₗ ℤ ×ₗ ℤ)
  | .notANumber => none
  | .infinity .negative => some (toLex (-2, toLex (0, 0)))
  | .finite .negative m e _ => some (toLex (-1, toLex (-e, -m)))
  | .zero _ => some (toLex (0, toLex (0, 0)))
  | .finite .positive m e _ => some (toLex (1, toLex (e, m)))
  | .infinity .positive => some (toLex (2, toLex (0, 0)))

theorem compare_toLex (a a' b b' c c' : ℤ) :
    compare (toLex (a, toLex (b, c))) (toLex (a', toLex (b', c'))) =
      (compare a a').then ((compare b b').then (compare c c')) := by
  simp [Prod.Lex.compare_def, compareLex, compareOn]

theorem compare_cast (m m' : ℕ) : compare (m : ℤ) (m' : ℤ) = compare m m' := by
  obtain lt | rfl | gt := lt_trichotomy m m'
  · rw [compare_lt_iff_lt.mpr lt, compare_lt_iff_lt.mpr (Int.ofNat_lt.mpr lt)]
  · rw [compare_eq_iff_eq.mpr rfl, compare_eq_iff_eq.mpr rfl]
  · rw [compare_gt_iff_gt.mpr gt, compare_gt_iff_gt.mpr (Int.ofNat_lt.mpr gt)]

theorem compare_neg_neg (a b : ℤ) : compare (-a) (-b) = (compare a b).swap := by
  obtain lt | rfl | gt := lt_trichotomy a b
  · rw [compare_lt_iff_lt.mpr lt, compare_gt_iff_gt.mpr (Int.neg_lt_neg lt)]
    rfl
  · rw [compare_eq_iff_eq.mpr rfl, compare_eq_iff_eq.mpr rfl]
    rfl
  · rw [compare_gt_iff_gt.mpr gt, compare_lt_iff_lt.mpr (Int.neg_lt_neg gt)]
    rfl

/-- Numbers are compared as their ranks are. -/
theorem compare_eq (u v : UnpackedFloat) :
    u.compare v = (rank u).bind fun k => (rank v).map fun l => compare k l := by
  rcases u with (_ | _) | _ | s | ⟨_ | _, m, e, pos⟩ <;>
    rcases v with (_ | _) | _ | t | ⟨_ | _, m', e', pos'⟩
  case finite.positive.finite.positive =>
    change _ = some (compare (toLex (1, toLex (e, (m : ℤ)))) (toLex (1, toLex (e', (m' : ℤ)))))
    rw [compare_toLex, compare_cast]
    rfl
  case finite.negative.finite.negative =>
    change _ =
      some (compare (toLex (-1, toLex (-e, (-m : ℤ)))) (toLex (-1, toLex (-e', (-m' : ℤ)))))
    rw [compare_toLex, compare_neg_neg e, compare_neg_neg (m : ℤ), compare_cast,
      ← Ordering.swap_then]
    rfl
  all_goals rfl

/-! ## Comparisons by rank -/

section

variable {x y : Float} {k l : ℤ ×ₗ ℤ ×ₗ ℤ}

/-- Numbers that can be compared at all have a rank. -/
theorem exists_rank {o : Ordering} (h : (parts x).compare (parts y) = some o) :
    ∃ k l, rank (parts x) = some k ∧ rank (parts y) = some l := by
  rw [compare_eq] at h
  obtain ⟨k, hk, h⟩ := Option.bind_eq_some_iff.mp h
  obtain ⟨l, hl, _⟩ := Option.map_eq_some_iff.mp h
  exact ⟨k, l, hk, hl⟩

theorem compare_of_rank (hk : rank (parts x) = some k) (hl : rank (parts y) = some l) :
    (parts x).compare (parts y) = some (compare k l) := by
  rw [compare_eq, hk, hl]
  rfl

theorem le_iff_compare : x ≤ y ↔ ((parts x).compare (parts y)).any (·.isLE) = true :=
  decide_eq_true_iff

theorem exists_rank_of_le (h : x ≤ y) :
    ∃ k l, rank (parts x) = some k ∧ rank (parts y) = some l := by
  rw [le_iff_compare] at h
  cases compared : (parts x).compare (parts y) with
  | none =>
      rw [compared] at h
      cases h
  | some o => exact exists_rank compared

variable (hk : rank (parts x) = some k) (hl : rank (parts y) = some l)

include hk hl

theorem le_iff_of_rank : x ≤ y ↔ k ≤ l := by
  rw [le_iff_compare, compare_of_rank hk hl, Option.any_some, ← compare_le_iff_le,
    Ordering.isLE_iff_ne_gt]

theorem lt_iff_of_rank : x < y ↔ k < l := by
  rw [lt_iff, compare_of_rank hk hl, Option.some_inj, compare_lt_iff_lt]

theorem beq_iff_of_rank : (x == y) = true ↔ k = l := by
  rw [beq_iff, compare_of_rank hk hl, Option.some_inj, compare_eq_iff_eq]

end

instance : LawfulComparisons Float where
  le_trans := by
    intro x y z h h'
    obtain ⟨k, l, hk, hl⟩ := exists_rank_of_le h
    obtain ⟨_, n, _, hn⟩ := exists_rank_of_le h'
    rw [le_iff_of_rank hk hl] at h
    rw [le_iff_of_rank hl hn] at h'
    exact (le_iff_of_rank hk hn).mpr (h.trans h')
  le_total := by
    intro x y h h'
    obtain ⟨k, _, hk, _⟩ := exists_rank_of_le h
    obtain ⟨l, _, hl, _⟩ := exists_rank_of_le h'
    rw [le_iff_of_rank hk hl, le_iff_of_rank hl hk]
    exact le_total k l
  defined_of_le := by
    intro x y h
    obtain ⟨k, l, hk, hl⟩ := exists_rank_of_le h
    exact ⟨(le_iff_of_rank hk hk).mpr le_rfl, (le_iff_of_rank hl hl).mpr le_rfl⟩
  lt_iff := by
    intro x y
    constructor
    · intro h
      obtain ⟨k, l, hk, hl⟩ := exists_rank (lt_iff.mp h)
      rw [le_iff_of_rank hk hl, le_iff_of_rank hl hk, ← lt_iff_le_not_ge]
      exact (lt_iff_of_rank hk hl).mp h
    · rintro ⟨h, not⟩
      obtain ⟨k, l, hk, hl⟩ := exists_rank_of_le h
      rw [le_iff_of_rank hk hl] at h
      rw [le_iff_of_rank hl hk] at not
      exact (lt_iff_of_rank hk hl).mpr (lt_of_le_not_ge h not)
  beq_iff := by
    intro x y
    constructor
    · intro h
      obtain ⟨k, l, hk, hl⟩ := exists_rank (beq_iff.mp h)
      rw [le_iff_of_rank hk hl, le_iff_of_rank hl hk, ← le_antisymm_iff]
      exact (beq_iff_of_rank hk hl).mp h
    · rintro ⟨h, h'⟩
      obtain ⟨k, l, hk, hl⟩ := exists_rank_of_le h
      rw [le_iff_of_rank hk hl] at h
      rw [le_iff_of_rank hl hk] at h'
      exact (beq_iff_of_rank hk hl).mpr (le_antisymm h h')

end Double

end HybridAutomata
