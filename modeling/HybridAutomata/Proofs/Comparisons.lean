import Mathlib.Order.Bounds.Basic
import HybridAutomata.Expr.Eval
import HybridAutomata.Interval

/-!
# Comparisons

Statements about least and greatest values need no arithmetic, only that comparisons are those of
an order. They are made for every type of numbers with such comparisons, doubles among them, so that
they hold whatever the rounding of sums and products is. A number is defined if it is not above
itself, that is, if it is comparable at all.
-/

namespace HybridAutomata

/-- The defined numbers are ordered, and the comparisons agree with each other. Different numbers
may be equal, as the two zeros of the doubles are. -/
class LawfulComparisons (α : Type) [Scalar α] : Prop where
  le_trans {a b c : α} : a ≤ b → b ≤ c → a ≤ c
  le_total {a b : α} : a ≤ a → b ≤ b → a ≤ b ∨ b ≤ a
  defined_of_le {a b : α} : a ≤ b → a ≤ a ∧ b ≤ b
  lt_iff {a b : α} : a < b ↔ a ≤ b ∧ ¬b ≤ a
  beq_iff {a b : α} : (a == b) = true ↔ a ≤ b ∧ b ≤ a

open LawfulComparisons

theorem Comparison.converse_eq_ne_iff {op : Comparison} : op.converse = .ne ↔ op = .ne := by
  cases op <;> simp [converse]

/-- A comparison of exchanged operands, where equality does not depend on their order. -/
theorem Comparison.apply_converse {α : Type} [Scalar α] (op : Comparison) {a b : α}
    (symmetric : (a == b) = (b == a)) : op.converse.apply a b = op.apply b a := by
  cases op with
  | eq => exact symmetric
  | ne => exact congrArg not symmetric
  | lt | le | gt | ge => rfl

namespace Scalar

variable {α : Type} [Scalar α]

theorem lesser_eq_or (a b : α) : lesser a b = a ∨ lesser a b = b := by
  rw [lesser]
  split
  · exact .inl rfl
  · split
    · exact .inr rfl
    · exact .inl rfl

theorem greater_eq_or (a b : α) : greater a b = a ∨ greater a b = b := by
  rw [greater]
  split
  · exact .inl rfl
  · split
    · exact .inr rfl
    · exact .inl rfl

variable [LawfulComparisons α] {a b : α}

theorem isDefined_iff : (a == a) = true ↔ a ≤ a := beq_iff.trans and_self_iff

theorem beq_symmetric (a b : α) : (a == b) = (b == a) := by
  rw [Bool.eq_iff_iff, beq_iff, beq_iff, and_comm]

theorem le_of_not_lt (ha : a ≤ a) (hb : b ≤ b) (h : ¬a < b) : b ≤ a := by
  obtain le | le := le_total ha hb
  · by_contra not
    exact h (lt_iff.mpr ⟨le, not⟩)
  · exact le

theorem lesser_le_left (b : α) (ha : a ≤ a) : lesser a b ≤ a := by
  rw [lesser]
  split
  · exact ha
  · next notLt =>
      split
      · next defined => exact le_of_not_lt ha (isDefined_iff.mp defined) notLt
      · exact ha

theorem lesser_le_right (a : α) (hb : b ≤ b) : lesser a b ≤ b := by
  rw [lesser]
  split
  · next lt => exact (lt_iff.mp lt).1
  · rwa [if_pos (isDefined_iff.mpr hb)]

theorem le_greater_left (b : α) (ha : a ≤ a) : a ≤ greater a b := by
  rw [greater]
  split
  · exact ha
  · next notLt =>
      split
      · next defined => exact le_of_not_lt (isDefined_iff.mp defined) ha notLt
      · exact ha

theorem le_greater_right (a : α) (hb : b ≤ b) : b ≤ greater a b := by
  rw [greater]
  split
  · next lt => exact (lt_iff.mp lt).1
  · rwa [if_pos (isDefined_iff.mpr hb)]

/-- An undefined number yields. -/
theorem lesser_of_undefined (a : α) (h : ¬b ≤ b) : lesser a b = a := by
  have notBelow : ¬a < b := fun lt => h (defined_of_le (lt_iff.mp lt).1).2
  rw [lesser, if_neg notBelow, if_neg (isDefined_iff.not.mpr h)]

theorem greater_of_undefined (a : α) (h : ¬b ≤ b) : greater a b = a := by
  have notAbove : ¬b < a := fun lt => h (defined_of_le (lt_iff.mp lt).1).1
  rw [greater, if_neg notAbove, if_neg (isDefined_iff.not.mpr h)]

omit [LawfulComparisons α] in
/-- Folding an operation whose result is related to both operands gives something that is related to
every defined item. -/
theorem foldl_related {R : α → α → Prop} {op : α → α → α}
    (trans : ∀ {a b c}, R a b → R b c → R a c)
    (left : ∀ {a} b, a ≤ a → R (op a b) a ∧ op a b ≤ op a b)
    (right : ∀ a {b}, b ≤ b → R (op a b) b) {start : α} (h : start ≤ start) (items : List α) :
    (items.foldl op start = start ∨ R (items.foldl op start) start) ∧
      ∀ item ∈ items, item ≤ item → R (items.foldl op start) item := by
  induction items generalizing start with
  | nil => simp
  | cons first rest ih =>
      obtain ⟨toStart, defined⟩ := left first h
      obtain ⟨toFolded, toRest⟩ := ih defined
      have through {b : α} (hb : R (op start first) b) : R (rest.foldl op (op start first)) b := by
        obtain eq | related := toFolded
        · rw [eq]
          exact hb
        · exact trans related hb
      refine ⟨.inr (through toStart), ?_⟩
      intro item mem hitem
      obtain rfl | mem := List.mem_cons.mp mem
      · exact through (right start hitem)
      · exact toRest item mem hitem

/-- The least of some numbers is below each of them. -/
theorem foldl_lesser_le {start : α} (h : start ≤ start) {items : List α} (mem : a ∈ items)
    (ha : a ≤ a) : items.foldl lesser start ≤ a := by
  refine (foldl_related (R := (· ≤ ·)) LawfulComparisons.le_trans (fun b ha => ?_)
    (fun a _ hb => lesser_le_right a hb) h items).2 a mem ha
  exact ⟨lesser_le_left b ha, (defined_of_le (lesser_le_left b ha)).1⟩

omit [LawfulComparisons α] in
/-- What is below all of some numbers is below the least of them. -/
theorem le_foldl_lesser {b start : α} (h : b ≤ start) {items : List α}
    (below : ∀ a ∈ items, b ≤ a) : b ≤ items.foldl lesser start := by
  induction items generalizing start with
  | nil => exact h
  | cons a items ih =>
      obtain ⟨first, others⟩ := List.forall_mem_cons.mp below
      refine ih ?_ others
      obtain same | same := lesser_eq_or start a
      · rwa [same]
      · rwa [same]

omit [LawfulComparisons α] in
theorem foldl_greater_le {b start : α} (h : start ≤ b) {items : List α}
    (above : ∀ a ∈ items, a ≤ b) : items.foldl greater start ≤ b := by
  induction items generalizing start with
  | nil => exact h
  | cons a items ih =>
      obtain ⟨first, others⟩ := List.forall_mem_cons.mp above
      refine ih ?_ others
      obtain same | same := greater_eq_or start a
      · rwa [same]
      · rwa [same]

/-- The greatest of some numbers is above each of them. -/
theorem le_foldl_greater {start : α} (h : start ≤ start) {items : List α} (mem : a ∈ items)
    (ha : a ≤ a) : a ≤ items.foldl greater start := by
  refine (foldl_related (R := fun a b => b ≤ a) (fun h h' => LawfulComparisons.le_trans h' h)
    (fun b ha => ?_) (fun a _ hb => le_greater_right a hb) h items).2 a mem ha
  exact ⟨le_greater_left b ha, (defined_of_le (le_greater_left b ha)).2⟩

theorem defined_of_isFinite (h : isFinite a = true) : a ≤ a := by
  rw [isFinite, Bool.and_eq_true, decide_eq_true_iff, decide_eq_true_iff] at h
  exact (defined_of_le (lt_iff.mp h.1).1).2

end Scalar

namespace Interval

variable {α : Type} [Scalar α] [LawfulComparisons α]

/-- A hull of intervals with their bounds in order is one. -/
theorem Ordered.hull {i j : Interval α} (h : i.Ordered) : (i.hull j).Ordered := by
  obtain ⟨lower, upper⟩ := defined_of_le h
  exact le_trans (Scalar.lesser_le_left j.min lower)
    (le_trans h (Scalar.le_greater_left j.max upper))

theorem Ordered.foldl_hull {i : Interval α} (h : i.Ordered) (is : List (Interval α)) :
    (is.foldl Interval.hull i).Ordered := by
  induction is generalizing i with
  | nil => exact h
  | cons j is ih => exact ih h.hull

/-- The bounds are the least and the greatest of the numbers in a set. -/
structure Encloses (s : Set α) (i : Interval α) : Prop where
  least : IsLeast s i.min
  greatest : IsGreatest s i.max

omit [LawfulComparisons α] in
theorem encloses_singleton {a : α} (h : a ≤ a) : Encloses {a} ⟨a, a⟩ where
  least := ⟨rfl, fun _ same => same ▸ h⟩
  greatest := ⟨rfl, fun _ same => same ▸ h⟩

/-- One more defined number. -/
theorem Encloses.hullPoint {s : Set α} {i : Interval α} (h : Encloses s i) {a : α} (ha : a ≤ a) :
    Encloses (insert a s) (i.hullPoint a) where
  least := by
    constructor
    · obtain same | same := Scalar.lesser_eq_or i.min a
      · exact .inr (Set.mem_of_eq_of_mem same h.least.1)
      · exact .inl same
    · rintro x (rfl | mem)
      · exact Scalar.lesser_le_right i.min ha
      · have below := h.least.2 mem
        exact le_trans (Scalar.lesser_le_left a (defined_of_le below).1) below
  greatest := by
    constructor
    · obtain same | same := Scalar.greater_eq_or i.max a
      · exact .inr (Set.mem_of_eq_of_mem same h.greatest.1)
      · exact .inl same
    · rintro x (rfl | mem)
      · exact Scalar.le_greater_right i.max ha
      · have above := h.greatest.2 mem
        exact le_trans above (Scalar.le_greater_left a (defined_of_le above).2)

theorem Encloses.foldl_hullPoint {s : Set α} {i : Interval α} (h : Encloses s i) {values : List α}
    (defined : ∀ a ∈ values, a ≤ a) :
    Encloses {x | x ∈ s ∨ x ∈ values} (values.foldl Interval.hullPoint i) := by
  induction values generalizing s i with
  | nil => simpa using h
  | cons a rest ih =>
      obtain ⟨first, rest⟩ := List.forall_mem_cons.mp defined
      have folded := ih (h.hullPoint first) rest
      simp only [Set.mem_insert_iff, List.mem_cons, or_assoc, or_left_comm] at folded ⊢
      exact folded

/-- Defined values have a smallest interval that contains them, unless there are none. -/
theorem exists_enclosing {values : List α} (nonempty : values ≠ [])
    (defined : ∀ a ∈ values, a ≤ a) :
    ∃ i, enclosing values = .ok (some i) ∧ Encloses {x | x ∈ values} i := by
  obtain ⟨a, rest, rfl⟩ := List.exists_cons_of_ne_nil nonempty
  obtain ⟨first, rest⟩ := List.forall_mem_cons.mp defined
  have pointed : point a = .ok ⟨a, a⟩ := if_pos first
  refine ⟨_, by rw [enclosing, pointed]; rfl, ?_⟩
  simpa using (encloses_singleton first).foldl_hullPoint rest

end Interval

end HybridAutomata
