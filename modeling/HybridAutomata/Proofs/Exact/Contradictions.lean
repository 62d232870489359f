import HybridAutomata.Proofs.Exact.Simplification
import HybridAutomata.Proofs.Expr.Connectives
import HybridAutomata.Transform.Unsatisfiable

/-!
# Plain contradictions

The tightest of several lower bounds is one of them, and a number that is on the right side of it is
on the right side of all of them; so are the tightest upper bounds. Two bounds exclude each other
exactly if no number is between them, provided that there are numbers between any two and beyond
every one. So what is found to be plainly unsatisfiable is unsatisfiable, and among the conjunctions
of comparisons of one variable with one number every unsatisfiable one is found.
-/

namespace HybridAutomata

open ExactScalar

/-! ## Bounds -/

namespace Bound

section

variable {α : Type} {replaces : Bound α → Bound α → Bool} {b : Bound α} {bs : List (Bound α)}
  {allows : Bound α → Prop}

/-- The tightest of several bounds is one of them. -/
theorem mem_of_tightest (h : tightest replaces bs = some b) : b ∈ bs := by
  cases bs with
  | nil => cases h
  | cons first rest =>
      obtain rfl := Option.some.inj h
      refine List.foldlRecOn rest _ (motive := (· ∈ first :: rest)) (.head _)
        fun old kept new mem => ?_
      split
      · exact .tail _ mem
      · exact kept

/-- Of several bounds the last one that is kept decides, if of any two the one that is kept does. -/
theorem foldl_decides {among : List (Bound α)}
    (decides : ∀ new ∈ among, ∀ old ∈ among,
      allows (if replaces new old then new else old) → allows new ∧ allows old)
    (first : b ∈ among) (others : bs ⊆ among)
    (allowed : allows (bs.foldl (fun old new => if replaces new old then new else old) b)) :
    ∀ c ∈ b :: bs, allows c := by
  induction bs generalizing b with
  | nil => exact List.forall_mem_singleton.mpr allowed
  | cons c bs ih =>
      obtain ⟨next, others⟩ := List.cons_subset.mp others
      have kept : (if replaces c b then c else b) ∈ among := by
        split
        · exact next
        · exact first
      obtain ⟨ofKept, ofRest⟩ := List.forall_mem_cons.mp (ih kept others allowed)
      obtain ⟨ofNext, ofFirst⟩ := decides c next b first ofKept
      exact List.forall_mem_cons.mpr ⟨ofFirst, List.forall_mem_cons.mpr ⟨ofNext, ofRest⟩⟩

/-- What the tightest bound allows, if there is one, all of them allow. -/
theorem forall_of_tightest
    (decides : ∀ new ∈ bs, ∀ old ∈ bs,
      allows (if replaces new old then new else old) → allows new ∧ allows old)
    (allowed : ∀ b, tightest replaces bs = some b → allows b) : ∀ b ∈ bs, allows b := by
  cases bs with
  | nil => exact fun _ mem => absurd mem List.not_mem_nil
  | cons first rest =>
      exact foldl_decides decides (.head _) (List.subset_cons_self first rest) (allowed _ rfl)

end

variable {K α : Type} [Field K] [LinearOrder K] [Scalar α] [ExactScalar K α]

/-- The number is on the right side of a lower bound. -/
def Below (b : Bound α) (x : K) : Prop :=
  b.value < number x ∨ b.strict = false ∧ b.value ≤ number x

/-- The number is on the right side of an upper bound. -/
def Above (b : Bound α) (x : K) : Prop :=
  number x < b.value ∨ b.strict = false ∧ number x ≤ b.value

/-- The bound is a number. -/
def Numeric (b : Bound α) : Prop := ∃ y : K, b.value = number y

section

variable {lower upper new old : Bound α} {bs : List (Bound α)} {x : K}

/-- Of two lower bounds the greater one decides, and of equal ones a strict one. -/
theorem below_of_isAbove (hn : new.Numeric) (ho : old.Numeric)
    (below : (if new.isAbove old then new else old).Below x) : new.Below x ∧ old.Below x := by
  obtain ⟨_, s⟩ := new
  obtain ⟨_, t⟩ := old
  obtain ⟨y, rfl⟩ := hn
  obtain ⟨z, rfl⟩ := ho
  split at below <;>
    simp only [isAbove, Below, number_lt_iff, number_le_iff, number_beq] at * <;> grind

/-- Of two upper bounds the smaller one decides, and of equal ones a strict one. -/
theorem above_of_isBelow (hn : new.Numeric) (ho : old.Numeric)
    (above : (if new.isBelow old then new else old).Above x) : new.Above x ∧ old.Above x := by
  obtain ⟨_, s⟩ := new
  obtain ⟨_, t⟩ := old
  obtain ⟨y, rfl⟩ := hn
  obtain ⟨z, rfl⟩ := ho
  split at above <;>
    simp only [isBelow, Above, number_lt_iff, number_le_iff, number_beq] at * <;> grind

/-- A number on the right side of the tightest lower bound is on the right side of all of them. -/
theorem below_of_tightest (numeric : ∀ b ∈ bs, b.Numeric)
    (below : ∀ lower, tightest isAbove bs = some lower → lower.Below x) : ∀ b ∈ bs, b.Below x :=
  forall_of_tightest
    (fun new hn old ho => below_of_isAbove (numeric new hn) (numeric old ho)) below

/-- A number on the right side of the tightest upper bound is on the right side of all of them. -/
theorem above_of_tightest (numeric : ∀ b ∈ bs, b.Numeric)
    (above : ∀ upper, tightest isBelow bs = some upper → upper.Above x) : ∀ b ∈ bs, b.Above x :=
  forall_of_tightest
    (fun new hn old ho => above_of_isBelow (numeric new hn) (numeric old ho)) above

theorem Numeric.exists_below [NoMaxOrder K] (h : lower.Numeric) : ∃ x : K, lower.Below x := by
  obtain ⟨y, value⟩ := h
  obtain ⟨x, lt⟩ := exists_gt y
  exact ⟨x, .inl (value ▸ number_lt_iff.mpr lt)⟩

theorem Numeric.exists_above [NoMinOrder K] (h : upper.Numeric) : ∃ x : K, upper.Above x := by
  obtain ⟨y, value⟩ := h
  obtain ⟨x, lt⟩ := exists_lt y
  exact ⟨x, .inl (value ▸ number_lt_iff.mpr lt)⟩

/-- No number is between bounds that exclude each other. -/
theorem not_exclude (hl : lower.Numeric) (hu : upper.Numeric) (below : lower.Below x)
    (above : upper.Above x) : lower.exclude upper = false := by
  obtain ⟨_, s⟩ := lower
  obtain ⟨_, t⟩ := upper
  obtain ⟨y, rfl⟩ := hl
  obtain ⟨z, rfl⟩ := hu
  simp only [exclude, Below, Above, number_lt_iff, number_le_iff, number_beq] at *
  grind

/-- Bounds that do not exclude each other have a number between them. -/
theorem exists_of_not_exclude [DenselyOrdered K] (hl : lower.Numeric) (hu : upper.Numeric)
    (compatible : lower.exclude upper = false) : ∃ x : K, lower.Below x ∧ upper.Above x := by
  obtain ⟨_, s⟩ := lower
  obtain ⟨_, t⟩ := upper
  obtain ⟨y, rfl⟩ := hl
  obtain ⟨z, rfl⟩ := hu
  simp only [exclude, number_lt_iff, number_beq, Bool.or_eq_false_iff, Bool.and_eq_false_iff,
    decide_eq_false_iff_not, not_lt] at compatible
  obtain ⟨ordered, apart⟩ := compatible
  obtain rfl | lt := ordered.eq_or_lt
  · obtain ⟨rfl, rfl⟩ := apart.resolve_left (not_not_intro rfl)
    exact ⟨y, .inr ⟨rfl, number_le_iff.mpr le_rfl⟩, .inr ⟨rfl, number_le_iff.mpr le_rfl⟩⟩
  · obtain ⟨x, below, above⟩ := exists_between lt
    exact ⟨x, .inl (number_lt_iff.mpr below), .inl (number_lt_iff.mpr above)⟩

end

end Bound

/-! ## Comparisons of one variable -/

namespace NumberComparison

variable {K α : Type} [Field K] [LinearOrder K] [Scalar α] [ExactScalar K α]

/-- The variable is compared with a number. -/
def Numeric (c : NumberComparison α) : Prop := ∃ y : K, c.value = number y

/-- The comparison is true of a number. -/
def HoldsOf (c : NumberComparison α) (x : K) : Prop := c.op.apply (number x) c.value = true

section

variable {c : NumberComparison α} {cs : List (NumberComparison α)} {b lower upper : Bound α} {x : K}

theorem numeric_lower (numeric : c.Numeric) (h : c.lower? = some b) : b.Numeric := by
  obtain ⟨name, op, value⟩ := c
  cases op <;> cases h <;> exact numeric

theorem numeric_upper (numeric : c.Numeric) (h : c.upper? = some b) : b.Numeric := by
  obtain ⟨name, op, value⟩ := c
  cases op <;> cases h <;> exact numeric

/-- The comparison is true of a number only on the right side of its lower bound. -/
theorem HoldsOf.below (h : c.HoldsOf x) (numeric : c.Numeric) (bound : c.lower? = some b) :
    b.Below x := by
  obtain ⟨name, op, _⟩ := c
  obtain ⟨y, rfl⟩ := numeric
  cases op <;> cases bound <;>
    simp only [HoldsOf, Comparison.apply, Bound.Below, number_lt_iff, number_le_iff,
      number_beq] at * <;> grind

/-- The comparison is true of a number only on the right side of its upper bound. -/
theorem HoldsOf.above (h : c.HoldsOf x) (numeric : c.Numeric) (bound : c.upper? = some b) :
    b.Above x := by
  obtain ⟨name, op, _⟩ := c
  obtain ⟨y, rfl⟩ := numeric
  cases op <;> cases bound <;>
    simp only [HoldsOf, Comparison.apply, Bound.Above, number_lt_iff, number_le_iff,
      number_beq] at * <;> grind

/-- A comparison other than `!=` is true of the numbers on the right sides of its bounds. -/
theorem holdsOf_of_bounds (numeric : c.Numeric) (ordered : c.op ≠ .ne)
    (below : ∀ b, c.lower? = some b → b.Below x) (above : ∀ b, c.upper? = some b → b.Above x) :
    c.HoldsOf x := by
  obtain ⟨name, op, _⟩ := c
  obtain ⟨y, rfl⟩ := numeric
  cases op <;>
    simp only [HoldsOf, lower?, upper?, Comparison.apply, Bound.Below, Bound.Above, number_lt_iff,
      number_le_iff, number_beq, Option.some.injEq, forall_eq', decide_eq_true_eq] at * <;> grind

theorem numeric_lowers (numeric : ∀ c ∈ cs, c.Numeric) : ∀ b ∈ cs.filterMap lower?, b.Numeric := by
  intro b mem
  obtain ⟨c, given, bound⟩ := List.mem_filterMap.mp mem
  exact numeric_lower (numeric c given) bound

theorem numeric_uppers (numeric : ∀ c ∈ cs, c.Numeric) : ∀ b ∈ cs.filterMap upper?, b.Numeric := by
  intro b mem
  obtain ⟨c, given, bound⟩ := List.mem_filterMap.mp mem
  exact numeric_upper (numeric c given) bound

/-- Comparisons that are true of one number do not contradict each other. -/
theorem not_contradict (numeric : ∀ c ∈ cs, c.Numeric) (holds : ∀ c ∈ cs, c.HoldsOf x) :
    contradict cs = false := by
  unfold contradict
  split
  · next lower upper hl hu =>
      obtain ⟨c, given, below⟩ := List.mem_filterMap.mp (Bound.mem_of_tightest hl)
      obtain ⟨d, given', above⟩ := List.mem_filterMap.mp (Bound.mem_of_tightest hu)
      exact Bound.not_exclude (numeric_lower (numeric c given) below)
        (numeric_upper (numeric d given') above) ((holds c given).below (numeric c given) below)
        ((holds d given').above (numeric d given') above)
  · rfl

/-- Comparisons that do not contradict each other are true of one number. -/
theorem exists_of_not_contradict [DenselyOrdered K] [NoMinOrder K] [NoMaxOrder K]
    (numeric : ∀ c ∈ cs, c.Numeric) (ordered : ∀ c ∈ cs, c.op ≠ .ne)
    (compatible : contradict cs = false) : ∃ x : K, ∀ c ∈ cs, c.HoldsOf x := by
  have lowers := numeric_lowers numeric
  have uppers := numeric_uppers numeric
  -- it is enough that a number is on the right side of the tightest bounds that there are
  suffices between : ∃ x : K,
      (∀ lower, Bound.tightest Bound.isAbove (cs.filterMap lower?) = some lower → lower.Below x) ∧
      ∀ upper, Bound.tightest Bound.isBelow (cs.filterMap upper?) = some upper → upper.Above x by
    obtain ⟨x, below, above⟩ := between
    have allBelow := Bound.below_of_tightest lowers below
    have allAbove := Bound.above_of_tightest uppers above
    exact ⟨x, fun c mem => holdsOf_of_bounds (numeric c mem) (ordered c mem)
      (fun b bound => allBelow b (List.mem_filterMap.mpr ⟨c, mem, bound⟩))
      (fun b bound => allAbove b (List.mem_filterMap.mpr ⟨c, mem, bound⟩))⟩
  rw [contradict] at compatible
  cases hl : Bound.tightest Bound.isAbove (cs.filterMap lower?) with
  | none =>
      cases hu : Bound.tightest Bound.isBelow (cs.filterMap upper?) with
      | none => exact ⟨0, by simp⟩
      | some upper =>
          obtain ⟨x, above⟩ := (uppers upper (Bound.mem_of_tightest hu)).exists_above
          exact ⟨x, by simp, fun _ same => Option.some.inj same ▸ above⟩
  | some lower =>
      have numericLower := lowers lower (Bound.mem_of_tightest hl)
      cases hu : Bound.tightest Bound.isBelow (cs.filterMap upper?) with
      | none =>
          obtain ⟨x, below⟩ := numericLower.exists_below
          exact ⟨x, fun _ same => Option.some.inj same ▸ below, by simp⟩
      | some upper =>
          rw [hl, hu] at compatible
          obtain ⟨x, below, above⟩ := Bound.exists_of_not_exclude numericLower
            (uppers upper (Bound.mem_of_tightest hu)) compatible
          exact ⟨x, fun _ same => Option.some.inj same ▸ below,
            fun _ same => Option.some.inj same ▸ above⟩

end

end NumberComparison

/-! ## Invariants -/

namespace Expr

variable {K α : Type} [Field K] [LinearOrder K] [Scalar α] [ExactScalar K α]

section

variable {env : String → Option α} {e : Expr α} {n : NumberComparison α}

/-- A condition that holds stands for truth in all its conjuncts. -/
theorem means_conjuncts (h : Means env e (.truth true)) :
    ∀ c ∈ e.conjuncts, Means env c (.truth true) := by
  unfold conjuncts
  fun_induction chain .and e with
  | case1 l r left right =>
      cases h with
      | logic meansL meansR => exact List.forall_mem_append.mpr ⟨left meansL, right meansR⟩
  | case2 => exact List.forall_mem_singleton.mpr h
  | case3 => exact List.forall_mem_singleton.mpr h

/-- What is read off a conjunct that holds is true of the number that its variable stands for. -/
theorem exists_of_ofExpr? (read : NumberComparison.ofExpr? e = some n)
    (h : Means env e (.truth true)) :
    ∃ x, env n.name = some (number x) ∧ n.Numeric ∧ n.HoldsOf x := by
  match e, read with
  | .binary (.compare op) (.var name) (.num c), read =>
      cases read
      obtain ⟨x, y, hx, hy, holds⟩ := means_compare.mp h
      obtain rfl := means_num.mp hy
      cases hx with
      | var value => exact ⟨x, value, ⟨y, rfl⟩, holds.symm⟩
  | .binary (.compare op) (.num c) (.var name), read =>
      cases read
      obtain ⟨y, x, hy, hx, holds⟩ := means_compare.mp h
      obtain rfl := means_num.mp hy
      cases hx with
      | var value =>
          refine ⟨x, value, ⟨y, rfl⟩, ?_⟩
          rw [NumberComparison.HoldsOf, Comparison.apply_converse op (number_beq_symmetric x y)]
          exact holds.symm

/-- A plain contradiction holds nowhere where all of it is defined. -/
theorem holds_ne_true_of_isPlainlyUnsatisfiable {K α : Type} [Field K] [LinearOrder K] [Scalar α]
    [ExactScalar K α] {env : String → Option α} {e : Expr α}
    (plain : e.isPlainlyUnsatisfiable = true) (defined : DefinedThroughout env e) :
    e.holds env ≠ .ok true := by
  intro holds
  have conjuncts := means_conjuncts (means_simplify e (means_of_holds e defined holds))
  rw [isPlainlyUnsatisfiable, Bool.or_eq_true, List.any_eq_true, List.any_eq_true] at plain
  obtain ⟨c, mem, isFalse⟩ | ⟨n, listed, contradict⟩ := plain
  · obtain rfl := isFalse_iff.mp isFalse
    cases conjuncts _ mem
  · obtain ⟨c, mem, read⟩ := List.mem_filterMap.mp listed
    obtain ⟨x, value, _⟩ := exists_of_ofExpr? read (conjuncts c mem)
    -- the comparisons of one variable are true of the one number that it stands for
    have together : ∀ d ∈ (e.simplify.conjuncts.filterMap NumberComparison.ofExpr?).filter
        (·.name == n.name), d.Numeric ∧ d.HoldsOf x := by
      intro d given
      obtain ⟨listed, same⟩ := List.mem_filter.mp given
      obtain ⟨c, mem, read⟩ := List.mem_filterMap.mp listed
      obtain ⟨x', value', numeric, holdsOf⟩ := exists_of_ofExpr? read (conjuncts c mem)
      rw [beq_iff_eq.mp same, value] at value'
      rw [number_inj.mp (Option.some.inj value')]
      exact ⟨numeric, holdsOf⟩
    rw [NumberComparison.not_contradict (fun d mem => (together d mem).1)
      fun d mem => (together d mem).2] at contradict
    cases contradict

end

/-- The conjuncts by which contradictions are found: constants, and comparisons of one variable with
one number, on either side. -/
inductive IsSimpleConjunct : Expr α → Prop where
  | bool (b : Bool) : IsSimpleConjunct (.bool b)
  | left {op : Comparison} (name : String) (y : K) : op ≠ .ne →
      IsSimpleConjunct (.binary (.compare op) (.var name) (.num (number y)))
  | right {op : Comparison} (name : String) (y : K) : op ≠ .ne →
      IsSimpleConjunct (.binary (.compare op) (.num (number y)) (.var name))

section

variable {c e : Expr α} {n : NumberComparison α}

theorem IsSimpleConjunct.numeric (h : c.IsSimpleConjunct)
    (read : NumberComparison.ofExpr? c = some n) : n.Numeric ∧ n.op ≠ .ne := by
  cases h with
  | bool => cases read
  | left name y ordered =>
      cases read
      exact ⟨⟨y, rfl⟩, ordered⟩
  | right name y ordered =>
      cases read
      exact ⟨⟨y, rfl⟩, fun same => ordered (Comparison.converse_eq_ne_iff.mp same)⟩

/-- A simple conjunct holds if it is not false and what is read off it is true. -/
theorem IsSimpleConjunct.holds_of_holdsOf {v : String → K} (h : c.IsSimpleConjunct)
    (notFalse : ¬c.isFalse = true)
    (solved : ∀ n, NumberComparison.ofExpr? c = some n → n.HoldsOf (v n.name)) :
    c.holds (fun name => some (number (v name))) = .ok true := by
  cases h with
  | bool b =>
      cases b with
      | true => rfl
      | false => exact absurd rfl notFalse
  | left name y _ => exact congrArg Except.ok (solved _ rfl)
  | right name y _ =>
      have converse := solved _ rfl
      rw [NumberComparison.HoldsOf, Comparison.apply_converse _ (number_beq_symmetric _ _)]
        at converse
      exact congrArg Except.ok converse

/-- A conjunction of simple conjuncts that no numbers satisfy is a plain contradiction, where there
are numbers between any two and beyond every one. -/
theorem isPlainlyUnsatisfiable_of_unsatisfiable [DenselyOrdered K] [NoMinOrder K] [NoMaxOrder K]
    (simple : ∀ c ∈ e.simplify.conjuncts, c.IsSimpleConjunct)
    (unsatisfiable : ∀ v : String → K,
      e.simplify.holds (fun name => some (number (v name))) ≠ .ok true) :
    e.isPlainlyUnsatisfiable = true := by
  by_contra plain
  rw [isPlainlyUnsatisfiable, Bool.not_eq_true, Bool.or_eq_false_iff, List.any_eq_false,
    List.any_eq_false] at plain
  obtain ⟨noFalse, compatible⟩ := plain
  have read : ∀ n ∈ e.simplify.conjuncts.filterMap NumberComparison.ofExpr?,
      n.Numeric ∧ n.op ≠ .ne := by
    intro n listed
    obtain ⟨c, mem, read⟩ := List.mem_filterMap.mp listed
    exact (simple c mem).numeric read
  have solvable (name : String) : ∃ x : K, ∀ n ∈ (e.simplify.conjuncts.filterMap
      NumberComparison.ofExpr?).filter (·.name == name), n.HoldsOf x := by
    have part (n) (given : n ∈ (e.simplify.conjuncts.filterMap
        NumberComparison.ofExpr?).filter (·.name == name)) := read n (List.mem_of_mem_filter given)
    refine NumberComparison.exists_of_not_contradict (fun n given => (part n given).1)
      (fun n given => (part n given).2) ?_
    cases listed : (e.simplify.conjuncts.filterMap NumberComparison.ofExpr?).filter
        (·.name == name) with
    | nil => rfl
    | cons n rest =>
        obtain ⟨mem, same⟩ := List.mem_filter.mp (listed ▸ List.mem_cons_self : n ∈ List.filter _ _)
        obtain rfl := beq_iff_eq.mp same
        rw [← listed]
        exact Bool.eq_false_iff.mpr (compatible n mem)
  choose v solves using solvable
  refine unsatisfiable v ((conjuncts_hold_iff _ _).mp fun c mem => ?_)
  refine (simple c mem).holds_of_holdsOf (noFalse c mem) fun n found => ?_
  exact solves n.name n
    (List.mem_filter.mpr ⟨List.mem_filterMap.mpr ⟨c, mem, found⟩, beq_self_eq_true n.name⟩)

end

end Expr

end HybridAutomata
