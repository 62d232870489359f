import HybridAutomata.Decimal.Double
import HybridAutomata.Proofs.Exact.Meaning
import HybridAutomata.Proofs.Expr.Connectives

/-!
# Chains of one connective

A condition is put together operand by operand, and what is read off it later are its operands. So
joining two conditions must neither lose an operand nor move one: the operands of the whole are those
of the parts, one after the other, except for the literal that changes nothing. The literal may
disappear on the way, and whether it does depends on where it stands.

Conjunction and disjunction are built alike. The ways in which they are built are the constructors of
one relation, and what holds of both is shown once, by induction on it.
-/

namespace HybridAutomata

namespace Expr

section

variable {α : Type} {op : LogicOp} {l r e item : Expr α} {items : List (Expr α)}

def isNeutral (op : LogicOp) : Expr α → Bool
  | .bool value => value == op.neutral
  | _ => false

/-- The operands of a chain, without the literals that change nothing. -/
def operands (op : LogicOp) (e : Expr α) : List (Expr α) :=
  (e.chain op).filter fun item => !item.isNeutral op

/-- No operator of the chain at the root has an operator of the chain as its right operand. -/
def LeansLeft (op : LogicOp) : Expr α → Prop
  | .binary (.logic o) l r =>
      o = op → LeansLeft op l ∧ LeansLeft op r ∧ ∀ r₁ r₂, r ≠ .binary (.logic op) r₁ r₂
  | _ => True

/-- The ways in which two formulas are joined by a connective. -/
inductive Joined (op : LogicOp) : Expr α → Expr α → Expr α → Prop
  | right (r : Expr α) : Joined op (.bool op.neutral) r r
  | left (l : Expr α) : Joined op l (.bool op.neutral) l
  | apart {l r₁ r₂ front whole : Expr α} (first : Joined op l r₁ front)
      (second : Joined op front r₂ whole) : Joined op l (.binary (.logic op) r₁ r₂) whole
  | beside (l : Expr α) {r : Expr α} (single : ∀ r₁ r₂, r ≠ .binary (.logic op) r₁ r₂) :
      Joined op l r (.binary (.logic op) l r)

theorem joined_and (l r : Expr α) : Joined .and l r (l.and r) := by
  fun_induction Expr.and l r with
  | case1 r₁ r₂ => exact .right _
  | case2 r₁ r₂ l _ front whole => exact .apart front whole
  | case3 l => exact .left l
  | case4 r => exact .right r
  | case5 r single _ l _ => exact .beside l single

theorem joined_or (l r : Expr α) : Joined .or l r (l.or r) := by
  fun_induction Expr.or l r with
  | case1 r₁ r₂ => exact .right _
  | case2 r₁ r₂ l _ front whole => exact .apart front whole
  | case3 l => exact .left l
  | case4 r => exact .right r
  | case5 r single _ l _ => exact .beside l single

/-! ## Operands -/

theorem chain_binary (op : LogicOp) (l r : Expr α) :
    (Expr.binary (.logic op) l r).chain op = l.chain op ++ r.chain op := by
  rw [chain, if_pos rfl]

@[simp] theorem operands_binary (op : LogicOp) (l r : Expr α) :
    (Expr.binary (.logic op) l r).operands op = l.operands op ++ r.operands op := by
  rw [operands, chain_binary, List.filter_append, operands, operands]

@[simp] theorem operands_neutral (op : LogicOp) :
    (Expr.bool op.neutral : Expr α).operands op = [] := by
  cases op <;> rfl

/-- The operands of the whole are those of the parts, one after the other. -/
theorem Joined.operands_eq (h : Joined op l r e) :
    e.operands op = l.operands op ++ r.operands op := by
  induction h with
  | right r => rw [operands_neutral, List.nil_append]
  | left l => rw [operands_neutral, List.append_nil]
  | apart _ _ first second => rw [second, first, operands_binary, List.append_assoc]
  | beside l => exact operands_binary op l _

/-- Joining operators that lean to the left gives one that does. -/
theorem Joined.leansLeft (h : Joined op l r e) (hl : l.LeansLeft op) (hr : r.LeansLeft op) :
    e.LeansLeft op := by
  induction h with
  | right r => exact hr
  | left l => exact hl
  | apart _ _ first second =>
      obtain ⟨left, right, _⟩ := hr rfl
      exact second (first hl left) right
  | beside l single => exact fun _ => ⟨hl, hr, single⟩

theorem operands_foldl_and (l : Expr α) (items : List (Expr α)) :
    (items.foldl Expr.and l).operands .and =
      l.operands .and ++ items.flatMap (·.operands .and) := by
  induction items generalizing l with
  | nil => simp
  | cons item rest ih =>
      rw [List.foldl_cons, ih, (joined_and l item).operands_eq, List.flatMap_cons,
        List.append_assoc]

theorem operands_andAll (items : List (Expr α)) :
    (andAll items).operands .and = items.flatMap (·.operands .and) := by
  rw [andAll, operands_foldl_and]
  rfl

/-- What is taken from a chain is not taken apart any further. -/
theorem flatMap_operands (taken : ∀ item ∈ items, item ∈ e.chain op) :
    items.flatMap (·.operands op) = items.filter fun item => !item.isNeutral op := by
  induction items with
  | nil => rfl
  | cons item rest ih =>
      obtain ⟨first, others⟩ := List.forall_mem_cons.mp taken
      rw [List.flatMap_cons, ih others, operands, chain_of_mem_chain first, ← List.filter_append]
      rfl

/-- Without the conjuncts in which a name occurs, the others are left, in their order. -/
theorem operands_withoutConjunctsMentioning (e : Expr α) (name : String) :
    (e.withoutConjunctsMentioning name).operands .and =
      (e.operands .and).filter fun item => !item.mentions name := by
  have taken : ∀ item ∈ e.conjuncts.filter fun item => !item.mentions name,
      item ∈ e.chain .and := fun item mem => List.mem_of_mem_filter mem
  rw [withoutConjunctsMentioning, operands_andAll, flatMap_operands taken, operands,
    List.filter_filter, List.filter_filter]
  simp only [Bool.and_comm]

theorem mentions_withoutConjunctsMentioning (e : Expr α) (name : String) :
    (e.withoutConjunctsMentioning name).mentions name = false := by
  rw [← Bool.not_eq_true, mentions_iff]
  intro occurs
  exact (mem_names_of_withoutConjunctsMentioning occurs).2 rfl

/-! ## Conjuncts and disjuncts -/

theorem isNeutral_and (e : Expr α) : e.isNeutral .and = e.isTrue := by
  cases e with
  | bool value => cases value <;> rfl
  | _ => rfl

theorem isNeutral_or (e : Expr α) : e.isNeutral .or = e.isFalse := by
  cases e with
  | bool value => cases value <;> rfl
  | _ => rfl

theorem operands_and (e : Expr α) : e.operands .and = e.conjuncts.filter (!·.isTrue) := by
  simp only [operands, isNeutral_and]

theorem operands_or (e : Expr α) : e.operands .or = e.disjuncts.filter (!·.isFalse) := by
  simp only [operands, isNeutral_or]

end

variable {α : Type} [Scalar α]

/-- Joining two conditions keeps their operands and the order in which these are asked, and does not
nest to the right what did not before; dropping the conjuncts in which a name occurs keeps all others
in their order, and whatever held still holds. -/
theorem connectives_keep_operands (l r : Expr α) (name : String) :
    ((l.and r).conjuncts.filter (!·.isTrue) =
          l.conjuncts.filter (!·.isTrue) ++ r.conjuncts.filter (!·.isTrue) ∧
        (∀ env, (l.and r).holds env =
          (do if ← l.holds env then r.holds env else return false)) ∧
        (l.LeansLeft .and → r.LeansLeft .and → (l.and r).LeansLeft .and)) ∧
      ((l.or r).disjuncts.filter (!·.isFalse) =
          l.disjuncts.filter (!·.isFalse) ++ r.disjuncts.filter (!·.isFalse) ∧
        (∀ env, (l.or r).holds env =
          (do if ← l.holds env then return true else r.holds env)) ∧
        (l.LeansLeft .or → r.LeansLeft .or → (l.or r).LeansLeft .or)) ∧
      (l.withoutConjunctsMentioning name).mentions name = false ∧
      (l.withoutConjunctsMentioning name).conjuncts.filter (!·.isTrue) =
        (l.conjuncts.filter (!·.isTrue)).filter (!·.mentions name) ∧
      ∀ env, l.holds env = .ok true →
        (l.withoutConjunctsMentioning name).holds env = .ok true := by
  simp only [← operands_and, ← operands_or]
  refine ⟨⟨(joined_and l r).operands_eq, fun env => ?_, (joined_and l r).leansLeft⟩,
    ⟨(joined_or l r).operands_eq, fun env => ?_, (joined_or l r).leansLeft⟩,
    mentions_withoutConjunctsMentioning l name, operands_withoutConjunctsMentioning l name,
    fun env => holds_withoutConjunctsMentioning env name⟩
  · rw [holds_and, holds]
  · rw [holds_or, holds]

/-- The condition `t <= 5 && clock <= 1`. -/
def timely : Expr Float :=
  .binary (.logic .and) (.le (.var "t") (.num 5)) (.le (.var "clock") (.num 1))

/-- The condition `true && x >= 0 && clock < t`. -/
def ahead : Expr Float :=
  .binary (.logic .and) (.binary (.logic .and) (.bool true) (.ge (.var "x") (.num 0)))
    (.lt (.var "clock") (.var "t"))

/-- The clock stands at one, and the time at two. -/
def halfway : String → Option Float
  | "t" => some 2
  | "clock" => some 1
  | _ => some 0

/-- Joined, they have four operands, still lean to the left and hold halfway; two operands mention
the clock, and without these the others hold. -/
theorem connectives_keep_operands_timely :
    (timely.LeansLeft .and ∧ ahead.LeansLeft .and ∧ (timely.and ahead).LeansLeft .and) ∧
      (timely.and ahead).conjuncts.filter (!·.isTrue) =
        [.le (.var "t") (.num 5), .le (.var "clock") (.num 1), .ge (.var "x") (.num 0),
          .lt (.var "clock") (.var "t")] ∧
      ((timely.and ahead).withoutConjunctsMentioning "clock").conjuncts.filter (!·.isTrue) =
        [.le (.var "t") (.num 5), .ge (.var "x") (.num 0)] ∧
      (timely.and ahead).holds halfway = .ok true ∧
      ((timely.and ahead).withoutConjunctsMentioning "clock").holds halfway = .ok true := by
  have left : timely.LeansLeft .and := fun _ => ⟨trivial, trivial, by rintro _ _ ⟨⟩⟩
  have right : ahead.LeansLeft .and :=
    fun _ => ⟨fun _ => ⟨trivial, trivial, by rintro _ _ ⟨⟩⟩, trivial, by rintro _ _ ⟨⟩⟩
  have truth : (timely.and ahead).holds halfway = .ok true :=
    Success.toOption_eq_some_iff.mp (by decide +kernel)
  obtain ⟨⟨joined, _, leans⟩, _⟩ := connectives_keep_operands timely ahead "clock"
  obtain ⟨_, _, _, kept, holds⟩ := connectives_keep_operands (timely.and ahead) timely "clock"
  rw [joined] at kept ⊢
  exact ⟨⟨left, right, leans left right⟩, rfl, kept, truth, holds halfway truth⟩

end Expr

end HybridAutomata
