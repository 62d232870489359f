import HybridAutomata.Proofs.Expr.Chains
import HybridAutomata.Proofs.Expr.Parts
import HybridAutomata.Proofs.Expr.SimplifiedNames

/-!
# The literals of a simplified formula

A fold whose result is not finite is not made, with one exception: a literal in front of a product is
multiplied into the coefficient of the product, whatever comes out. So the literals of a simplified
formula are finite except where such a coefficient is out of range.

One induction shows what is known of the coefficients, given what is known of the products of two of
them: that they are finite, if these are, or only that they are numbers.
-/

namespace HybridAutomata

open Scalar

/-- Zero, one and the opposites of finite numbers are finite. -/
class FiniteLaws (α : Type) [Scalar α] : Prop where
  zero : isFinite (0 : α) = true
  one : isFinite (1 : α) = true
  neg {a : α} : isFinite a = true → isFinite (-a) = true

namespace Expr

/-! ## Finite literals -/

section

variable {α : Type} [Scalar α] {C : α → Prop} {e l r f : Expr α} {a c : α} {name : String}
  {args : List (Expr α)}

/-- The literals are finite, except that of the coefficient of a product only `C` is known. -/
inductive FiniteExcept (C : α → Prop) : Expr α → Prop
  | num {c : α} (finite : isFinite c = true) : FiniteExcept C (.num c)
  | bool (value : Bool) : FiniteExcept C (.bool value)
  | var (name : String) : FiniteExcept C (.var name)
  | unary {e : Expr α} (op : UnaryOp) (operand : FiniteExcept C e) : FiniteExcept C (.unary op e)
  | scaled {a : α} {f : Expr α} (coefficient : C a) (factor : FiniteExcept C f) :
      FiniteExcept C (mul (.num a) f)
  | binary {l r : Expr α} (op : BinaryOp) (left : FiniteExcept C l) (right : FiniteExcept C r) :
      FiniteExcept C (.binary op l r)
  | call {args : List (Expr α)} (name : String) (members : ∀ e ∈ args, FiniteExcept C e) :
      FiniteExcept C (.call name args)

/-- What is known of coefficients is known of finite numbers, and with a number of its opposite. -/
structure KnownOfCoefficients (C : α → Prop) : Prop where
  finite {a : α} : isFinite a = true → C a
  neg {a : α} : C a → C (-a)

namespace FiniteExcept

theorem isFinite_of_num (h : FiniteExcept C (.num c)) : isFinite c = true := by
  cases h
  assumption

theorem operand {op : UnaryOp} (h : FiniteExcept C (.unary op e)) : FiniteExcept C e := by
  cases h
  assumption

theorem factor (h : FiniteExcept C (mul (.num a) f)) : FiniteExcept C f := by
  cases h <;> assumption

theorem coefficient (known : KnownOfCoefficients C) (h : FiniteExcept C (mul (.num a) f)) :
    C a := by
  cases h with
  | scaled coefficient => exact coefficient
  | binary _ left => exact known.finite left.isFinite_of_num

/-- Only the operands of products are special. -/
theorem operands {op : BinaryOp} (other : op ≠ .arith .mul)
    (h : FiniteExcept C (.binary op l r)) : FiniteExcept C l ∧ FiniteExcept C r := by
  cases h with
  | scaled => exact absurd rfl other
  | binary _ left right => exact ⟨left, right⟩

/-- If coefficients are finite, all literals are. -/
theorem finiteLiterals (h : FiniteExcept (isFinite · = true) e) : e.FiniteLiterals := by
  intro c inside
  induction h with
  | num finite =>
      cases part_num.mp inside
      exact finite
  | bool => cases part_bool.mp inside
  | var => cases part_var.mp inside
  | unary op _ ih =>
      obtain ⟨⟨⟩⟩ | inside := part_unary.mp inside
      exact ih inside
  | scaled coefficient _ ih =>
      obtain ⟨⟨⟩⟩ | inside | inside := part_binary.mp inside
      · cases part_num.mp inside
        exact coefficient
      · exact ih inside
  | binary op _ _ left right =>
      obtain ⟨⟨⟩⟩ | inside | inside := part_binary.mp inside
      · exact left inside
      · exact right inside
  | call name _ ih =>
      obtain ⟨⟨⟩⟩ | ⟨e, mem, inside⟩ := part_call.mp inside
      exact ih e mem inside

end FiniteExcept

end

/-! ## Conditions -/

section

variable {α : Type} [Scalar α] {C : α → Prop} {e l r : Expr α}

theorem finiteExcept_simplifyNot (h : FiniteExcept C e) : FiniteExcept C (simplifyNot e) := by
  unfold simplifyNot
  split
  · exact .bool _
  · exact h.operand
  · obtain ⟨left, right⟩ := h.operands BinaryOp.noConfusion
    exact .binary _ left right
  · exact .unary _ h

theorem Joined.finiteExcept {op : LogicOp} (joined : Joined op l r e) (hl : FiniteExcept C l)
    (hr : FiniteExcept C r) : FiniteExcept C e := by
  induction joined with
  | right r => exact hr
  | left l => exact hl
  | apart _ _ first second =>
      obtain ⟨left, right⟩ := hr.operands BinaryOp.noConfusion
      exact second (first hl left) right
  | beside l single => exact .binary _ hl hr

theorem finiteExcept_simplifyAnd (hl : FiniteExcept C l) (hr : FiniteExcept C r) :
    FiniteExcept C (simplifyAnd l r) := by
  unfold simplifyAnd
  split
  · exact .bool false
  · exact (joined_and l r).finiteExcept hl hr

theorem finiteExcept_simplifyOr (hl : FiniteExcept C l) (hr : FiniteExcept C r) :
    FiniteExcept C (simplifyOr l r) := by
  unfold simplifyOr
  split
  · exact .bool true
  · exact (joined_or l r).finiteExcept hl hr

end

/-! ## Numbers -/

variable {α : Type} [Scalar α] {C : α → Prop} {e l r f : Expr α} {a b c : α}

/-- A factor that is neither zero nor a unit. These are treated before all others. -/
def Scales (e : Expr α) : Prop := e.isNum 0 = false ∧ e.isNum 1 = false ∧ e.isNum (-1) = false

instance : Decidable e.Scales := inferInstanceAs (Decidable (_ ∧ _))

/-- Two factors of which simplification multiplies the first, a literal, into the coefficient of the
second. -/
structure Merges (l r : Expr α) (a b : α) : Prop where
  literal : l = .num a
  product : ∃ f, r = mul (.num b) f
  scales : l.Scales

theorem Merges.beq_zero (h : Merges l r a b) : (a == 0) = false := by
  have other := h.scales.1
  rw [h.literal] at other
  simpa [isNum, numWhere, num?] using other

/-- No coefficient that simplification multiplies out is out of range. -/
def CoefficientsFit (e : Expr α) : Prop :=
  ∀ l r, Part (mul l r) e → ∀ a b, Merges l.simplify r.simplify a b → isFinite (a * b) = true

theorem simplifyMul_merged (scales : (num a).Scales) :
    simplifyMul (num a) (mul (num b) f) = mul (num (a * b)) f := by
  obtain ⟨zero, one, minusOne⟩ := scales
  have noLiteral (value : α) : (mul (num b) f).isNum value = false := rfl
  simp [simplifyMul, zero, one, minusOne, noLiteral]

theorem simplify_mul_var (scales : (num a).Scales) (name : String) :
    (mul (num a) (var name)).simplify = mul (num a) (var name) := by
  obtain ⟨zero, one, minusOne⟩ := scales
  have noLiteral (value : α) : (var name : Expr α).isNum value = false := rfl
  simp [simplify, simplifyBinary, simplifyArith, simplifyMul, zero, one, minusOne, noLiteral]

theorem simplify_mul_of_merges (h : Merges l.simplify r.simplify a b) :
    ∃ f, (mul l r).simplify = mul (num (a * b)) f := by
  obtain ⟨literal, ⟨f, product⟩, scales⟩ := h
  rw [literal] at scales
  refine ⟨f, ?_⟩
  rw [mul, simplify, literal, product]
  exact simplifyMul_merged scales

section

variable [FiniteLaws α] (known : KnownOfCoefficients C)

theorem FiniteExcept.zero : FiniteExcept C (.num 0) := .num FiniteLaws.zero

theorem FiniteExcept.one : FiniteExcept C (.num 1) := .num FiniteLaws.one

include known

omit [FiniteLaws α] in
theorem FiniteExcept.negated {c : α} (h : FiniteExcept C (mul (.num c) f)) :
    FiniteExcept C (mul (.num (-c)) f) :=
  .scaled (known.neg (h.coefficient known)) h.factor

theorem finiteExcept_simplifyNeg (h : FiniteExcept C e) : FiniteExcept C (simplifyNeg e) := by
  unfold simplifyNeg
  split
  · exact .num (FiniteLaws.neg h.isFinite_of_num)
  · exact h.operand
  · exact h.negated known
  · exact .unary .neg h

omit [FiniteLaws α] in
theorem finiteExcept_of_negativeProduct? (found : e.negativeProduct? = some (c, f))
    (h : FiniteExcept C e) : FiniteExcept C (mul (.num c) f) := by
  unfold negativeProduct? at found
  split at found
  · split at found
    · cases found
      exact h.negated known
    · cases found
  · cases found

theorem finiteExcept_simplifyAdd (hl : FiniteExcept C l) (hr : FiniteExcept C r) :
    FiniteExcept C (simplifyAdd l r) := by
  unfold simplifyAdd
  split
  · exact hr
  split
  · exact hl
  split
  · split
    · exact .binary _ hl (.num (FiniteLaws.neg hr.isFinite_of_num))
    · exact .binary _ hl hr
  · exact .binary _ hl hr.operand
  · split
    · next found => exact .binary _ hl (finiteExcept_of_negativeProduct? known found hr)
    · exact .binary _ hl hr

theorem finiteExcept_simplifySub (hl : FiniteExcept C l) (hr : FiniteExcept C r) :
    FiniteExcept C (simplifySub l r) := by
  unfold simplifySub
  split
  · exact hl
  split
  · exact finiteExcept_simplifyNeg known hr
  split
  · split
    · exact .binary _ hl (.num (FiniteLaws.neg hr.isFinite_of_num))
    · exact .binary _ hl hr
  · exact .binary _ hl hr.operand
  · split
    · next found => exact .binary _ hl (finiteExcept_of_negativeProduct? known found hr)
    · exact .binary _ hl hr

/-- The only step that multiplies without a look at the result. -/
theorem finiteExcept_simplifyMul (hl : FiniteExcept C l) (hr : FiniteExcept C r)
    (fits : ∀ a b, Merges l r a b → isFinite a = true → C b → C (a * b)) :
    FiniteExcept C (simplifyMul l r) := by
  unfold simplifyMul
  split
  · exact .zero
  next zero =>
  split
  · exact hr
  next one =>
  split
  · exact hl
  split
  · exact finiteExcept_simplifyNeg known hr
  next minusOne =>
  split
  · exact finiteExcept_simplifyNeg known hl
  have scales : l.Scales :=
    ⟨(Bool.or_eq_false_iff.mp (Bool.eq_false_iff.mpr zero)).1,
      Bool.eq_false_iff.mpr one, Bool.eq_false_iff.mpr minusOne⟩
  split
  · have coefficient := hr.coefficient known
    exact .scaled (fits _ _ ⟨rfl, ⟨_, rfl⟩, scales⟩ hl.isFinite_of_num coefficient) hr.factor
  · exact .scaled (known.finite hr.isFinite_of_num) hl
  · exact .binary _ hl.operand hr.operand
  · exact .binary _ hl hr

omit known in
theorem finiteExcept_simplifyDiv (hl : FiniteExcept C l) (hr : FiniteExcept C r) :
    FiniteExcept C (simplifyDiv l r) := by
  unfold simplifyDiv
  split
  · exact hl
  split
  · exact .zero
  · exact .binary _ hl hr

omit known in
theorem finiteExcept_simplifyPow (hl : FiniteExcept C l) (hr : FiniteExcept C r) :
    FiniteExcept C (simplifyPow l r) := by
  unfold simplifyPow
  split
  · exact .one
  split
  · exact hl
  · exact .binary _ hl hr

theorem finiteExcept_simplifyArith {op : ArithOp} (hl : FiniteExcept C l) (hr : FiniteExcept C r)
    (fits : op = .mul → ∀ a b, Merges l r a b → isFinite a = true → C b → C (a * b)) :
    FiniteExcept C (simplifyArith op l r) := by
  cases op with
  | add => exact finiteExcept_simplifyAdd known hl hr
  | sub => exact finiteExcept_simplifySub known hl hr
  | mul => exact finiteExcept_simplifyMul known hl hr (fits rfl)
  | div => exact finiteExcept_simplifyDiv hl hr
  | pow => exact finiteExcept_simplifyPow hl hr

theorem finiteExcept_simplifyUnary (op : UnaryOp) (h : FiniteExcept C e) :
    FiniteExcept C (simplifyUnary op e) := by
  cases op with
  | neg => exact finiteExcept_simplifyNeg known h
  | not => exact finiteExcept_simplifyNot h

theorem finiteExcept_simplifyBinary {op : BinaryOp} (hl : FiniteExcept C l)
    (hr : FiniteExcept C r)
    (fits : op = .arith .mul →
      ∀ a b, Merges l r a b → isFinite a = true → C b → C (a * b)) :
    FiniteExcept C (simplifyBinary op l r) := by
  match op with
  | .arith op =>
      have product : FiniteExcept C (simplifyArith op l r) :=
        finiteExcept_simplifyArith known hl hr fun same => fits (congrArg _ same)
      simp only [simplifyBinary]
      split
      · next c d =>
          cases folded : foldArith op c d with
          | none => exact product
          | some e =>
              obtain ⟨rfl, finite⟩ := eq_of_foldArith folded
              exact .num finite
      · exact product
  | .compare op =>
      simp only [simplifyBinary]
      split
      · exact .bool _
      · exact .binary _ hl hr
  | .logic .and => exact finiteExcept_simplifyAnd hl hr
  | .logic .or => exact finiteExcept_simplifyOr hl hr

omit [FiniteLaws α] known in
theorem finiteExcept_simplifyCall {name : String} {args : List (Expr α)}
    (h : ∀ e ∈ args, FiniteExcept C e) : FiniteExcept C (simplifyCall name args) := by
  unfold simplifyCall
  split
  · split
    · next finite => exact .num finite
    · exact .call name h
  · exact .call name h

end

/-! ## Whole formulas -/

mutual

/-- The literals of a simplified formula are finite, and what is known of its coefficients is what is
known of the products of coefficients that simplification forms. -/
theorem finiteExcept_simplify [FiniteLaws α] (known : KnownOfCoefficients C) :
    ∀ e : Expr α, e.FiniteLiterals →
    (∀ l r, Part (mul l r) e →
      ∀ a b, Merges l.simplify r.simplify a b → isFinite a = true → C b → C (a * b)) →
    FiniteExcept C e.simplify
  | .num c, h, _ => .num (h c (.whole _))
  | .bool value, _, _ => .bool value
  | .var name, _, _ => .var name
  | .unary op e, h, fits =>
      finiteExcept_simplifyUnary known op
        (finiteExcept_simplify known e (fun c inside => h c (.operand inside))
          fun l r inside => fits l r (.operand inside))
  | .binary op l r, h, fits => by
      have left := finiteExcept_simplify known l (fun c inside => h c (.left inside))
        fun l r inside => fits l r (.left inside)
      have right := finiteExcept_simplify known r (fun c inside => h c (.right inside))
        fun l r inside => fits l r (.right inside)
      refine finiteExcept_simplifyBinary known left right ?_
      -- Only at a product is something asked of coefficients, and it is a part of itself.
      rintro rfl
      exact fits l r (.whole _)
  | .call name args, h, fits =>
      finiteExcept_simplifyCall (finiteExcept_simplifyArgs known args
        (fun e mem c inside => h c (.argument mem inside))
        fun e mem l r inside => fits l r (.argument mem inside))

theorem finiteExcept_simplifyArgs [FiniteLaws α] (known : KnownOfCoefficients C) :
    ∀ es : List (Expr α), (∀ e ∈ es, e.FiniteLiterals) →
    (∀ e ∈ es, ∀ l r, Part (mul l r) e →
      ∀ a b, Merges l.simplify r.simplify a b → isFinite a = true → C b → C (a * b)) →
    ∀ e ∈ simplifyArgs es, FiniteExcept C e
  | [], _, _ => List.forall_mem_nil _
  | e :: es, h, fits => by
      obtain ⟨finite, others⟩ := List.forall_mem_cons.mp h
      obtain ⟨fit, fits⟩ := List.forall_mem_cons.mp fits
      exact List.forall_mem_cons.mpr
        ⟨finiteExcept_simplify known e finite fit, finiteExcept_simplifyArgs known es others fits⟩

end

variable [FiniteLaws α]

/-- If all coefficients are in range, the literals of the simplified formula are finite. -/
theorem FiniteLiterals.simplify (h : e.FiniteLiterals) (fit : e.CoefficientsFit) :
    e.simplify.FiniteLiterals :=
  (finiteExcept_simplify ⟨id, FiniteLaws.neg⟩ e h
    fun l r inside a b merges _ _ => fit l r inside a b merges).finiteLiterals

/-- They are all in range if no part of the formula is simplified to one with a literal that is not
finite. -/
theorem coefficientsFit_iff (h : e.FiniteLiterals) :
    e.CoefficientsFit ↔ ∀ s, Part s e → s.simplify.FiniteLiterals := by
  constructor
  · intro fit s inside
    refine FiniteLiterals.simplify (fun c part => h c (part.trans inside)) ?_
    exact fun l r part => fit l r (part.trans inside)
  · intro finite l r inside a b merges
    obtain ⟨f, product⟩ := simplify_mul_of_merges merges
    have all := finite _ inside
    rw [product] at all
    exact all (a * b) (.left (.whole _))

end Expr

end HybridAutomata
