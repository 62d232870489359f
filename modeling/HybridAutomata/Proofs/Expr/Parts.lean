import HybridAutomata.Expr.Basic

/-!
# Parts of formulas

What is asked of everything in a formula is asked of its parts.
-/

namespace HybridAutomata

namespace Expr

variable {α : Type}

/-- The formulas that a formula is made of, itself among them. -/
inductive Part : Expr α → Expr α → Prop
  | whole (e : Expr α) : Part e e
  | operand {s e op} (inside : Part s e) : Part s (.unary op e)
  | left {s l r op} (inside : Part s l) : Part s (.binary op l r)
  | right {s l r op} (inside : Part s r) : Part s (.binary op l r)
  | argument {s e name args} (mem : e ∈ args) (inside : Part s e) : Part s (.call name args)

theorem Part.trans {s o e : Expr α} (inner : Part s o) (outer : Part o e) : Part s e := by
  induction outer with
  | whole => exact inner
  | operand _ ih => exact .operand ih
  | left _ ih => exact .left ih
  | right _ ih => exact .right ih
  | argument mem _ ih => exact .argument mem ih

/-! ## The parts of a formula by its root -/

section

variable {s e l r : Expr α} {value : α} {b : Bool} {name : String} {args : List (Expr α)}

@[simp] theorem part_num : Part s (.num value) ↔ s = .num value :=
  ⟨fun h => by cases h; rfl, fun h => h ▸ .whole _⟩

@[simp] theorem part_bool : Part s (.bool b) ↔ s = .bool b :=
  ⟨fun h => by cases h; rfl, fun h => h ▸ .whole _⟩

@[simp] theorem part_var : Part s (.var name) ↔ s = .var name :=
  ⟨fun h => by cases h; rfl, fun h => h ▸ .whole _⟩

@[simp] theorem part_unary {op : UnaryOp} :
    Part s (.unary op e) ↔ s = .unary op e ∨ Part s e := by
  constructor
  · rintro (_ | inside)
    · exact .inl rfl
    · exact .inr inside
  · rintro (rfl | inside)
    · exact .whole _
    · exact .operand inside

@[simp] theorem part_binary {op : BinaryOp} :
    Part s (.binary op l r) ↔ s = .binary op l r ∨ Part s l ∨ Part s r := by
  constructor
  · rintro (_ | _ | inside | inside)
    · exact .inl rfl
    · exact .inr (.inl inside)
    · exact .inr (.inr inside)
  · rintro (rfl | inside | inside)
    · exact .whole _
    · exact .left inside
    · exact .right inside

@[simp] theorem part_call :
    Part s (.call name args) ↔ s = .call name args ∨ ∃ e ∈ args, Part s e := by
  constructor
  · rintro (_ | _ | _ | _ | ⟨mem, inside⟩)
    · exact .inl rfl
    · exact .inr ⟨_, mem, inside⟩
  · rintro (rfl | ⟨e, mem, inside⟩)
    · exact .whole _
    · exact .argument mem inside

end

/-- The literals of a formula are finite. -/
def FiniteLiterals [Scalar α] (e : Expr α) : Prop :=
  ∀ c, Part (.num c) e → Scalar.isFinite c = true

end Expr

end HybridAutomata
