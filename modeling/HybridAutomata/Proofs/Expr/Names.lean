import Mathlib.Logic.Basic
import HybridAutomata.Expr.Basic

/-!
# The names in a formula

A formula lists its names in ascending order and without repetitions; which names it has can be read
off the order of their occurrences just as well. Renaming a formula renames its names, and renaming
twice is renaming by the composition.
-/

namespace HybridAutomata

namespace Expr

variable {α : Type}

theorem mem_insertAscending {name other : String} {names : List String} :
    other ∈ insertAscending name names ↔ other = name ∨ other ∈ names := by
  induction names with
  | nil => simp [insertAscending]
  | cons first rest ih =>
      simp only [insertAscending]
      split
      · exact List.mem_cons
      · split
        · next same => simp [same]
        · rw [List.mem_cons, List.mem_cons, ih, or_left_comm]

/-- The names of a formula, however they are listed. -/
theorem mem_vars {e : Expr α} {name : String} : name ∈ e.vars ↔ name ∈ e.names := by
  have inserted (names acc : List String) :
      name ∈ names.foldl (fun acc name => insertAscending name acc) acc ↔
        name ∈ acc ∨ name ∈ names := by
    induction names generalizing acc with
    | nil => simp
    | cons first rest ih =>
        rw [List.foldl_cons, ih, mem_insertAscending, List.mem_cons, or_assoc, or_left_comm]
  rw [vars, inserted]
  simp

/-- A formula that lists no variables mentions no names. -/
theorem names_eq_nil_of_vars {e : Expr α} (h : e.vars = []) : e.names = [] := by
  refine List.eq_nil_iff_forall_not_mem.mpr fun name mem => ?_
  rw [← mem_vars, h] at mem
  exact List.not_mem_nil mem

/-! ## Conjunctions and disjunctions -/

theorem mem_names_and {l r : Expr α} {name : String} :
    name ∈ (l.and r).names ↔ name ∈ l.names ∨ name ∈ r.names := by
  fun_induction Expr.and l r with
  | case1 | case3 | case4 | case5 => simp [names]
  | case2 l r₁ r₂ _ front whole => simp [names, whole, front, or_assoc]

theorem names_and {l r : Expr α} {ns : List String} (hl : l.names ⊆ ns) (hr : r.names ⊆ ns) :
    (l.and r).names ⊆ ns :=
  fun _ mem => (mem_names_and.mp mem).elim (hl ·) (hr ·)

theorem names_or {l r : Expr α} {ns : List String} (hl : l.names ⊆ ns) (hr : r.names ⊆ ns) :
    (l.or r).names ⊆ ns := by
  fun_induction Expr.or l r with
  | case1 => exact hr
  | case2 l r₁ r₂ _ front whole =>
      obtain ⟨first, second⟩ := List.append_subset.mp hr
      exact whole (front hl first) second
  | case3 => exact hl
  | case4 => exact hr
  | case5 => exact List.append_subset.mpr ⟨hl, hr⟩

theorem names_andAll {items : List (Expr α)} {ns : List String}
    (h : ∀ item ∈ items, item.names ⊆ ns) : (andAll items).names ⊆ ns := by
  have folded (l : Expr α) (hl : l.names ⊆ ns) : (items.foldl Expr.and l).names ⊆ ns := by
    induction items generalizing l with
    | nil => exact hl
    | cons first rest ih =>
        obtain ⟨hfirst, hrest⟩ := List.forall_mem_cons.mp h
        exact ih hrest (l.and first) (names_and hl hfirst)
  exact folded (.bool true) (List.nil_subset ns)

theorem names_orAll {items : List (Expr α)} {ns : List String}
    (h : ∀ item ∈ items, item.names ⊆ ns) : (orAll items).names ⊆ ns := by
  have folded (l : Expr α) (hl : l.names ⊆ ns) : (items.foldl Expr.or l).names ⊆ ns := by
    induction items generalizing l with
    | nil => exact hl
    | cons first rest ih =>
        obtain ⟨hfirst, hrest⟩ := List.forall_mem_cons.mp h
        exact ih hrest (l.or first) (names_or hl hfirst)
  exact folded (.bool false) (List.nil_subset ns)

theorem names_of_mem_chain {op : LogicOp} {e item : Expr α} (h : item ∈ e.chain op) :
    item.names ⊆ e.names := by
  fun_induction chain op e with
  | case1 l r left right =>
      obtain h | h := List.mem_append.mp h
      · exact List.Subset.trans (left h) (List.subset_append_left _ _)
      · exact List.Subset.trans (right h) (List.subset_append_right _ _)
  | case2 => exact List.mem_singleton.mp h ▸ List.Subset.refl _
  | case3 => exact List.mem_singleton.mp h ▸ List.Subset.refl _

/-- Without the conjuncts in which a name occurs, the name does not occur, and no other one has come
in. -/
theorem mem_names_of_withoutConjunctsMentioning {e : Expr α} {dropped name : String}
    (h : name ∈ (e.withoutConjunctsMentioning dropped).names) :
    name ∈ e.names ∧ name ≠ dropped := by
  have kept : (e.withoutConjunctsMentioning dropped).names ⊆ e.names.filter (· != dropped) := by
    refine names_andAll fun item mem other occurs => ?_
    obtain ⟨conjunct, free⟩ := List.mem_filter.mp mem
    refine List.mem_filter.mpr ⟨names_of_mem_chain conjunct occurs, ?_⟩
    rw [bne_iff_ne]
    rintro rfl
    rw [(mentions_iff other item).mpr occurs] at free
    cases free
  obtain ⟨occurs, ne⟩ := List.mem_filter.mp (kept h)
  exact ⟨occurs, bne_iff_ne.mp ne⟩

/-! ## Renaming -/

section

variable (f g : String → String)

mutual

@[simp] theorem names_rename : ∀ e : Expr α, (e.rename f).names = e.names.map f
  | .num _ | .bool _ | .var _ => rfl
  | .unary _ e => names_rename e
  | .binary _ l r => by
      have left := names_rename l
      have right := names_rename r
      rw [rename] at left right ⊢
      rw [substituteWith, names, names, left, right, List.map_append]
  | .call _ args => argNames_rename args

theorem argNames_rename : ∀ es : List (Expr α),
    argNames (substituteArgs (fun name => some (.var (f name))) es) = (argNames es).map f
  | [] => rfl
  | e :: es => by
      have first := names_rename e
      rw [rename] at first
      rw [substituteArgs, argNames, argNames, first, argNames_rename es, List.map_append]

end

mutual

@[simp] theorem rename_rename : ∀ e : Expr α, (e.rename f).rename g = e.rename (g ∘ f)
  | .num _ | .bool _ | .var _ => rfl
  | .unary op e => congrArg (unary op) (rename_rename e)
  | .binary op l r => congrArg₂ (binary op) (rename_rename l) (rename_rename r)
  | .call name args => congrArg (call name) (renameArgs_renameArgs args)

theorem renameArgs_renameArgs : ∀ es : List (Expr α),
    substituteArgs (fun name => some (.var (g name)))
        (substituteArgs (fun name => some (.var (f name))) es) =
      substituteArgs (fun name => some (.var ((g ∘ f) name))) es
  | [] => rfl
  | e :: es => congrArg₂ List.cons (rename_rename e) (renameArgs_renameArgs es)

end

mutual

@[simp] theorem rename_id : ∀ e : Expr α, e.rename id = e
  | .num _ | .bool _ | .var _ => rfl
  | .unary op e => congrArg (unary op) (rename_id e)
  | .binary op l r => congrArg₂ (binary op) (rename_id l) (rename_id r)
  | .call name args => congrArg (call name) (renameArgs_id args)

theorem renameArgs_id : ∀ es : List (Expr α),
    substituteArgs (fun name => some (.var (id name))) es = es
  | [] => rfl
  | e :: es => congrArg₂ List.cons (rename_id e) (renameArgs_id es)

end

end

end Expr

end HybridAutomata
