import Mathlib.Algebra.BigOperators.Group.List.Basic
import Mathlib.Algebra.Ring.Nat
import Mathlib.Data.List.Nodup
import HybridAutomata.Transform.Flatten

/-!
# Names joined by points

Flattening makes names by joining names with points: a name of an instance is put in front of a name
inside it, and a product mode is called after the modes it is made of. Names are arbitrary, so a
joined name need not tell what it was joined from. It does if the parts contain no points, or if it
is known how many points they contain. For the same reason the renaming of a child is injective if
its network uses names without points and no two names of the child are linked to one of them.
-/

namespace HybridAutomata

/-! ## Joining -/

/-- How many points a name contains. -/
def points (name : String) : Nat := name.toList.count '.'

/-- A name without points. -/
def IsSimple (name : String) : Prop := '.' ∉ name.toList

instance (name : String) : Decidable (IsSimple name) :=
  inferInstanceAs (Decidable ('.' ∉ name.toList))

theorem points_eq_zero_iff {name : String} : points name = 0 ↔ IsSimple name := List.count_eq_zero

theorem points_join (l r : String) : points (l ++ "." ++ r) = points l + 1 + points r := by
  simp only [points, String.toList_append, List.count_append]
  rfl

/-- What stands before and behind a point that is known by its number is determined. -/
private theorem append_cons_inj {l l' r r' : List Char} (same : l.count '.' = l'.count '.')
    (eq : l ++ '.' :: r = l' ++ '.' :: r') : l = l' ∧ r = r' := by
  have none {l c r r' : List Char} (same : l.count '.' = (l ++ c).count '.')
      (eq : '.' :: r = c ++ '.' :: r') : c = [] := by
    obtain _ | ⟨first, c⟩ := c
    · rfl
    · obtain ⟨rfl, _⟩ := List.cons.inj eq
      rw [List.count_append, List.count_cons_self] at same
      omega
  obtain ⟨c, rfl, hc⟩ | ⟨c, rfl, hc⟩ := List.append_eq_append_iff.mp eq
  · obtain rfl := none same hc
    exact ⟨(List.append_nil l).symm, (List.cons.inj hc).2⟩
  · obtain rfl := none same.symm hc
    exact ⟨List.append_nil l', (List.cons.inj hc).2.symm⟩

theorem join_inj {l l' r r' : String} (same : points l = points l')
    (eq : l ++ "." ++ r = l' ++ "." ++ r') : l = l' ∧ r = r' := by
  have lists := congrArg String.toList eq
  simp only [String.toList_append, List.append_assoc] at lists
  obtain ⟨before, behind⟩ := append_cons_inj same lists
  exact ⟨String.toList_inj.mp before, String.toList_inj.mp behind⟩

/-- The joined names are determined if it is known how many there are, and how many points are in
each of them. -/
theorem intercalate_inj {names names' : List String} (same : names.map points = names'.map points)
    (eq : ".".intercalate names = ".".intercalate names') : names = names' := by
  induction names generalizing names' with
  | nil =>
      rw [List.map_nil, eq_comm, List.map_eq_nil_iff] at same
      exact same.symm
  | cons name rest ih =>
      obtain _ | ⟨name', rest'⟩ := names'
      · cases same
      obtain ⟨first, others⟩ := List.cons.inj same
      obtain _ | ⟨second, rest⟩ := rest <;> obtain _ | ⟨second', rest'⟩ := rest'
      · rw [String.intercalate_singleton, String.intercalate_singleton] at eq
        rw [eq]
      · cases others
      · cases others
      · rw [String.intercalate_cons_cons, String.intercalate_cons_cons] at eq
        obtain ⟨same, behind⟩ := join_inj first eq
        rw [same, ih others behind]

/-- Joined names have their own points and one between any two of them. -/
theorem points_intercalate {names : List String} (nonempty : names ≠ []) :
    points (".".intercalate names) + 1 = (names.map points).sum + names.length := by
  induction names with
  | nil => exact absurd rfl nonempty
  | cons name rest ih =>
      obtain _ | ⟨second, rest⟩ := rest
      · rw [String.intercalate_singleton]
        rfl
      · have others := ih (List.cons_ne_nil second rest)
        rw [String.intercalate_cons_cons, points_join, List.map_cons, List.sum_cons,
          List.length_cons]
        omega

/-- Joined simple names are determined, also if it is not known how many there are. -/
theorem intercalate_inj_of_isSimple {names names' : List String} (nonempty : names ≠ [])
    (nonempty' : names' ≠ []) (simple : ∀ name ∈ names, IsSimple name)
    (simple' : ∀ name ∈ names', IsSimple name)
    (eq : ".".intercalate names = ".".intercalate names') : names = names' := by
  have zeros {names : List String} (simple : ∀ name ∈ names, IsSimple name) :
      names.map points = List.replicate names.length 0 :=
    List.map_eq_replicate_iff.mpr fun name mem => points_eq_zero_iff.mpr (simple name mem)
  have count := points_intercalate nonempty
  have count' := points_intercalate nonempty'
  rw [zeros simple, List.sum_replicate_nat, eq] at count
  rw [zeros simple', List.sum_replicate_nat] at count'
  refine intercalate_inj ?_ eq
  rw [zeros simple, zeros simple']
  congr 1
  omega

/-! ## Qualified names -/

namespace Path

/-- The path of what is at a path inside an instance. -/
def below (inst : String) (p : Path) : Path := ⟨inst :: p.segments⟩

theorem qualify_below (inst : String) (p : Path) (name : String) :
    (p.below inst).qualify name = inst ++ "." ++ p.qualify name :=
  String.intercalate_cons_of_ne_nil (List.append_ne_nil_of_right_ne_nil _ (List.cons_ne_nil _ _))

/-- A path of simple names. -/
def IsSimple (p : Path) : Prop := ∀ inst ∈ p.segments, HybridAutomata.IsSimple inst

instance (p : Path) : Decidable p.IsSimple :=
  inferInstanceAs (Decidable (∀ inst ∈ p.segments, HybridAutomata.IsSimple inst))

/-- Where names are simple, a qualified name tells where it belongs. -/
theorem qualify_inj {p p' : Path} {name name' : String} (simple : p.IsSimple)
    (simple' : p'.IsSimple) (hname : HybridAutomata.IsSimple name)
    (hname' : HybridAutomata.IsSimple name') (eq : p.qualify name = p'.qualify name') :
    p = p' ∧ name = name' := by
  have lists : p.segments ++ [name] = p'.segments ++ [name'] := by
    refine intercalate_inj_of_isSimple (by simp) (by simp) ?_ ?_ eq
    · exact List.forall_mem_append.mpr ⟨simple, by simpa using hname⟩
    · exact List.forall_mem_append.mpr ⟨simple', by simpa using hname'⟩
  obtain ⟨segments, names⟩ := List.append_inj' lists rfl
  exact ⟨congrArg Path.mk segments, List.singleton_inj.mp names⟩

end Path

/-! ## Names outside an instance -/

/-- No two names of a child are linked to one name of the network. -/
def Link.Separate (links : List Link) : Prop :=
  ∀ x y name, parentOf? links x = some name → parentOf? links y = some name → x = y

theorem Link.mem_of_parentOf? {links : List Link} {x name : String}
    (h : parentOf? links x = some name) : ∃ link ∈ links, link.child = x ∧ link.parent = name := by
  obtain ⟨link, found, rfl⟩ := Option.map_eq_some_iff.mp h
  exact ⟨link, List.mem_of_find?_eq_some found, by simpa using List.find?_some found, rfl⟩

/-- Links to different names of the network keep names apart. -/
theorem Link.separate_of_nodup {links : List Link} (parents : (links.map Link.parent).Nodup) :
    Separate links := by
  intro x y name hx hy
  obtain ⟨link, mem, rfl, same⟩ := mem_of_parentOf? hx
  obtain ⟨link', mem', rfl, same'⟩ := mem_of_parentOf? hy
  rw [List.inj_on_of_nodup_map parents mem mem' (same.trans same'.symm)]

namespace Flattened

variable {inst : String} {links : List Link}

theorem outerName_eq_of_parentOf? {x name : String} (h : Link.parentOf? links x = some name) :
    outerName inst links x = name := by
  rw [outerName, h, Option.getD_some]

theorem outerName_eq_of_not_linked {x : String} (h : Link.parentOf? links x = none) :
    outerName inst links x = inst ++ "." ++ x := by
  rw [outerName, h, Option.getD_none]

/-- A name that is not linked keeps a point, and cannot become a simple name of the network. -/
theorem outerName_injective (parents : ∀ link ∈ links, IsSimple link.parent)
    (separate : Link.Separate links) : Function.Injective (outerName inst links) := by
  have linked {x name : String} (h : Link.parentOf? links x = some name) : IsSimple name := by
    obtain ⟨link, mem, _, rfl⟩ := Link.mem_of_parentOf? h
    exact parents link mem
  have pointed (x : String) : ¬IsSimple (inst ++ "." ++ x) := by
    rw [← points_eq_zero_iff, points_join]
    omega
  intro x y eq
  cases hx : Link.parentOf? links x with
  | some name =>
      rw [outerName_eq_of_parentOf? hx] at eq
      cases hy : Link.parentOf? links y with
      | some name' =>
          rw [outerName_eq_of_parentOf? hy] at eq
          exact separate x y name hx (eq ▸ hy)
      | none =>
          rw [outerName_eq_of_not_linked hy] at eq
          exact absurd (eq ▸ linked hx) (pointed y)
  | none =>
      rw [outerName_eq_of_not_linked hx] at eq
      cases hy : Link.parentOf? links y with
      | some name' =>
          rw [outerName_eq_of_parentOf? hy] at eq
          exact absurd (eq ▸ linked hy) (pointed x)
      | none =>
          rw [outerName_eq_of_not_linked hy] at eq
          exact (String.append_right_inj _).mp eq

end Flattened

end HybridAutomata
