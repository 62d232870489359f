import HybridAutomata.Expr.Range
import HybridAutomata.Proofs.Doubles.Powers

/-!
# Ranges of doubles

The interval version of an operator asks for an interval between two rounded results, and there is
none if a result is undefined. This is met at infinite bounds, which overflows and large literals
lead to: a difference of infinities is undefined, and so is their quotient. A function is applied to
the bounds of its argument, so what it answers there has to be in order. The clashes below are these
cases, operator by operator; a formula without one has a range.
-/

namespace HybridAutomata

namespace Double

open Float.Model (UnpackedFloat Format)
open Float.Model.UnpackedFloat (Sign)

/-- A finite number other than zero has no undefined quotients by numbers. -/
theorem div_ne {s : Sign} {m : ℕ} {e : ℤ} {pos : 0 < m} {v : UnpackedFloat}
    (h : v ≠ .notANumber) :
    UnpackedFloat.div Format.binary64 (.finite s m e pos) v ≠ .notANumber := by
  cases v with
  | notANumber => exact absurd rfl h
  | infinity | zero => exact UnpackedFloat.noConfusion
  | finite => exact roundWithAccuracy_ne _ _ _ _

theorem isDefined_one_div {x : Float} (h : Scalar.isDefined x = true) :
    Scalar.isDefined (1 / x) = true := by
  rw [isDefined_iff] at h ⊢
  obtain ⟨s, m, e, pos, one⟩ : ∃ s m e pos, parts 1 = .finite s m e pos := ⟨_, _, _, _, rfl⟩
  change repacked (UnpackedFloat.div Format.binary64 (parts 1) (parts x)) ≠ .notANumber
  rw [one]
  exact repacked_ne (div_ne h)

end Double

namespace Interval

open Double

variable {i j : Interval Float}

/-! ## Clashes of operators -/

/-- The values of a function at the bounds are not in order, or not defined. -/
def OutOfOrder (f : Float → Float) (i : Interval Float) : Prop := ¬f i.min ≤ f i.max

/-- There is no power: a whole exponent has no opposite in 32 bits, or the way through logarithms
leaves the order. -/
def PowerClash (base exponent : Interval Float) : Prop :=
  if exponent.isPoint && Scalar.isWhole exponent.min then
    Scalar.wholePart minWord maxWord exponent.min = minWord
  else
    0 < base.min ∧ (OutOfOrder Scalar.ln base ∨ ∃ product,
      exponent.mul ⟨Scalar.ln base.min, Scalar.ln base.max⟩ = .ok product ∧
        OutOfOrder Scalar.exp product)

/-- The operator has no answer for the two ranges: a bound of a sum or a difference is undefined, or
all quotients of bounds are. Products always exist. -/
def Clash : ArithOp → Interval Float → Interval Float → Prop
  | .add, i, j => ¬(Scalar.isDefined (i.min + j.min) = true ∧
      Scalar.isDefined (i.max + j.max) = true)
  | .sub, i, j => ¬(Scalar.isDefined (i.min - j.max) = true ∧
      Scalar.isDefined (i.max - j.min) = true)
  | .mul, _, _ => False
  | .div, i, j => ¬(j.contains 0 = true ∨
      ∃ c ∈ [i.min / j.min, i.min / j.max, i.max / j.min, i.max / j.max],
        Scalar.isDefined c = true)
  | .pow, i, j => PowerClash i j

theorem mapMonotone_faultless_iff {f : Float → Float} :
    Faultless Ordered (i.mapMonotone f) ↔ ¬OutOfOrder f i :=
  faultless_make_iff.trans not_not.symm

/-- Every power with a whole exponent exists, unless the exponent has no opposite. -/
theorem powInt_faultless_iff (hi : i.Ordered) {n : ℤ} :
    Faultless Ordered (i.powInt n) ↔ n ≠ minWord := by
  have unit : Faultless Ordered (point (1 : Float)) := faultless_make_iff.mpr (by decide)
  rw [powInt]
  split
  · next zero => exact iff_of_true unit (by rw [zero]; decide)
  · split
    · next least => exact iff_of_false (fun h => h trivial) (not_not.mpr least)
    · next other =>
        refine iff_of_true ?_ other
        have power := powNat_faultless hi n.natAbs
        split
        · have one : point (1 : Float) = .ok ⟨1, 1⟩ := make_eq_ok_iff.mpr ⟨by decide, rfl⟩
          refine Faultless.bind (.of_exists ⟨_, one, rfl⟩) fun _ _ same => same ▸ ?_
          refine power.bind fun k _ ordered => ?_
          have defined := Scalar.isDefined_iff.mpr (LawfulComparisons.defined_of_le ordered).1
          exact div_faultless_iff.mpr (.inr ⟨_, List.mem_cons_self, isDefined_one_div defined⟩)
        · exact power

theorem pow_faultless_iff (hi : i.Ordered) (hj : j.Ordered) :
    Faultless Ordered (i.pow j) ↔ ¬PowerClash i j := by
  rw [pow, PowerClash]
  split
  · exact powInt_faultless_iff hi
  · split
    · next positive =>
        by_cases logarithm : Scalar.ln i.min ≤ Scalar.ln i.max
        · obtain ⟨product, hmul, ordered, _⟩ := (mul_faultless (j := ⟨_, _⟩) hj logarithm).exists_ok
          have answer : (do (← j.mul (← i.mapMonotone Scalar.ln)).mapMonotone Scalar.exp) =
              product.mapMonotone Scalar.exp := by
            rw [mapMonotone, make, if_pos logarithm]
            change (do (← j.mul _).mapMonotone Scalar.exp) = _
            rw [hmul]
            rfl
          rw [answer, mapMonotone_faultless_iff, not_iff_not]
          constructor
          · exact fun clash => ⟨positive, .inr ⟨product, hmul, clash⟩⟩
          · rintro ⟨_, outOfOrder | ⟨_, same, clash⟩⟩
            · exact absurd logarithm outOfOrder
            · exact Except.ok.inj (hmul.symm.trans same) ▸ clash
        · have answer : i.mapMonotone Scalar.ln = .error (.unordered _ _) := if_neg logarithm
          rw [answer]
          exact iff_of_false (fun h => h trivial) (not_not.mpr ⟨positive, .inl logarithm⟩)
    · next notPositive => exact iff_of_true ordered_entire fun clash => notPositive clash.1

theorem applyArith_faultless_iff {op : ArithOp} (hi : i.Ordered) (hj : j.Ordered) :
    Faultless Ordered (applyArith op i j) ↔ ¬Clash op i j := by
  cases op with
  | add => exact (add_faultless_iff hi hj).trans not_not.symm
  | sub => exact (sub_faultless_iff hi hj).trans not_not.symm
  | mul => exact iff_of_true ((mul_faultless hi hj).mono fun _ _ h => h.1) id
  | div => exact div_faultless_iff.trans not_not.symm
  | pow => exact pow_faultless_iff hi hj

/-! ## Clashes of functions -/

/-- The sine is looked for on a bounded interval, and it is undefined at the lower bound. -/
def SineClash (i : Interval Float) : Prop :=
  i.isBounded = true ∧ Scalar.isDefined (Scalar.sin i.min) = false

/-- The interval version of the function has no answer for the range of its argument. -/
inductive FunctionClash (i : Interval Float) : String → Prop
  | sin (clash : SineClash i) : FunctionClash i "sin"
  | cos {turned : Interval Float} (turn : i.add ⟨quarterTurn, quarterTurn⟩ = .ok turned)
      (clash : SineClash turned) : FunctionClash i "cos"
  | tan (values : OutOfOrder Scalar.tan i) : FunctionClash i "tan"
  | exp (values : OutOfOrder Scalar.exp i) : FunctionClash i "exp"
  | ln (positive : 0 < i.min) (values : OutOfOrder Scalar.ln i) : FunctionClash i "ln"
  | log (positive : 0 < i.min) (values : OutOfOrder Scalar.ln i) : FunctionClash i "log"
  | sqrt (nonneg : 0 ≤ i.min) (values : OutOfOrder Scalar.sqrt i) : FunctionClash i "sqrt"

theorem sin_faultless (h : ¬SineClash i) : Faultless Ordered i.sin := by
  rw [sin]
  split
  · exact faultless_make_iff.mpr (by decide)
  · next narrow =>
      have bounded : i.isBounded = true := by
        by_contra unbounded
        simp [unbounded] at narrow
      have defined : Scalar.sin i.min ≤ Scalar.sin i.min := by
        rw [← Scalar.isDefined_iff, ← Scalar.isDefined, ← Bool.not_eq_false]
        exact fun undefined => h ⟨bounded, undefined⟩
      have pointed : Faultless Ordered (point (Scalar.sin i.min)) := faultless_make_iff.mpr defined
      refine pointed.bind fun _ _ ends => ?_
      have withEnd := Ordered.hull (j := ⟨Scalar.sin i.max, Scalar.sin i.max⟩) ends
      -- a crest and a trough are added to the values at the ends
      have withCrest := Ordered.hull (j := ⟨1, 1⟩) withEnd
      dsimp only
      split <;> split
      · exact Ordered.hull (j := ⟨-1, -1⟩) withCrest
      · exact Ordered.hull (j := ⟨-1, -1⟩) withEnd
      · exact withCrest
      · exact withEnd

theorem add_faultless_of_isFinite (hi : i.Ordered) {a : Float} (finite : Scalar.isFinite a = true) :
    Faultless Ordered (i.add ⟨a, a⟩) := by
  obtain ⟨lower, upper⟩ := LawfulComparisons.defined_of_le hi
  refine (add_faultless_iff hi (j := ⟨a, a⟩) (Scalar.defined_of_isFinite finite)).mpr ⟨?_, ?_⟩
  · exact Scalar.isDefined_iff.mpr (defined_add_of_isFinite lower finite)
  · exact Scalar.isDefined_iff.mpr (defined_add_of_isFinite upper finite)

theorem cos_faultless (hi : i.Ordered) (h : ¬FunctionClash i "cos") : Faultless Ordered i.cos := by
  have finite : Scalar.isFinite (quarterTurn : Float) = true := by decide
  have quarter : point (quarterTurn : Float) = .ok ⟨quarterTurn, quarterTurn⟩ :=
    make_eq_ok_iff.mpr ⟨Scalar.defined_of_isFinite finite, rfl⟩
  rw [cos, quarter]
  exact (add_faultless_of_isFinite hi finite).bind fun turned made _ =>
    sin_faultless fun clash => h (.cos made clash)

theorem abs_faultless (hi : i.Ordered) : Faultless Ordered i.abs := by
  rw [abs]
  split
  · exact hi
  · split
    · exact neg_faultless hi
    · next aboveZero =>
        refine faultless_make_iff.mpr ?_
        have nonneg : 0 ≤ i.max := by
          obtain le | le := LawfulComparisons.le_total (a := (0 : Float)) (by decide)
            (LawfulComparisons.defined_of_le hi).2
          · exact le
          · exact absurd le aboveZero
        exact LawfulComparisons.le_trans nonneg
          (Scalar.le_greater_left _ (LawfulComparisons.defined_of_le nonneg).2)

theorem ln_faultless (h : 0 < i.min → ¬OutOfOrder Scalar.ln i) : Faultless Ordered i.ln := by
  rw [ln]
  split
  · next positive => exact mapMonotone_faultless_iff.mpr (h positive)
  · exact ordered_entire

theorem sqrt_faultless (h : 0 ≤ i.min → ¬OutOfOrder Scalar.sqrt i) : Faultless Ordered i.sqrt := by
  rw [sqrt]
  split
  · next nonneg => exact mapMonotone_faultless_iff.mpr (h nonneg)
  · exact ordered_entire

/-- The smaller bounds of two intervals are in order. -/
theorem lesser_faultless (hi : i.Ordered) (hj : j.Ordered) :
    Faultless Ordered (make (Scalar.lesser i.min j.min) (Scalar.lesser i.max j.max)) := by
  refine faultless_make_iff.mpr ?_
  obtain same | same := Scalar.lesser_eq_or i.max j.max
  · rw [same]
    have lower := Scalar.lesser_le_left j.min (LawfulComparisons.defined_of_le hi).1
    exact LawfulComparisons.le_trans lower hi
  · rw [same]
    have lower := Scalar.lesser_le_right i.min (LawfulComparisons.defined_of_le hj).1
    exact LawfulComparisons.le_trans lower hj

theorem greater_faultless (hi : i.Ordered) (hj : j.Ordered) :
    Faultless Ordered (make (Scalar.greater i.min j.min) (Scalar.greater i.max j.max)) := by
  refine faultless_make_iff.mpr ?_
  obtain same | same := Scalar.greater_eq_or i.min j.min
  · rw [same]
    have upper := Scalar.le_greater_left j.max (LawfulComparisons.defined_of_le hi).2
    exact LawfulComparisons.le_trans hi upper
  · rw [same]
    have upper := Scalar.le_greater_right i.max (LawfulComparisons.defined_of_le hj).2
    exact LawfulComparisons.le_trans hj upper

/-- A range that is found is wrapped up as the answer. -/
theorem faultless_some {answer : Except (Fault Float) (Interval Float)}
    (h : Faultless Ordered answer) :
    Faultless (fun found => ∀ k ∈ found, k.Ordered) (some <$> answer) := by
  refine Faultless.map (h.mono fun k _ ordered => ?_)
  rintro _ ⟨⟩
  exact ordered

theorem applyFunction_faultless {name : String} {args : List (Interval Float)}
    (ordered : ∀ i ∈ args, i.Ordered) (h : ∀ i ∈ args, ¬FunctionClash i name) :
    Faultless (fun found => ∀ k ∈ found, k.Ordered) (applyFunction name args) := by
  unfold applyFunction
  split
  · next x =>
      have hx := ordered x List.mem_cons_self
      have calm := h x List.mem_cons_self
      split
      · exact faultless_some (sin_faultless fun clash => calm (.sin clash))
      · exact faultless_some (cos_faultless hx calm)
      · refine faultless_some ?_
        rw [tan]
        split
        · exact ordered_entire
        · exact mapMonotone_faultless_iff.mpr fun values => calm (.tan values)
      · refine faultless_some (mapMonotone_faultless_iff.mpr ?_)
        exact fun values => calm (.exp values)
      · exact faultless_some (ln_faultless fun positive values => calm (.ln positive values))
      · exact faultless_some (ln_faultless fun positive values => calm (.log positive values))
      · exact faultless_some (sqrt_faultless fun nonneg values => calm (.sqrt nonneg values))
      · exact faultless_some (abs_faultless hx)
      · nofun
  · next x y =>
      have hx := ordered x (by simp)
      have hy := ordered y (by simp)
      split
      · exact faultless_some (lesser_faultless hx hy)
      · exact faultless_some (greater_faultless hx hy)
      · nofun
  · nofun

end Interval

/-! ## Formulas -/

namespace Expr

variable {env : String → Option (Interval Float)}

/-- Somewhere in the formula a literal is undefined, or an operator or a function meets ranges for
which it has no answer. -/
inductive Clashes (env : String → Option (Interval Float)) : Expr Float → Prop
  | literal {c : Float} (undefined : Scalar.isDefined c = false) : Clashes env (.num c)
  | neg {e : Expr Float} (inside : Clashes env e) : Clashes env (.unary .neg e)
  | left {op : ArithOp} {l : Expr Float} (r : Expr Float) (inside : Clashes env l) :
      Clashes env (.binary (.arith op) l r)
  | right {op : ArithOp} (l : Expr Float) {r : Expr Float} (inside : Clashes env r) :
      Clashes env (.binary (.arith op) l r)
  | operator {op : ArithOp} {l r : Expr Float} {i j : Interval Float} (left : l.range env = .ok i)
      (right : r.range env = .ok j) (clash : Interval.Clash op i j) :
      Clashes env (.binary (.arith op) l r)
  | argument {name : String} {e : Expr Float} {args : List (Expr Float)} (mem : e ∈ args)
      (inside : Clashes env e) : Clashes env (.call name args)
  | function {name : String} {args : List (Expr Float)} {ranges : List (Interval Float)}
      (found : rangeArgs env args = .ok ranges) {i : Interval Float} (mem : i ∈ ranges)
      (clash : Interval.FunctionClash i name) : Clashes env (.call name args)

mutual

/-- Where the names range over intervals with their bounds in order, so does a formula in which
nothing clashes. -/
theorem range_faultless (known : ∀ name i, env name = some i → i.Ordered) :
    ∀ e : Expr Float, ¬e.Clashes env → Faultless Interval.Ordered (e.range env)
  | .num c, h => by
      have defined : Scalar.isDefined c = true := by
        rw [← Bool.not_eq_false]
        exact fun undefined => h (.literal undefined)
      rw [range]
      exact .liftToRange (Interval.faultless_make_iff.mpr (Scalar.isDefined_iff.mp defined))
  | .var name, _ => by
      rw [range]
      split
      · next i found => exact known name i found
      · exact id
  | .unary .neg e, h => by
      rw [range]
      refine (range_faultless known e fun inside => h (.neg inside)).bind fun i _ hi => ?_
      exact .liftToRange (Interval.neg_faultless hi)
  | .binary (.arith op) l r, h => by
      rw [range]
      refine (range_faultless known l fun inside => h (.left r inside)).bind ?_
      intro i left hi
      refine (range_faultless known r fun inside => h (.right l inside)).bind ?_
      intro j right hj
      refine .liftToRange ((Interval.applyArith_faultless_iff hi hj).mpr fun clash => ?_)
      exact h (.operator left right clash)
  | .call name args, h => by
      rw [range]
      refine (rangeArgs_faultless known args fun e mem inside =>
        h (.argument mem inside)).bind fun ranges found ordered => ?_
      have answer := Interval.applyFunction_faultless ordered fun i mem clash =>
        h (.function found mem clash)
      refine answer.liftToRange.bind fun found _ holds => ?_
      cases found with
      | some k => exact holds k rfl
      | none => exact id
  | .bool _, _ => id
  | .unary .not _, _ => id
  | .binary (.logic _) _ _, _ => id
  | .binary (.compare _) _ _, _ => id

theorem rangeArgs_faultless (known : ∀ name i, env name = some i → i.Ordered) :
    ∀ es : List (Expr Float), (∀ e ∈ es, ¬e.Clashes env) →
      Faultless (fun is => ∀ i ∈ is, i.Ordered) (rangeArgs env es)
  | [], _ => by
      rw [rangeArgs]
      exact List.forall_mem_nil _
  | e :: es, h => by
      obtain ⟨he, hes⟩ := List.forall_mem_cons.mp h
      rw [rangeArgs]
      refine (range_faultless known e he).bind fun i _ first => ?_
      refine (rangeArgs_faultless known es hes).bind fun is _ others => ?_
      exact List.forall_mem_cons.mpr ⟨first, others⟩

end

/-- The difference of infinite literals. -/
example : Clashes env (.sub (.num Scalar.infinity) (.num Scalar.infinity)) :=
  .operator rfl rfl fun ⟨lower, _⟩ => absurd lower (by decide)

end Expr

end HybridAutomata
