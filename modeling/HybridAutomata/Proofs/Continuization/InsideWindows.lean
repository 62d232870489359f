import HybridAutomata.Proofs.Automaton.Runs
import HybridAutomata.Proofs.Continuization.EventTriggered

/-!
# Inside a window

The windows cover the time up to the last breakpoint, and each begins where the one before it ends.
Inside its window, a window mode allows all that its mode does: the limits that are added to the
invariant hold there, and no deviation is among the deviations for which the rates allow.
-/

namespace HybridAutomata

open Continuization Success Extended

namespace Continuization

/-! ## Windows of time -/

section

variable {α : Type} {lower : α} {bs : List α} {i : Nat} {w : Interval α}

/-- A window begins at the end of the one before it. -/
theorem windowsFrom_getElem? :
    (windowsFrom lower bs)[i]? = some w ↔ (lower :: bs)[i]? = some w.min ∧ bs[i]? = some w.max := by
  induction bs generalizing lower i with
  | nil => simp [windowsFrom]
  | cons b bs ih =>
      cases i with
      | zero =>
          obtain ⟨min, max⟩ := w
          simp [windowsFrom]
      | succ i => simpa [windowsFrom] using ih

end

section

variable {K : Type} [Field K] [LinearOrder K] [FloorRing K] [Functions K]
  {c : Continuization (Extended K)} {clock : String} {i : Nat} {x : String → K}

/-- The clock is in a window. -/
def Inside (c : Continuization (Extended K)) (clock : String) (i : Nat) (x : String → K) : Prop :=
  ∃ window, c.windows[i]? = some window ∧ window.Holds (x clock)

theorem Inside.lt_windows (h : c.Inside clock i x) : i < c.windows.length := by
  obtain ⟨_, found, _⟩ := h
  exact (List.getElem?_eq_some_iff.mp found).1

/-- Time does not exceed the last breakpoint. -/
def WithinWindows (c : Continuization (Extended K)) (time : K) : Prop :=
  ∀ last, c.breakpoints.getLast? = some last → finite time ≤ last

theorem WithinWindows.mono {time earlier : K} (h : c.WithinWindows time) (le : earlier ≤ time) :
    c.WithinWindows earlier := by
  intro last hlast
  exact Extended.le_trans (finite_le_finite.mpr le) (h last hlast)

/-- Breakpoints are finite and increase. -/
theorem of_misplaced?_cons {previous : K} {b : Extended K} {bs : List (Extended K)}
    (h : misplaced? (finite previous) (b :: bs) = none) :
    ∃ hi, b = finite hi ∧ previous < hi ∧ misplaced? (finite hi) bs = none := by
  simp only [misplaced?, Bool.and_eq_true, decide_eq_true_eq] at h
  split at h
  · next placed =>
      obtain ⟨isFinite, lt⟩ := placed
      obtain ⟨hi, rfl⟩ := isFinite_iff.mp isFinite
      exact ⟨hi, rfl, finite_lt_finite.mp lt, h⟩
  · cases h

/-- Windows have finite bounds, in order, and lie behind the time they begin at. -/
theorem exists_bounds {previous : K} {bs : List (Extended K)}
    (h : misplaced? (finite previous) bs = none) {window : Interval (Extended K)}
    (mem : window ∈ windowsFrom (finite previous) bs) :
    ∃ lo hi, window = ⟨finite lo, finite hi⟩ ∧ previous ≤ lo ∧ lo < hi := by
  induction bs generalizing previous with
  | nil => cases mem
  | cons b bs ih =>
      obtain ⟨hi, rfl, lt, rest⟩ := of_misplaced?_cons h
      obtain rfl | mem := List.mem_cons.mp mem
      · exact ⟨previous, hi, rfl, le_rfl, lt⟩
      · obtain ⟨lo, hi', bounds, after, ordered⟩ := ih rest mem
        exact ⟨lo, hi', bounds, lt.le.trans after, ordered⟩

/-- Windows cover the time up to the last one. -/
theorem exists_window_holds {previous time : K} {bs : List (Extended K)}
    (h : misplaced? (finite previous) bs = none) (nonempty : bs ≠ []) (after : previous ≤ time)
    (upTo : ∀ last, bs.getLast? = some last → finite time ≤ last) :
    ∃ (i : Nat) (window : Interval (Extended K)),
      (windowsFrom (finite previous) bs)[i]? = some window ∧ window.Holds time := by
  induction bs generalizing previous with
  | nil => exact absurd rfl nonempty
  | cons b bs ih =>
      obtain ⟨hi, rfl, _, rest⟩ := of_misplaced?_cons h
      by_cases first : time ≤ hi
      · exact ⟨0, ⟨finite previous, finite hi⟩, rfl, after, first⟩
      · have more : bs ≠ [] := by
          rintro rfl
          exact first (upTo _ rfl)
        have upTo' : ∀ last, bs.getLast? = some last → finite time ≤ last := by
          intro last isLast
          apply upTo
          rw [List.getLast?_cons, isLast]
          rfl
        obtain ⟨i, window, found, holds⟩ := ih rest more (le_of_not_ge first) upTo'
        exact ⟨i + 1, window, found, holds⟩

namespace Accepted

theorem bounds (h : c.Accepted) {window : Interval (Extended K)}
    (found : c.windows[i]? = some window) :
    ∃ lo hi, window = ⟨finite lo, finite hi⟩ ∧ 0 ≤ lo ∧ lo < hi := by
  have increasing := h.increasing
  have mem := List.mem_of_getElem? found
  rw [windows] at mem
  rw [zero_eq] at increasing mem
  exact exists_bounds increasing mem

theorem exists_inside (h : c.Accepted) (nonneg : 0 ≤ x clock)
    (within : c.WithinWindows (x clock)) : ∃ i, c.Inside clock i x := by
  have increasing := h.increasing
  rw [zero_eq] at increasing
  obtain ⟨i, window, found, holds⟩ := exists_window_holds increasing h.nonempty nonneg within
  refine ⟨i, window, ?_, holds⟩
  rw [windows, zero_eq]
  exact found

theorem inside_zero (h : c.Accepted) (nonneg : 0 ≤ x clock)
    (first : ∀ b, c.breakpoints.head? = some b → finite (x clock) ≤ b) : c.Inside clock 0 x := by
  obtain ⟨b, bs, cons⟩ := List.exists_cons_of_ne_nil h.nonempty
  refine ⟨⟨0, b⟩, ?_, ?_, first b (by rw [cons]; rfl)⟩
  · rw [windows, cons]
    rfl
  · rw [zero_eq]
    exact nonneg

/-- When a window is over, there is a next one, and it begins where the window ends. -/
theorem exists_next (h : c.Accepted) {window : Interval (Extended K)} {lo hi time : K}
    (found : c.windows[i]? = some window) (bounds : window = ⟨finite lo, finite hi⟩)
    (ended : hi < time) (within : c.WithinWindows time) :
    ∃ next, c.windows[i + 1]? = some next ∧ next.Holds hi := by
  subst bounds
  have last := (windowsFrom_getElem?.mp found).2
  have more : i + 1 < c.breakpoints.length := by
    by_contra notMore
    have bound := (List.getElem?_eq_some_iff.mp last).1
    have isLast : c.breakpoints.getLast? = some (finite hi) := by
      rw [List.getLast?_eq_getElem?, ← last]
      congr
      omega
    exact absurd (finite_le_finite.mp (within _ isLast)) (not_le.mpr ended)
  rw [← length_windows] at more
  obtain ⟨lo', hi', bounds', _, lt⟩ := h.bounds (List.getElem?_eq_getElem more)
  have begins := (windowsFrom_getElem?.mp (List.getElem?_eq_getElem more)).1
  rw [bounds', List.getElem?_cons_succ, last] at begins
  obtain rfl : hi = lo' := Extended.finite.inj (Option.some.inj begins)
  refine ⟨_, List.getElem?_eq_getElem more, ?_⟩
  rw [bounds']
  exact ⟨le_rfl, finite_le_finite.mpr lt.le⟩

theorem period_eq (h : c.Accepted) : ∃ p, c.period = finite p ∧ 0 < p := by
  have positive := h.period
  rw [Scalar.isPositive, Bool.and_eq_true, decide_eq_true_eq, zero_eq] at positive
  obtain ⟨p, hp⟩ := isFinite_iff.mp positive.1
  rw [hp, finite_lt_finite] at positive
  exact ⟨p, hp, positive.2⟩

end Accepted

/-! ## Rates of a window -/

/-- A multiple of an interval up to zero holds zero, whatever the factors are. -/
theorem exists_mul_of_max_zero (lo : Extended K) (i : Interval (Extended K)) :
    ∃ j, (⟨lo, 0⟩ : Interval (Extended K)).mul i = .ok j ∧ j.Holds 0 := by
  apply Interval.exists_cornerHull_of_mem
  simp [Interval.zero_mulBound]

/-- The deviation can be zero. -/
theorem holds_zero_of_deviation {bloated deviation : Interval (Extended K)}
    (h : c.deviation bloated = .ok deviation) : deviation.Holds 0 := by
  simp only [Continuization.deviation, bind_eq_ok_iff, Interval.make_eq_ok_iff] at h
  obtain ⟨_, ⟨_, rfl⟩, product⟩ := h
  obtain ⟨_, product', holds⟩ := exists_mul_of_max_zero (-c.period) bloated
  obtain rfl := Except.ok.inj (product.symm.trans product')
  exact holds

/-- A multiple of an interval with zero holds zero, whatever the factor is. -/
theorem exists_scale_of_zero [IsStrictOrderedRing K] {i : Interval (Extended K)}
    {factor : Extended K} (defined : factor ≤ factor) (zero : i.Holds 0) :
    ∃ j, i.scale factor = .ok j ∧ j.Holds 0 := by
  have between := Interval.mulBound_between (defined_of_le defined).1 zero.1 zero.2
  rw [Interval.mulBound_comm _ (finite 0), Interval.zero_mulBound, Interval.mulBound_comm _ i.min,
    Interval.mulBound_comm _ i.max] at between
  let corners := [Interval.mulBound i.min factor, Interval.mulBound i.min factor,
    Interval.mulBound i.max factor, Interval.mulBound i.max factor]
  have below : ∃ corner ∈ corners, corner ≤ finite 0 := by
    obtain h | h := between.1 <;> exact ⟨_, by simp [corners], h⟩
  have above : ∃ corner ∈ corners, finite 0 ≤ corner := by
    obtain h | h := between.2 <;> exact ⟨_, by simp [corners], h⟩
  obtain ⟨j, product, holds⟩ := Interval.exists_cornerHull below above
  exact ⟨j, bind_eq_ok_iff.mpr ⟨_, Interval.make_eq_ok_iff.mpr ⟨defined, rfl⟩, product⟩, holds⟩

/-- An interval is scaled by a number that equals itself. -/
theorem defined_of_scale {i j : Interval (Extended K)} {factor : Extended K}
    (h : i.scale factor = .ok j) : factor ≤ factor := by
  obtain ⟨_, point, _⟩ := bind_eq_ok_iff.mp h
  exact (Interval.make_eq_ok_iff.mp point).1

theorem holds_zero_of_scale [IsStrictOrderedRing K] {i j : Interval (Extended K)}
    {factor : Extended K} (h : i.scale factor = .ok j) (zero : i.Holds 0) : j.Holds 0 := by
  obtain ⟨_, scaled, holds⟩ := exists_scale_of_zero (defined_of_scale h) zero
  obtain rfl := Except.ok.inj (h.symm.trans scaled)
  exact holds

/-- A widened rate allows what the original one does. -/
theorem allows_of_widenRate [IsStrictOrderedRing K] {mode y : String}
    {bloated deviation : Interval (Extended K)} {rate rate' : Perturbed (Extended K)}
    (h : c.widenRate mode deviation (y, rate) = .ok (y, rate'))
    (hdeviation : c.deviation bloated = .ok deviation) {x : String → K} {number : K}
    (allowed : rate.Allows x number) : rate'.Allows x number := by
  cases mentions : rate.expr.mentions c.sampled with
  | false =>
      rw [widenRate_of_not_mentions mentions] at h
      cases h
      exact allowed
  | true =>
      obtain ⟨coefficient, extra, noise, _, scaled, added, rfl⟩ :=
        (widenRate_eq_ok_iff_of_mentions mentions).mp h
      obtain ⟨value, w, evaluated, holds, rfl⟩ := allowed
      have zero := holds_zero_of_scale scaled (holds_zero_of_deviation hdeviation)
      obtain ⟨noise', added', holds'⟩ := holds.add zero
      obtain rfl := Except.ok.inj (added'.symm.trans added)
      rw [add_zero] at holds'
      exact ⟨value, w, evaluated, holds', rfl⟩

end

section

variable {c : Continuization (Extended ℝ)} {a : Automaton (Extended ℝ)} {clock name : String}
  {ranges : NameMap (List (Interval (Extended ℝ)))} {index : Nat} {m w : Mode (Extended ℝ)}
  {rate : Perturbed (Extended ℝ)} {plan : WindowPlan (Extended ℝ)}

/-- Inside its window, a window mode allows what its mode does. -/
theorem WindowOf.covers (h : WindowOf c a clock ranges name index m rate plan w)
    (accepted : c.Accepted) : w.Covers m (c.Inside clock index) := by
  obtain ⟨_, urgent, hasFlow, invariant, widened⟩ := windowMode_eq_ok h.made
  refine { urgent, hasFlow, invariant := ?_, moves := ?_, still := ?_ }
  · rintro x ⟨window, found, inside⟩ holds
    obtain rfl := Option.some.inj (h.window.symm.trans found)
    obtain ⟨lo, hi, bounds, _, _⟩ := accepted.bounds found
    obtain ⟨p, period, positive⟩ := accepted.period_eq
    have upper : finite (x clock) ≤ plan.range.window.max + c.period := by
      have le := inside.2
      rw [bounds] at le ⊢
      rw [period, finite_add, finite_le_finite]
      exact (finite_le_finite.mp le).trans (le_add_of_nonneg_right positive.le)
    rw [invariant, windowInvariant, Expr.holdsAt_and, Expr.holdsAt_le]
    refine ⟨?_, upper⟩
    split
    · exact holds
    · exact Expr.holdsAt_and.mpr ⟨holds, Expr.holdsAt_ge.mpr inside.1⟩
  · intro y rate' found
    obtain ⟨none, _⟩ | ⟨original, installed, before, after, widen⟩ := widened y
    · rw [found] at none
      cases none
    · obtain rfl := Option.some.inj (found.symm.trans before)
      exact ⟨installed, after, fun x number => allows_of_widenRate widen h.deviation⟩
  · intro y found
    obtain ⟨_, none⟩ | ⟨_, _, before, _, _⟩ := widened y
    · exact none
    · rw [found] at before
      cases before

end

end Continuization

end HybridAutomata
