import HybridAutomata.Proofs.Continuization.Estimate
import HybridAutomata.Proofs.Exact.Containment

/-!
# Joined answers

The answers for a mode are joined one after the other. What comes out is determined by the set of
the answers and not by their order: every bound is the extreme one among those of the answers. So
more start points reach at least as far, whatever the estimator is.
-/

namespace HybridAutomata

open Extended Success Continuization

/-! ## More start points -/

section

variable {α : Type} [Scalar α]

theorem Model.regionPoints_subset {s : Scope α} {blowup blowup' : Bool} {region : Expr α}
    {points points' : List (List α)} (more : blowup = true → blowup' = true)
    (h : regionPoints s blowup region = .ok points)
    (h' : regionPoints s blowup' region = .ok points') : points ⊆ points' := by
  simp only [regionPoints, bind_eq_ok_iff, pure_eq_ok_iff] at h h'
  obtain ⟨box, hbox, rfl⟩ := h
  obtain ⟨box', hbox', rfl⟩ := h'
  obtain rfl : box = box' := Except.ok.inj (hbox.symm.trans hbox')
  apply List.cons_subset_cons
  cases blowup with
  | false => exact List.nil_subset _
  | true => rw [more rfl]; exact List.Subset.refl _

/-- A region that is blown up has at least the start points that it has otherwise. -/
theorem Model.startPoints_subset {m : Model α} {a : Automaton α} {mode : String}
    {blowup blowup' : Bool} {points points' : List (List α)} (more : blowup = true → blowup' = true)
    (h : m.startPoints a mode blowup = .ok points)
    (h' : m.startPoints a mode blowup' = .ok points') : points ⊆ points' := by
  rw [startPoints] at h h'
  cases initial : m.init.find? mode with
  | some region =>
      rw [initial] at h h'
      exact regionPoints_subset more h h'
  | none =>
      rw [initial] at h h'
      cases entry : m.entry? a mode with
      | none => simp [entry] at h
      | some found =>
          simp only [entry, bind_eq_ok_iff, liftEval_eq_ok_iff] at h h'
          obtain ⟨before, hbefore, resets⟩ := h
          obtain ⟨before', hbefore', resets'⟩ := h'
          intro point mem
          obtain ⟨origin, horigin, reset⟩ := (mem_of_mapM resets).mp mem
          exact (mem_of_mapM resets').mpr
            ⟨origin, regionPoints_subset more hbefore hbefore' horigin, reset⟩

namespace Continuization

theorem starts_subset {c c' : Continuization α} {m : Model α} {a : Automaton α}
    {modes : List String} {starts starts' : List (StartState α)}
    (more : c.blowup = true → c'.blowup = true) (h : c.starts m a modes = .ok starts)
    (h' : c'.starts m a modes = .ok starts') : starts ⊆ starts' := by
  intro start mem
  obtain ⟨hmode, points, hpoints, hpoint⟩ := (mem_starts h).mp mem
  obtain ⟨part, found, _⟩ : ∃ points', m.startPoints a start.mode c'.blowup = .ok points' ∧
      points' ≠ [] := by
    have reached := (mem_map_mode_of_starts h' start.mode).mpr hmode
    obtain ⟨other, hother, same⟩ := List.mem_map.mp reached
    obtain ⟨_, points', hpoints', _⟩ := (mem_starts h').mp hother
    exact ⟨points', same ▸ hpoints', Model.startPoints_ne_nil (same ▸ hpoints')⟩
  exact (mem_starts h').mpr
    ⟨hmode, part, found, Model.startPoints_subset more hpoints found hpoint⟩

/-- An answer depends on its start state alone. -/
theorem answers_subset {c : Continuization α} {ctx : Context α} {m : Model α} {a : Automaton α}
    {starts starts' : List (StartState α)} {answers answers' : List (List (Interval α))}
    (more : starts ⊆ starts') (h : c.estimateAll ctx m a starts = .ok answers)
    (h' : c.estimateAll ctx m a starts' = .ok answers') :
    starts.zip answers ⊆ starts'.zip answers' := by
  rintro ⟨start, answer⟩ mem
  rw [estimateAll] at h h'
  cases target : c.target <;> simp only [target] at h h'
  all_goals
    obtain ⟨hstart, asked⟩ := (mem_zip_of_mapM h).mp mem
    exact (mem_zip_of_mapM h').mpr ⟨more hstart, asked⟩

end Continuization

end

/-! ## Hulls of the answers -/

namespace Continuization

variable {K : Type} [Field K] [LinearOrder K] [FloorRing K] [Functions K]
  {answers answers' : List (StartState (Extended K) × List (Interval (Extended K)))}
  {found found' : NameMap (List (Interval (Extended K)))}

/-- The answers for one window of a mode. -/
def answersFor (answers : List (StartState (Extended K) × List (Interval (Extended K))))
    (mode : String) (index : Nat) : Set (Interval (Extended K)) :=
  {answer | ∃ pair ∈ answers, pair.1.mode = mode ∧ pair.2[index]? = some answer}

omit [Field K] [LinearOrder K] [FloorRing K] [Functions K] in
theorem answersFor_append_of_eq
    {pair : StartState (Extended K) × List (Interval (Extended K))} {mode : String} {index : Nat}
    {answer : Interval (Extended K)} (asked : pair.1.mode = mode)
    (given : pair.2[index]? = some answer) :
    answersFor (answers ++ [pair]) mode index = insert answer (answersFor answers mode index) := by
  ext other
  simp [answersFor, or_and_right, exists_or, asked, given, or_comm, eq_comm]

omit [Field K] [LinearOrder K] [FloorRing K] [Functions K] in
theorem answersFor_append_of_ne
    {pair : StartState (Extended K) × List (Interval (Extended K))} {mode : String} {index : Nat}
    (other : pair.1.mode ≠ mode) :
    answersFor (answers ++ [pair]) mode index = answersFor answers mode index := by
  ext answer
  simp [answersFor, or_and_right, exists_or, other]

/-- The ranges found so far are joined from the answers so far. -/
structure JoinedFrom (answers : List (StartState (Extended K) × List (Interval (Extended K))))
    (found : NameMap (List (Interval (Extended K)))) : Prop where
  known : ∀ pair ∈ answers, pair.1.mode ∈ found.keys
  joins : ∀ mode ranges, found.find? mode = some ranges →
    ∀ index range, ranges[index]? = some range →
      Interval.Joins (answersFor answers mode index) range

/-- One more answer is joined to the ranges of its mode. -/
theorem JoinedFrom.join (h : JoinedFrom answers found)
    (pair : StartState (Extended K) × List (Interval (Extended K))) :
    JoinedFrom (answers ++ [pair]) (joinRanges found pair.1.mode pair.2) where
  known other mem := by
    rw [mem_keys_joinRanges]
    obtain earlier | last := List.mem_append.mp mem
    · exact .inl (h.known other earlier)
    · exact .inr (congrArg (·.1.mode) (List.mem_singleton.mp last))
  joins mode ranges hranges index range hrange := by
    by_cases asked : pair.1.mode = mode
    · subst asked
      rw [joinRanges] at hranges
      cases present : found.find? pair.1.mode with
      | some known =>
          rw [present, NameMap.find?_insert, if_pos rfl] at hranges
          cases hranges
          obtain ⟨earlier, answer, hearlier, hanswer, rfl⟩ :=
            List.getElem?_zipWith_eq_some.mp hrange
          rw [answersFor_append_of_eq rfl hanswer]
          exact (h.joins _ known present index earlier hearlier).hull answer
      | none =>
          rw [present, NameMap.find?_insert, if_pos rfl] at hranges
          cases hranges
          have first : answersFor answers pair.1.mode index = ∅ := by
            refine Set.eq_empty_of_forall_notMem ?_
            rintro _ ⟨earlier, mem, same, _⟩
            exact NameMap.find?_eq_none_iff.mp present (same ▸ h.known earlier mem)
          rw [answersFor_append_of_eq rfl hrange, first, insert_empty_eq]
          exact Interval.joins_singleton range
    · have kept : found.find? mode = some ranges := by
        rw [joinRanges] at hranges
        split at hranges <;> rwa [NameMap.find?_insert, if_neg (Ne.symm asked)] at hranges
      rw [answersFor_append_of_ne asked]
      exact h.joins mode ranges kept index range hrange

/-- The ranges of all modes are joined from all answers. -/
theorem JoinedFrom.foldl (h : JoinedFrom answers found)
    (more : List (StartState (Extended K) × List (Interval (Extended K)))) :
    JoinedFrom (answers ++ more)
      (more.foldl (fun found (start, ranges) => joinRanges found start.mode ranges) found) := by
  induction more generalizing answers found with
  | nil => rwa [List.append_nil]
  | cons pair rest ih =>
      rw [List.append_cons]
      exact ih (h.join pair)

theorem joinedFrom_nil :
    JoinedFrom ([] : List (StartState (Extended K) × List (Interval (Extended K)))) ∅ where
  known _ mem := by cases mem
  joins _ _ found := by cases found

/-- The ranges found from more start points reach at least as far. The amounts of bloating take no
part in them. -/
theorem modeRanges_reach {c : Continuization (Extended K)} {ctx : Context (Extended K)}
    {m : Model (Extended K)} {a : Automaton (Extended K)} {modes : List String}
    {bloats : List (Extended K)} {blowup : Bool} (more : c.blowup = true → blowup = true)
    (h : c.modeRanges ctx m a modes = .ok found)
    (h' : ({ c with blowup, bloats } : Continuization (Extended K)).modeRanges ctx m a modes =
      .ok found')
    {mode : String} {ranges ranges' : List (Interval (Extended K))}
    (hranges : found.find? mode = some ranges) (hranges' : found'.find? mode = some ranges') :
    List.Forall₂ Interval.Reaches ranges ranges' := by
  have covers := (modeRanges_shape h).2 mode ranges hranges
  have covers' := (modeRanges_shape h').2 mode ranges' hranges'
  simp only [modeRanges, bind_eq_ok_iff, pure_eq_ok_iff] at h h'
  obtain ⟨starts, hstarts, answers, hanswers, _, _, rfl⟩ := h
  obtain ⟨starts', hstarts', answers', hanswers', _, _, rfl⟩ := h'
  have joined := joinedFrom_nil.foldl (starts.zip answers)
  have joined' := joinedFrom_nil.foldl (starts'.zip answers')
  have answered : starts.zip answers ⊆ starts'.zip answers' :=
    answers_subset (starts_subset more hstarts hstarts') hanswers hanswers'
  refine forall₂_of_getElem? (covers.trans covers'.symm) fun index range range' hrange hrange' => ?_
  refine (joined.joins mode ranges hranges index range hrange).reaches_of_subset
    (joined'.joins mode ranges' hranges' index range' hrange') ?_
  rintro answer ⟨pair, mem, given⟩
  exact ⟨pair, answered mem, given⟩

end Continuization

end HybridAutomata
