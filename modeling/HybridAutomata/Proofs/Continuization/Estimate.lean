import HybridAutomata.Continuization.Estimate
import HybridAutomata.Proofs.Names
import HybridAutomata.Proofs.Success

/-!
# Which modes get ranges

The estimator is an arbitrary function, so nothing is known of the ranges themselves. What is known
is their shape: exactly the modes that are asked for get ranges, because each of them has a start
point, and every mode gets one range per window, because answers of another length are refused.
-/

namespace HybridAutomata

open Success

variable {α : Type} [Scalar α]

/-! ## Start points -/

namespace Model

theorem regionPoints_ne_nil {s : Scope α} {blowup : Bool} {region : Expr α}
    {points : List (List α)} (h : regionPoints s blowup region = .ok points) : points ≠ [] := by
  simp only [regionPoints, bind_eq_ok_iff, pure_eq_ok_iff] at h
  obtain ⟨_, _, rfl⟩ := h
  exact List.cons_ne_nil _ _

/-- Estimates for a mode start somewhere. -/
theorem startPoints_ne_nil {m : Model α} {a : Automaton α} {mode : String} {blowup : Bool}
    {points : List (List α)} (h : m.startPoints a mode blowup = .ok points) : points ≠ [] := by
  rw [startPoints] at h
  split at h
  · exact regionPoints_ne_nil h
  · split at h
    · simp only [bind_eq_ok_iff, liftEval_eq_ok_iff] at h
      obtain ⟨starts, some_start, resets⟩ := h
      have lengths := length_of_mapM resets
      have positive := List.length_pos_of_ne_nil (regionPoints_ne_nil some_start)
      exact List.ne_nil_of_length_pos (lengths ▸ positive)
    · cases h

end Model

namespace Continuization

/-- Estimates start at the start points of the modes that are asked for. -/
theorem mem_starts {c : Continuization α} {m : Model α} {a : Automaton α} {modes : List String}
    {starts : List (StartState α)} (h : c.starts m a modes = .ok starts)
    {start : StartState α} : start ∈ starts ↔ start.mode ∈ modes ∧ ∃ points,
      m.startPoints a start.mode c.blowup = .ok points ∧ start.point ∈ points := by
  simp only [Continuization.starts, bind_eq_ok_iff, pure_eq_ok_iff] at h
  obtain ⟨parts, found, rfl⟩ := h
  have members {part : List (StartState α)} : part ∈ parts ↔ ∃ mode ∈ modes, ∃ points,
      m.startPoints a mode c.blowup = .ok points ∧ points.map (StartState.mk mode) = part := by
    simpa only [bind_eq_ok_iff, pure_eq_ok_iff] using mem_of_mapM found (y := part)
  rw [List.mem_flatten]
  constructor
  · rintro ⟨part, hpart, hstart⟩
    obtain ⟨mode, hmode, points, hpoints, rfl⟩ := members.mp hpart
    obtain ⟨point, hpoint, rfl⟩ := List.mem_map.mp hstart
    exact ⟨hmode, points, hpoints, hpoint⟩
  · rintro ⟨hmode, points, hpoints, hpoint⟩
    exact ⟨_, members.mpr ⟨_, hmode, points, hpoints, rfl⟩, List.mem_map.mpr ⟨_, hpoint, rfl⟩⟩

theorem mem_map_mode_of_starts {c : Continuization α} {m : Model α} {a : Automaton α}
    {modes : List String} {starts : List (StartState α)} (h : c.starts m a modes = .ok starts)
    (mode : String) : mode ∈ starts.map StartState.mode ↔ mode ∈ modes := by
  rw [List.mem_map]
  constructor
  · rintro ⟨start, mem, rfl⟩
    exact ((mem_starts h).mp mem).1
  · intro hmode
    have success := h
    simp only [Continuization.starts, bind_eq_ok_iff, pure_eq_ok_iff] at success
    obtain ⟨parts, found, rfl⟩ := success
    obtain ⟨part, _, made⟩ := exists_of_mapM found hmode
    simp only [bind_eq_ok_iff, pure_eq_ok_iff] at made
    obtain ⟨points, hpoints, -⟩ := made
    obtain ⟨point, hpoint⟩ := List.exists_mem_of_ne_nil _ (m.startPoints_ne_nil hpoints)
    exact ⟨⟨mode, point⟩, (mem_starts h).mpr ⟨hmode, points, hpoints, hpoint⟩, rfl⟩

/-! ## Joining answers -/

/-- Every mode has one range for each of `windows` windows. -/
def Covers (windows : Nat) (found : NameMap (List (Interval α))) : Prop :=
  ∀ mode ranges, found.find? mode = some ranges → ranges.length = windows

theorem mem_keys_joinRanges {found : NameMap (List (Interval α))} {mode name : String}
    {ranges : List (Interval α)} :
    name ∈ (joinRanges found mode ranges).keys ↔ name ∈ found.keys ∨ name = mode := by
  rw [joinRanges]
  split <;> exact NameMap.mem_keys_insert

/-- What holds of the ranges found so far and of an answer holds of the ranges joined with it, if it
carries over to hulls. -/
theorem forall_joinRanges {P : List (Interval α) → Prop}
    (hulls : ∀ known ranges, P known → P ranges → P (List.zipWith Interval.hull known ranges))
    {found : NameMap (List (Interval α))}
    (h : ∀ name known, found.find? name = some known → P known) {mode : String}
    {ranges : List (Interval α)} (hranges : P ranges) :
    ∀ name known, (joinRanges found mode ranges).find? name = some known → P known := by
  intro name known hknown
  rw [joinRanges] at hknown
  split at hknown <;> rw [NameMap.find?_insert] at hknown <;> split at hknown
  · next earlier present _ =>
      cases hknown
      exact hulls earlier ranges (h mode earlier present) hranges
  · exact h name known hknown
  · cases hknown
    exact hranges
  · exact h name known hknown

/-- The fold that joins the answers for all start states. -/
theorem keys_foldl_joinRanges (pairs : List (StartState α × List (Interval α)))
    (found : NameMap (List (Interval α))) (name : String) :
    name ∈ (pairs.foldl (fun found (start, ranges) => joinRanges found start.mode ranges)
      found).keys ↔ name ∈ found.keys ∨ name ∈ pairs.map (·.1.mode) := by
  induction pairs generalizing found with
  | nil => simp
  | cons pair rest ih =>
      rw [List.foldl_cons, ih, mem_keys_joinRanges, List.map_cons, List.mem_cons, or_assoc]

theorem forall_foldl_joinRanges {P : List (Interval α) → Prop}
    (hulls : ∀ known ranges, P known → P ranges → P (List.zipWith Interval.hull known ranges))
    {pairs : List (StartState α × List (Interval α))} (hpairs : ∀ pair ∈ pairs, P pair.2)
    {found : NameMap (List (Interval α))}
    (h : ∀ name known, found.find? name = some known → P known) :
    ∀ name known, (pairs.foldl (fun found (start, ranges) => joinRanges found start.mode ranges)
      found).find? name = some known → P known := by
  induction pairs generalizing found with
  | nil => exact h
  | cons pair rest ih =>
      obtain ⟨first, rest⟩ := List.forall_mem_cons.mp hpairs
      exact ih rest (forall_joinRanges hulls h first)

theorem length_zipWith_hull {windows : Nat} (known ranges : List (Interval α))
    (h : known.length = windows) (h' : ranges.length = windows) :
    (List.zipWith Interval.hull known ranges).length = windows := by
  rw [List.length_zipWith, h, h', Nat.min_self]

/-! ## Ranges of modes -/

theorem length_of_estimateAll {c : Continuization α} {ctx : Context α} {m : Model α}
    {a : Automaton α} {starts : List (StartState α)} {answers : List (List (Interval α))}
    (h : c.estimateAll ctx m a starts = .ok answers) : answers.length = starts.length := by
  rw [estimateAll] at h
  split at h <;> exact length_of_mapM h

/-- The modes that are asked for get ranges, and each gets one per window. -/
theorem modeRanges_shape {c : Continuization α} {ctx : Context α} {m : Model α} {a : Automaton α}
    {modes : List String} {ranges : NameMap (List (Interval α))}
    (h : c.modeRanges ctx m a modes = .ok ranges) :
    (∀ name, name ∈ ranges.keys ↔ name ∈ modes) ∧ Covers c.windows.length ranges := by
  simp only [modeRanges, bind_eq_ok_iff, pure_eq_ok_iff] at h
  obtain ⟨starts, hstarts, answers, hanswers, _, counted, rfl⟩ := h
  have lengths := length_of_estimateAll hanswers
  have counts {answer : List (Interval α)} (mem : answer ∈ answers) :
      answer.length = c.windows.length := by
    have passed := forM_eq_ok_iff.mp counted answer mem
    rw [checkCount] at passed
    split at passed
    · assumption
    · cases passed
  constructor
  · intro name
    have modesOfPairs : (starts.zip answers).map (·.1.mode) = starts.map StartState.mode := by
      conv_rhs => rw [← List.map_fst_zip (Nat.le_of_eq lengths.symm), List.map_map]
      rfl
    rw [keys_foldl_joinRanges, modesOfPairs, mem_map_mode_of_starts hstarts]
    exact or_iff_right (by simp [NameMap.keys, EmptyCollection.emptyCollection, NameMap.empty])
  · refine forall_foldl_joinRanges length_zipWith_hull
      (fun pair hpair => counts (List.of_mem_zip hpair).2) ?_
    intro name known hknown
    cases hknown

end Continuization

end HybridAutomata
