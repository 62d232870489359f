import HybridAutomata.Proofs.Continuization.Estimate
import HybridAutomata.Proofs.Continuization.Names
import HybridAutomata.Proofs.Success

/-!
# What a synthesis makes

A successful synthesis is opened once, here. `WindowOf` says what is known of one window: the mode
it is made from, its plan, and its window mode. The modes, the jumps and the report of the result
are those of the windows, beside the modes that stay. Everything that is shown of a continuized
automaton is read off these lemmas.
-/

namespace HybridAutomata

open Success

variable {α : Type} [Scalar α]

namespace Continuization

/-! ## One window -/

omit [Scalar α] in
theorem checkNames_eq_ok_iff {a : Automaton α} {mode : String} {index : Nat} :
    checkNames a mode (windowName mode index) = .ok () ↔
      ∀ name ∈ windowNames mode index, name ∈ a.modes.keys → name = mode := by
  rw [checkNames]
  split
  · next name found =>
      have made := List.mem_of_find?_eq_some found
      have taken := List.find?_some found
      simp only [Bool.and_eq_true, bne_iff_ne, NameMap.contains_iff] at taken
      refine iff_of_false (by simp) ?_
      intro free
      exact taken.1 (free name made taken.2)
  · next found =>
      refine iff_of_true rfl ?_
      intro name made taken
      by_contra ne
      have free := List.find?_eq_none.mp found name made
      rw [Bool.and_eq_true, bne_iff_ne, NameMap.contains_iff] at free
      exact free ⟨ne, taken⟩

/-- A plan is made exactly if the names are free and the range can be bloated; it then holds the
bloated range and the deviation computed from it. -/
theorem planWindow_eq_ok_iff {c : Continuization α} {a : Automaton α} {mode : String}
    {index : Nat} {window range : Interval α} {bloat : α} {plan : WindowPlan α} :
    c.planWindow a mode index window range bloat = .ok plan ↔
      checkNames a mode (windowName mode index) = .ok () ∧ ∃ bloated deviation,
        range.bloat bloat = .ok bloated ∧ c.deviation bloated = .ok deviation ∧
        plan = {
          index
          range := { mode, windowMode := windowName mode index, window, raw := range, bloated }
          deviation
          nextMode :=
            if index + 1 < c.windows.length then some (windowName mode (index + 1))
            else none } := by
  simp only [planWindow, bind_eq_ok_iff, pure_eq_ok_iff, liftFault_eq_ok_iff]
  constructor
  · rintro ⟨_, names, bloated, hbloated, deviation, hdeviation, rfl⟩
    exact ⟨names, bloated, deviation, hbloated, hdeviation, rfl⟩
  · rintro ⟨names, bloated, deviation, hbloated, hdeviation, rfl⟩
    exact ⟨_, names, bloated, hbloated, deviation, hdeviation, rfl⟩

theorem fst_of_widenRate {c : Continuization α} {mode : String} {deviation : Interval α}
    {entry entry' : String × Perturbed α} (h : c.widenRate mode deviation entry = .ok entry') :
    entry'.1 = entry.1 := by
  rw [widenRate] at h
  split at h
  · split at h
    · simp only [bind_eq_ok_iff, pure_eq_ok_iff] at h
      obtain ⟨_, _, _, _, rfl⟩ := h
      rfl
    · cases h
  · cases h
    rfl

theorem widenRate_of_not_mentions {c : Continuization α} {mode y : String}
    {deviation : Interval α} {rate : Perturbed α} (h : rate.expr.mentions c.sampled = false) :
    c.widenRate mode deviation (y, rate) = .ok (y, rate) := by
  simp [widenRate, h]

/-- A rate that mentions the sampled variable is widened by its coefficient times the deviation. -/
theorem widenRate_eq_ok_iff_of_mentions {c : Continuization α} {mode y : String}
    {deviation : Interval α} {rate rate' : Perturbed α}
    (mentions : rate.expr.mentions c.sampled = true) :
    c.widenRate mode deviation (y, rate) = .ok (y, rate') ↔
      ∃ coefficient extra noise, rate.expr.linearCoefficient? c.sampled = some coefficient ∧
        deviation.scale coefficient = .ok extra ∧ rate.noiseOrZero.add extra = .ok noise ∧
        rate' = { rate with noise := some noise } := by
  simp only [widenRate, mentions, ↓reduceIte]
  split
  · next coefficient found =>
      simp only [bind_eq_ok_iff, pure_eq_ok_iff, liftFault_eq_ok_iff, Perturbed.widen,
        Prod.mk.injEq, true_and]
      constructor
      · rintro ⟨extra, scaled, _, ⟨noise, added, rfl⟩, rfl⟩
        exact ⟨coefficient, extra, noise, found, scaled, added, rfl⟩
      · rintro ⟨_, extra, noise, found', scaled, added, rfl⟩
        obtain rfl := Option.some.inj (found.symm.trans found')
        exact ⟨extra, scaled, _, ⟨noise, added, rfl⟩, rfl⟩
  · next none => simp [none]

/-- Widening keeps the formula of a rate. -/
theorem expr_of_widenRate {c : Continuization α} {mode y : String} {deviation : Interval α}
    {rate rate' : Perturbed α} (h : c.widenRate mode deviation (y, rate) = .ok (y, rate')) :
    rate'.expr = rate.expr := by
  cases mentions : rate.expr.mentions c.sampled with
  | false =>
      rw [widenRate_of_not_mentions mentions] at h
      cases h
      rfl
  | true =>
      obtain ⟨_, _, _, _, _, _, rfl⟩ := (widenRate_eq_ok_iff_of_mentions mentions).mp h
      rfl

theorem mem_entries_widenFlow {c : Continuization α} {mode : String} {deviation : Interval α}
    {flow widened : NameMap (Perturbed α)} (h : c.widenFlow mode deviation flow = .ok widened)
    {entry : String × Perturbed α} :
    entry ∈ widened.entries ↔
      ∃ original ∈ flow.entries, c.widenRate mode deviation original = .ok entry := by
  simp only [widenFlow, bind_eq_ok_iff, pure_eq_ok_iff] at h
  obtain ⟨entries, success, rfl⟩ := h
  have names := map_eq_of_mapM Prod.fst Prod.fst (fun _ _ => fst_of_widenRate) success
  rw [NameMap.entries_ofList (names ▸ flow.nodup), mem_of_mapM success]

/-- A rate is widened, or there is none. -/
def Widened (c : Continuization α) (mode : String) (deviation : Interval α) (y : String)
    (before after : Option (Perturbed α)) : Prop :=
  (before = none ∧ after = none) ∨ ∃ rate rate', before = some rate ∧ after = some rate' ∧
    c.widenRate mode deviation (y, rate) = .ok (y, rate')

theorem find?_widenFlow {c : Continuization α} {mode : String} {deviation : Interval α}
    {flow widened : NameMap (Perturbed α)} (h : c.widenFlow mode deviation flow = .ok widened)
    (y : String) : c.Widened mode deviation y (flow.find? y) (widened.find? y) := by
  have success := h
  simp only [widenFlow, bind_eq_ok_iff, pure_eq_ok_iff] at success
  obtain ⟨entries, success, -⟩ := success
  cases found : flow.find? y with
  | none =>
      refine .inl ⟨rfl, ?_⟩
      rw [NameMap.find?_eq_none_iff]
      intro mem
      obtain ⟨rate', hrate'⟩ := NameMap.mem_keys_iff.mp mem
      obtain ⟨⟨key, rate⟩, hentry, widen⟩ :=
        (mem_entries_widenFlow h).mp (NameMap.find?_eq_some_iff.mp hrate')
      obtain rfl := fst_of_widenRate widen
      rw [NameMap.find?_eq_some_iff.mpr hentry] at found
      cases found
  | some rate =>
      have hentry := NameMap.find?_eq_some_iff.mp found
      obtain ⟨⟨key, rate'⟩, _, widen⟩ := exists_of_mapM success hentry
      obtain rfl : key = y := fst_of_widenRate widen
      exact .inr ⟨rate, rate', rfl, NameMap.find?_eq_some_iff.mpr
        ((mem_entries_widenFlow h).mpr ⟨_, hentry, widen⟩), widen⟩

/-- A window mode keeps all of its mode but the name, the widened rates and the time limits. -/
theorem windowMode_eq_ok {c : Continuization α} {clock name : String} {m w : Mode α}
    {plan : WindowPlan α} (h : c.windowMode clock name m plan = .ok w) :
    w.name = plan.range.windowMode ∧ w.urgent = m.urgent ∧ w.hasFlow = m.hasFlow ∧
      w.invariant = c.windowInvariant clock plan.index plan.range.window m.invariant ∧
      ∀ y, c.Widened name plan.deviation y (m.flowOf? y) (w.flowOf? y) := by
  obtain ⟨modeName, flow, invariant, urgent⟩ := m
  cases flow with
  | none =>
      simp only [windowMode, bind_eq_ok_iff, pure_eq_ok_iff] at h
      obtain ⟨_, rfl, rfl⟩ := h
      exact ⟨rfl, rfl, rfl, rfl, fun y => .inl ⟨rfl, rfl⟩⟩
  | some flow =>
      simp only [windowMode, bind_eq_ok_iff, pure_eq_ok_iff, map_eq_ok_iff] at h
      obtain ⟨_, ⟨widened, success, rfl⟩, rfl⟩ := h
      exact ⟨rfl, rfl, rfl, rfl, fun y => find?_widenFlow success y⟩

/-- The window `index` of the mode that is stored as `name`: the mode, the rate of the sampled
variable in it, the plan, and the window mode. -/
structure WindowOf (c : Continuization α) (a : Automaton α) (clock : String)
    (ranges : NameMap (List (Interval α))) (name : String) (index : Nat) (m : Mode α)
    (rate : Perturbed α) (plan : WindowPlan α) (w : Mode α) : Prop where
  mode : a.mode? name = some m
  sampled : m.flowOf? c.sampled = some rate
  names : ∀ made ∈ windowNames name index, made ∈ a.modes.keys → made = name
  planIndex : plan.index = index
  rangeMode : plan.range.mode = name
  rangeWindowMode : plan.range.windowMode = windowName name index
  window : c.windows[index]? = some plan.range.window
  raw : ∃ found, ranges.find? name = some found ∧ found[index]? = some plan.range.raw
  bloated : ∃ bloat, c.bloats[index]? = some bloat ∧
    plan.range.raw.bloat bloat = .ok plan.range.bloated
  deviation : c.deviation plan.range.bloated = .ok plan.deviation
  nextMode : plan.nextMode =
    if index + 1 < c.windows.length then some (windowName name (index + 1)) else none
  made : c.windowMode clock name m plan = .ok w

/-- What stands for a window: its modes, the jumps that begin in it, and its report. -/
def windowPart (c : Continuization α) (clock : String) (rate : Perturbed α) (plan : WindowPlan α)
    (w : Mode α) : ModeWindows α where
  modes := modesOf w
  jumps := windowJumps clock (c.watched rate.expr) plan
  report := [plan.range]

theorem expandWindow_eq_ok_iff {c : Continuization α} {a : Automaton α} {clock name : String}
    {m : Mode α} {rate : Perturbed α} {index : Nat} {window range : Interval α} {bloat : α}
    {part : ModeWindows α} :
    c.expandWindow a clock name m rate.expr index window range bloat = .ok part ↔
      ∃ plan w, c.planWindow a name index window range bloat = .ok plan ∧
        c.windowMode clock name m plan = .ok w ∧ part = c.windowPart clock rate plan w := by
  simp only [expandWindow, bind_eq_ok_iff, pure_eq_ok_iff, windowPart]
  constructor
  · rintro ⟨plan, hplan, w, hw, rfl⟩
    exact ⟨plan, w, hplan, hw, rfl⟩
  · rintro ⟨plan, w, hplan, hw, rfl⟩
    exact ⟨plan, hplan, w, hw, rfl⟩

namespace WindowOf

variable {c : Continuization α} {a : Automaton α} {clock name : String}
  {ranges : NameMap (List (Interval α))} {index : Nat} {m w : Mode α} {rate : Perturbed α}
  {plan : WindowPlan α}

/-- A plan that is made determines its window. -/
theorem of_plan {window range : Interval α} {bloat : α} {found : List (Interval α)}
    (hm : a.mode? name = some m) (hrate : m.flowOf? c.sampled = some rate)
    (hwindow : c.windows[index]? = some window) (hfound : ranges.find? name = some found)
    (hrange : found[index]? = some range) (hbloat : c.bloats[index]? = some bloat)
    (planned : c.planWindow a name index window range bloat = .ok plan)
    (made : c.windowMode clock name m plan = .ok w) :
    WindowOf c a clock ranges name index m rate plan w := by
  obtain ⟨names, bloated, deviation, hbloated, hdeviation, eq⟩ := planWindow_eq_ok_iff.mp planned
  exact {
    mode := hm
    sampled := hrate
    names := checkNames_eq_ok_iff.mp names
    planIndex := by rw [eq]
    rangeMode := by rw [eq]
    rangeWindowMode := by rw [eq]
    window := by rw [eq]; exact hwindow
    raw := ⟨found, hfound, by rw [eq]; exact hrange⟩
    bloated := ⟨bloat, hbloat, by rw [eq]; exact hbloated⟩
    deviation := by rw [eq]; exact hdeviation
    nextMode := by rw [eq]
    made }

/-- A window was planned with the amount for it. -/
theorem planned (h : WindowOf c a clock ranges name index m rate plan w) :
    ∃ bloat, c.bloats[index]? = some bloat ∧
      c.planWindow a name index plan.range.window plan.range.raw bloat = .ok plan := by
  obtain ⟨bloat, hbloat, hbloated⟩ := h.bloated
  refine ⟨bloat, hbloat, planWindow_eq_ok_iff.mpr
    ⟨checkNames_eq_ok_iff.mpr h.names, _, _, hbloated, h.deviation, ?_⟩⟩
  rw [← h.nextMode, ← h.rangeWindowMode]
  obtain ⟨_, ⟨_, _, _, _, _⟩, _, _⟩ := plan
  obtain rfl := h.planIndex
  obtain rfl := h.rangeMode
  rfl

theorem modeName (h : WindowOf c a clock ranges name index m rate plan w) :
    w.name = windowName name index :=
  (windowMode_eq_ok h.made).1.trans h.rangeWindowMode

theorem lt_windows (h : WindowOf c a clock ranges name index m rate plan w) :
    index < c.windows.length :=
  (List.getElem?_eq_some_iff.mp h.window).1

end WindowOf

/-! ## One mode -/

omit [Scalar α] in
theorem keys_modesOf {w : Mode α} {name : String} {index : Nat}
    (h : w.name = windowName name index) : (modesOf w).map Prod.fst = windowNames name index := by
  rw [modesOf, h]
  rfl

section

variable {c : Continuization α} {a : Automaton α} {clock name : String}
  {ranges : NameMap (List (Interval α))} {m : Mode α} {found : List (Interval α)}
  {parts : List (ModeWindows α)}

theorem expandMode_of_not_mem (h : name ∉ ranges.keys) :
    c.expandMode a clock ranges (name, m) = .ok [{ modes := [(name, m)] }] := by
  simp [expandMode, NameMap.find?_eq_none_iff.mpr h]

/-- A mode with ranges gives the sampled variable a rate, and its windows are made in order. -/
theorem expandMode_eq_ok (hfound : ranges.find? name = some found)
    (h : c.expandMode a clock ranges (name, m) = .ok parts) :
    ∃ rate, m.flowOf? c.sampled = some rate ∧
      (c.windows.zip (found.zip c.bloats)).zipIdx.mapM (fun ((window, range, bloat), index) =>
        c.expandWindow a clock name m rate.expr index window range bloat) = .ok parts := by
  simp only [expandMode, hfound] at h
  split at h
  · cases h
  · next rate hrate => exact ⟨rate, hrate, h⟩

theorem mem_zipped {window range : Interval α} {bloat : α} {index : Nat} :
    ((window, range, bloat), index) ∈ (c.windows.zip (found.zip c.bloats)).zipIdx ↔
      c.windows[index]? = some window ∧ found[index]? = some range ∧
        c.bloats[index]? = some bloat := by
  simp only [List.mem_zipIdx_iff_getElem?, List.getElem?_zip_eq_some]

/-- What takes the place of a mode with ranges is made of windows. -/
theorem mem_expandMode (hm : a.mode? name = some m) (hfound : ranges.find? name = some found)
    (h : c.expandMode a clock ranges (name, m) = .ok parts) {part : ModeWindows α} :
    part ∈ parts ↔ ∃ index rate plan w, WindowOf c a clock ranges name index m rate plan w ∧
      part = c.windowPart clock rate plan w := by
  obtain ⟨rate, hrate, windows⟩ := expandMode_eq_ok hfound h
  rw [mem_of_mapM windows]
  constructor
  · rintro ⟨⟨⟨window, range, bloat⟩, index⟩, mem, success⟩
    obtain ⟨plan, w, planned, made, rfl⟩ := expandWindow_eq_ok_iff.mp success
    obtain ⟨hwindow, hrange, hbloat⟩ := mem_zipped.mp mem
    exact ⟨index, rate, plan, w, .of_plan hm hrate hwindow hfound hrange hbloat planned made, rfl⟩
  · rintro ⟨index, rate', plan, w, window, rfl⟩
    obtain ⟨found', hfound', hrange⟩ := window.raw
    obtain ⟨bloat, hbloat, planned⟩ := window.planned
    obtain rfl : rate' = rate := Option.some.inj (window.sampled.symm.trans hrate)
    obtain rfl : found' = found := Option.some.inj (hfound'.symm.trans hfound)
    exact ⟨((plan.range.window, plan.range.raw, bloat), index),
      mem_zipped.mpr ⟨window.window, hrange, hbloat⟩,
      expandWindow_eq_ok_iff.mpr ⟨plan, w, planned, window.made, rfl⟩⟩

/-- A mode with ranges has all its windows. -/
theorem exists_window (hm : a.mode? name = some m) (hfound : ranges.find? name = some found)
    (lengths : found.length = c.windows.length) (hbloats : c.bloats.length = c.windows.length)
    (h : c.expandMode a clock ranges (name, m) = .ok parts) {index : Nat}
    (hindex : index < c.windows.length) :
    ∃ rate plan w, WindowOf c a clock ranges name index m rate plan w := by
  obtain ⟨rate, hrate, windows⟩ := expandMode_eq_ok hfound h
  have hwindow := List.getElem?_eq_getElem hindex
  have hrange := List.getElem?_eq_getElem (lengths ▸ hindex)
  have hbloat := List.getElem?_eq_getElem (hbloats ▸ hindex)
  obtain ⟨part, _, success⟩ := exists_of_mapM windows (mem_zipped.mpr ⟨hwindow, hrange, hbloat⟩)
  obtain ⟨plan, w, planned, made, rfl⟩ := expandWindow_eq_ok_iff.mp success
  exact ⟨rate, plan, w, .of_plan hm hrate hwindow hfound hrange hbloat planned made⟩

/-- The names that take the place of a mode, in order. -/
theorem keys_expandMode (covers : Covers c.windows.length ranges)
    (hbloats : c.bloats.length = c.windows.length)
    (h : c.expandMode a clock ranges (name, m) = .ok parts) :
    parts.flatMap (fun part => part.modes.map Prod.fst) =
      if ranges.contains name then madeNames c.windows.length name else [name] := by
  by_cases mem : name ∈ ranges.keys
  · obtain ⟨found, hfound⟩ := NameMap.mem_keys_iff.mp mem
    obtain ⟨rate, _, windows⟩ := expandMode_eq_ok hfound h
    have named := map_eq_of_mapM (windowNames name ∘ Prod.snd)
      (fun part : ModeWindows α => part.modes.map Prod.fst) (fun x part success => ?_) windows
    · have indices : (c.windows.zip (found.zip c.bloats)).zipIdx.map Prod.snd =
          List.range c.windows.length := by
        rw [List.zipIdx_map_snd, List.range_eq_range', List.length_zip, List.length_zip,
          covers name found hfound, hbloats, Nat.min_self, Nat.min_self]
      rw [if_pos (NameMap.contains_iff.mpr mem), List.flatMap, named, ← List.map_map, indices]
      rfl
    · obtain ⟨plan, w, planned, made, rfl⟩ := expandWindow_eq_ok_iff.mp success
      refine keys_modesOf ((windowMode_eq_ok made).1.trans ?_)
      obtain ⟨_, _, _, _, _, rfl⟩ := planWindow_eq_ok_iff.mp planned
      rfl
  · rw [expandMode_of_not_mem mem] at h
    cases h
    simp [NameMap.contains_iff, mem]

end

/-! ## A whole automaton -/

/-- The parts of which a continuized automaton is made: one for every mode that stays, and one for
every window of the modes that do not. -/
structure Synthesized (c : Continuization α) (a : Automaton α) (clock : String)
    (ranges : NameMap (List (Interval α))) (parts : List (ModeWindows α)) (a' : Automaton α)
    (report : List (WindowRange α)) : Prop where
  scope : a'.toScope = a.toScope
  entries : a'.modes.entries = parts.flatMap ModeWindows.modes
  transitions : a'.transitions =
    a.transitions.flatMap (windowTransitions clock c.windows ranges.contains) ++
      parts.flatMap ModeWindows.jumps
  report : report = parts.flatMap ModeWindows.report
  keys : a'.modes.keys = namesAfter c.windows.length ranges.contains a.modes.keys
  members : ∀ part, part ∈ parts ↔
    (∃ name m, a.mode? name = some m ∧ name ∉ ranges.keys ∧ part = { modes := [(name, m)] }) ∨
      ∃ name index m rate plan w, WindowOf c a clock ranges name index m rate plan w ∧
        part = c.windowPart clock rate plan w
  windows : ∀ name ∈ ranges.keys, ∀ m, a.mode? name = some m → ∀ index < c.windows.length,
    ∃ rate plan w, WindowOf c a clock ranges name index m rate plan w

/-- A successful synthesis puts the parts together, and no two of them share a name. -/
theorem synthesize_eq_ok {c : Continuization α} {m m' : Model α} {a : Automaton α}
    {clock : String} {ranges : NameMap (List (Interval α))} {report : List (WindowRange α)}
    (covers : Covers c.windows.length ranges) (hbloats : c.bloats.length = c.windows.length)
    (h : c.synthesize m a clock ranges = .ok (m', report)) :
    ∃ a' parts, Synthesized c a clock ranges parts a' report ∧
      m' = { m.withAutomaton a' with
        forbidden := c.forbiddenRegions ranges.contains m.forbidden } := by
  simp only [synthesize, bind_eq_ok_iff, pure_eq_ok_iff, Prod.mk.injEq] at h
  obtain ⟨partss, expanded, rfl, rfl⟩ := h
  have entryOf {name : String} {m : Mode α} (found : a.mode? name = some m) :
      (name, m) ∈ a.modes.entries := NameMap.find?_eq_some_iff.mp found
  have windows : ∀ name ∈ ranges.keys, ∀ m, a.mode? name = some m → ∀ index < c.windows.length,
      ∃ rate plan w, WindowOf c a clock ranges name index m rate plan w := by
    intro name mem m hm index hindex
    obtain ⟨found, hfound⟩ := NameMap.mem_keys_iff.mp mem
    obtain ⟨parts, _, success⟩ := exists_of_mapM expanded (entryOf hm)
    exact exists_window hm hfound (covers name found hfound) hbloats success hindex
  have keys : (partss.flatten.flatMap ModeWindows.modes).map Prod.fst =
      namesAfter c.windows.length ranges.contains a.modes.keys := by
    have named := map_eq_of_mapM
      (fun entry : String × Mode α =>
        if ranges.contains entry.1 then madeNames c.windows.length entry.1 else [entry.1])
      (fun parts : List (ModeWindows α) => parts.flatMap fun part => part.modes.map Prod.fst)
      (fun entry parts success => keys_expandMode covers hbloats success) expanded
    rw [List.map_flatMap, ← List.flatMap_id (L := partss), List.flatMap_assoc, namesAfter,
      NameMap.keys, List.flatMap_map]
    exact congrArg List.flatten named
  have fresh : ∀ name ∈ a.modes.keys, ranges.contains name = true →
      Fresh a.modes.keys c.windows.length name := by
    intro name mem continuized index hindex
    obtain ⟨m, hm⟩ := NameMap.mem_keys_iff.mp mem
    obtain ⟨rate, plan, w, window⟩ :=
      windows name (NameMap.contains_iff.mp continuized) m hm index hindex
    exact window.names
  have entries := NameMap.entries_ofList (keys ▸ namesAfter_nodup a.modes.nodup fresh)
  refine ⟨{ a with
      modes := .ofList (partss.flatten.flatMap ModeWindows.modes)
      transitions :=
        a.transitions.flatMap (windowTransitions clock c.windows ranges.contains) ++
          partss.flatten.flatMap ModeWindows.jumps },
    partss.flatten, ⟨rfl, entries, rfl, rfl, ?_, ?_, windows⟩, rfl⟩
  · rw [NameMap.keys, entries, keys]
  · intro part
    rw [List.mem_flatten]
    constructor
    · rintro ⟨parts, mem, hpart⟩
      obtain ⟨⟨name, m⟩, hentry, success⟩ := (mem_of_mapM expanded).mp mem
      have hm : a.mode? name = some m := NameMap.find?_eq_some_iff.mpr hentry
      by_cases continuized : name ∈ ranges.keys
      · obtain ⟨found, hfound⟩ := NameMap.mem_keys_iff.mp continuized
        obtain ⟨index, rate, plan, w, window, rfl⟩ := (mem_expandMode hm hfound success).mp hpart
        exact .inr ⟨name, index, m, rate, plan, w, window, rfl⟩
      · rw [expandMode_of_not_mem continuized] at success
        cases success
        exact .inl ⟨name, m, hm, continuized, List.mem_singleton.mp hpart⟩
    · rintro (⟨name, m, hm, stays, rfl⟩ | ⟨name, index, m, rate, plan, w, window, rfl⟩)
      · obtain ⟨parts, mem, success⟩ := exists_of_mapM expanded (entryOf hm)
        rw [expandMode_of_not_mem stays] at success
        cases success
        exact ⟨_, mem, List.mem_singleton_self _⟩
      · obtain ⟨parts, mem, success⟩ := exists_of_mapM expanded (entryOf window.mode)
        obtain ⟨found, hfound, _⟩ := window.raw
        exact ⟨parts, mem, (mem_expandMode window.mode hfound success).mpr
          ⟨index, rate, plan, w, window, rfl⟩⟩

namespace Synthesized

variable {c : Continuization α} {a a' : Automaton α} {clock : String}
  {ranges : NameMap (List (Interval α))} {parts : List (ModeWindows α)}
  {report : List (WindowRange α)}

/-- A mode of the result stays from before, or was made for a window. -/
theorem mode?_eq_some_iff (h : Synthesized c a clock ranges parts a' report) {key : String}
    {mode : Mode α} :
    a'.mode? key = some mode ↔ (a.mode? key = some mode ∧ key ∉ ranges.keys) ∨
      ∃ name index m rate plan w, WindowOf c a clock ranges name index m rate plan w ∧
        (key, mode) ∈ modesOf w := by
  rw [Automaton.mode?, NameMap.find?_eq_some_iff, h.entries, List.mem_flatMap]
  constructor
  · rintro ⟨part, hpart, mem⟩
    obtain ⟨name, m, hm, stays, rfl⟩ | ⟨name, index, m, rate, plan, w, window, rfl⟩ :=
        (h.members part).mp hpart
    · cases List.mem_singleton.mp mem
      exact .inl ⟨hm, stays⟩
    · exact .inr ⟨name, index, m, rate, plan, w, window, mem⟩
  · rintro (⟨hm, stays⟩ | ⟨name, index, m, rate, plan, w, window, mem⟩)
    · exact ⟨_, (h.members _).mpr (.inl ⟨key, mode, hm, stays, rfl⟩), List.mem_singleton_self _⟩
    · exact ⟨_, (h.members _).mpr (.inr ⟨name, index, m, rate, plan, w, window, rfl⟩), mem⟩

theorem mem_jumps (h : Synthesized c a clock ranges parts a' report) {t : Transition α} :
    t ∈ parts.flatMap ModeWindows.jumps ↔
      ∃ name index m rate plan w, WindowOf c a clock ranges name index m rate plan w ∧
        t ∈ windowJumps clock (c.watched rate.expr) plan := by
  rw [List.mem_flatMap]
  constructor
  · rintro ⟨part, hpart, mem⟩
    obtain ⟨name, m, hm, stays, rfl⟩ | ⟨name, index, m, rate, plan, w, window, rfl⟩ :=
        (h.members part).mp hpart
    · cases mem
    · exact ⟨name, index, m, rate, plan, w, window, mem⟩
  · rintro ⟨name, index, m, rate, plan, w, window, mem⟩
    exact ⟨_, (h.members _).mpr (.inr ⟨name, index, m, rate, plan, w, window, rfl⟩), mem⟩

/-- The report lists the windows that were made. -/
theorem mem_report (h : Synthesized c a clock ranges parts a' report) {r : WindowRange α} :
    r ∈ report ↔ ∃ name index m rate plan w,
      WindowOf c a clock ranges name index m rate plan w ∧ r = plan.range := by
  rw [h.report, List.mem_flatMap]
  constructor
  · rintro ⟨part, hpart, mem⟩
    obtain ⟨name, m, hm, stays, rfl⟩ | ⟨name, index, m, rate, plan, w, window, rfl⟩ :=
        (h.members part).mp hpart
    · cases mem
    · exact ⟨name, index, m, rate, plan, w, window, List.mem_singleton.mp mem⟩
  · rintro ⟨name, index, m, rate, plan, w, window, rfl⟩
    exact ⟨_, (h.members _).mpr (.inr ⟨name, index, m, rate, plan, w, window, rfl⟩),
      List.mem_singleton_self _⟩

/-- A window mode is found under the name of its window. -/
theorem mode?_windowName (h : Synthesized c a clock ranges parts a' report) {name : String}
    {index : Nat} {m w : Mode α} {rate : Perturbed α} {plan : WindowPlan α}
    (window : WindowOf c a clock ranges name index m rate plan w) :
    a'.mode? (windowName name index) = some w :=
  h.mode?_eq_some_iff.mpr (.inr ⟨name, index, m, rate, plan, w, window, by
    rw [modesOf, window.modeName]; exact List.mem_cons_self⟩)

end Synthesized

end Continuization

end HybridAutomata
