import HybridAutomata.Proofs.Pass.Integrity

/-!
# Pipelines stop at the first failure

A step of a pipeline is a rewriting of a copy followed by the check of that copy, and either of them
can fail. What a pipeline reaches is the end of its longest run of steps that all complete, whatever
its passes do to the copies: a pass that fails halfway, or succeeds with a broken model, leaves no
trace in the model.
-/

namespace HybridAutomata

open Success

variable {α : Type} [Scalar α] {ctx : Context α} {m m' reached : Model α} {failure : Failure α}
variable {step : Pass α × String} {steps others : List (Pass α × String)}

namespace Pipeline

/-- A step that completes: the pass succeeds, and what it made passes the check. -/
structure Completes (ctx : Context α) (step : Pass α × String) (m m' : Model α) : Prop where
  rewritten : step.1.rewrite step.2 ctx m = (m', .ok ())
  sound : m'.validate = .ok ()

/-- The two ways in which a step fails. What the pass made of the copy does not matter. -/
inductive FailsWith (ctx : Context α) (step : Pass α × String) (m : Model α) (failure : Failure α) :
    Prop
  | rewriting (left : Model α) : step.1.rewrite step.2 ctx m = (left, .error failure) →
      FailsWith ctx step m failure
  | check (made : Model α) : step.1.rewrite step.2 ctx m = (made, .ok ()) →
      made.validate = .error failure → FailsWith ctx step m failure

/-- Steps that all complete, each on what the one before it made. -/
inductive Chain (ctx : Context α) : List (Pass α × String) → Model α → Model α → Prop
  | nil (m : Model α) : Chain ctx [] m m
  | cons {step : Pass α × String} {steps : List (Pass α × String)} {m m' reached : Model α} :
      Completes ctx step m m' → Chain ctx steps m' reached → Chain ctx (step :: steps) m reached

/-! ## One step -/

theorem Completes.unique {m'' : Model α} (h : Completes ctx step m m')
    (h' : Completes ctx step m m'') : m' = m'' := by
  have same := h.rewritten.symm.trans h'.rewritten
  exact congrArg Prod.fst same

/-- No step both completes and fails. -/
theorem FailsWith.not_completes (h : FailsWith ctx step m failure) :
    ¬Completes ctx step m m' := by
  intro done
  cases h with
  | rewriting left failed => cases congrArg Prod.snd (failed.symm.trans done.rewritten)
  | check made rewritten failed =>
      obtain rfl : made = m' := congrArg Prod.fst (rewritten.symm.trans done.rewritten)
      cases failed.symm.trans done.sound

/-- A step has one failure at most. -/
theorem FailsWith.unique {other : Failure α} (h : FailsWith ctx step m failure)
    (h' : FailsWith ctx step m other) : failure = other := by
  cases h with
  | rewriting left failed =>
      cases h' with
      | rewriting left' failed' =>
          have same := congrArg Prod.snd (failed.symm.trans failed')
          exact Except.error.inj same
      | check made' rewritten' _ => cases congrArg Prod.snd (failed.symm.trans rewritten')
  | check made rewritten failed =>
      cases h' with
      | rewriting left' failed' => cases congrArg Prod.snd (rewritten.symm.trans failed')
      | check made' rewritten' failed' =>
          obtain rfl : made = made' := congrArg Prod.fst (rewritten.symm.trans rewritten')
          exact Except.error.inj (failed.symm.trans failed')

theorem validate_of_validation (checked : ctx.validation = true) (m : Model α) :
    ctx.validate m = m.validate := by
  rw [Context.validate, checked, if_pos rfl]

/-- With the check switched on, a step succeeds exactly if it completes. -/
theorem run_eq_ok_iff (checked : ctx.validation = true) :
    step.1.run step.2 ctx m = .ok m' ↔ Completes ctx step m m' := by
  constructor
  · intro success
    obtain ⟨made, applied, later⟩ := bind_eq_ok_iff.mp success
    obtain ⟨_, sound, same⟩ := bind_eq_ok_iff.mp later
    obtain rfl := pure_eq_ok_iff.mp same
    rw [validate_of_validation checked] at sound
    exact ⟨Pass.apply_eq_ok_iff.mp applied, sound⟩
  · intro done
    refine bind_eq_ok_iff.mpr ⟨m', Pass.apply_eq_ok_iff.mpr done.rewritten, ?_⟩
    rw [validate_of_validation checked]
    exact bind_eq_ok_iff.mpr ⟨(), done.sound, rfl⟩

/-- With the check switched on, a step fails because its pass does or because the check does. -/
theorem run_eq_error_iff (checked : ctx.validation = true) :
    step.1.run step.2 ctx m = .error failure ↔ FailsWith ctx step m failure := by
  constructor
  · intro failed
    obtain applied | ⟨made, applied, later⟩ := bind_eq_error_iff.mp failed
    · obtain outcome | ⟨_, _, done⟩ := bind_eq_error_iff.mp applied
      · exact .rewriting _ (Prod.ext rfl outcome)
      · cases done
    · obtain broken | ⟨_, _, done⟩ := bind_eq_error_iff.mp later
      · rw [validate_of_validation checked] at broken
        exact .check made (Pass.apply_eq_ok_iff.mp applied) broken
      · cases done
  · intro stop
    cases stop with
    | rewriting left failed =>
        have outcome : (step.1.rewrite step.2 ctx m).2 = .error failure := congrArg Prod.snd failed
        exact bind_eq_error_iff.mpr (.inl (bind_eq_error_iff.mpr (.inl outcome)))
    | check made rewritten broken =>
        rw [← validate_of_validation checked] at broken
        refine bind_eq_error_iff.mpr (.inr ⟨made, Pass.apply_eq_ok_iff.mpr rewritten, ?_⟩)
        exact bind_eq_error_iff.mpr (.inl broken)

/-! ## Chains of steps -/

/-- A chain ends in a valid model if it starts in one. -/
theorem Chain.valid (h : Chain ctx steps m reached) (start : m.Valid) : reached.Valid := by
  induction h with
  | nil => exact start
  | cons done _ ih => exact ih (Model.validate_eq_ok_iff.mp done.sound)

/-- Two chains from one model agree as far as the shorter one goes: a failure after the first of
them bounds the length of the second. -/
theorem Chain.le_of_failure {later : List (Pass α × String)} {far : Model α}
    (h : Chain ctx steps m reached) (stop : FailsWith ctx step reached failure)
    (other : Chain ctx others m far) (initial : others <+: steps ++ step :: later) :
    others <+: steps := by
  induction h generalizing others with
  | nil m =>
      cases other with
      | nil => exact List.nil_prefix
      | cons done _ =>
          obtain ⟨rfl, _⟩ := List.cons_prefix_cons.mp initial
          exact absurd done stop.not_completes
  | cons done _ ih =>
      cases other with
      | nil => exact List.nil_prefix
      | cons done' rest' =>
          obtain ⟨rfl, others⟩ := List.cons_prefix_cons.mp initial
          obtain rfl := done.unique done'
          exact List.cons_prefix_cons.mpr ⟨rfl, ih stop rest' others⟩

/-! ## Runs -/

/-- Where a run gets to, and why it does not get further. The induction is on the steps that are
left: those done are a chain from the model of each call. -/
theorem exists_chain_of_runSteps (checked : ctx.validation = true)
    (steps : List (Pass α × String)) (m : Model α) :
    ∃ done rest, steps = done ++ rest ∧ Chain ctx done m (runSteps ctx m steps).1 ∧
      ((rest = [] ∧ (runSteps ctx m steps).2 = .ok ()) ∨
        ∃ step later failure, rest = step :: later ∧
          (runSteps ctx m steps).2 = .error failure ∧
          FailsWith ctx step (runSteps ctx m steps).1 failure) := by
  induction steps generalizing m with
  | nil => exact ⟨[], [], rfl, .nil m, .inl ⟨rfl, rfl⟩⟩
  | cons step steps ih =>
      rw [runSteps]
      split
      · next m' success =>
          obtain ⟨done, rest, rfl, chain, outcome⟩ := ih m'
          have first := (run_eq_ok_iff checked).mp success
          exact ⟨step :: done, rest, rfl, .cons first chain, outcome⟩
      · next failure failed =>
          have stop := (run_eq_error_iff checked).mp failed
          exact ⟨[], step :: steps, rfl, .nil m, .inr ⟨step, steps, failure, rfl, rfl, stop⟩⟩

/-- A pipeline, of any passes, reaches the end of its longest chain of steps that complete. It
succeeds exactly if that is all of them, and fails exactly with the failure of the step after it;
either way a valid model stays valid. -/
theorem run_reaches_longest_chain (p : Pipeline α) (checked : ctx.validation = true)
    (m : Model α) :
    ∃ done rest, p.steps = done ++ rest ∧ Chain ctx done m (p.run ctx m).1 ∧
      (∀ others far, others <+: p.steps → Chain ctx others m far → others <+: done) ∧
      ((p.run ctx m).2 = .ok () ↔ rest = []) ∧
      (∀ failure, (p.run ctx m).2 = .error failure ↔
        ∃ step later, rest = step :: later ∧ FailsWith ctx step (p.run ctx m).1 failure) ∧
      (m.Valid → (p.run ctx m).1.Valid) := by
  obtain ⟨done, rest, parts, chain, outcome⟩ := exists_chain_of_runSteps checked p.steps m
  refine ⟨done, rest, parts, chain, ?_, ?_, ?_, chain.valid⟩
  · intro others far initial other
    obtain ⟨rfl, _⟩ | ⟨step, later, failure, rfl, _, stop⟩ := outcome
    · rwa [parts, List.append_nil] at initial
    · exact chain.le_of_failure stop other (parts ▸ initial)
  · obtain ⟨rfl, ok⟩ | ⟨step, later, failure, rfl, failed, _⟩ := outcome
    · exact ⟨fun _ => rfl, fun _ => ok⟩
    · constructor
      · intro ok
        cases failed.symm.trans ok
      · intro none
        cases none
  · intro failure
    obtain ⟨rfl, ok⟩ | ⟨step, later, found, rfl, failed, stop⟩ := outcome
    · constructor
      · intro failed
        cases ok.symm.trans failed
      · rintro ⟨_, _, none, _⟩
        cases none
    · constructor
      · intro same
        obtain rfl := Except.error.inj (failed.symm.trans same)
        exact ⟨step, later, rfl, stop⟩
      · rintro ⟨_, _, same, other⟩
        obtain ⟨rfl, rfl⟩ := List.cons.inj same
        exact failed.trans (congrArg Except.error (stop.unique other))

end Pipeline

/-- A pass that takes all bad states away. -/
def clearForbidden : Pass (Extended ℚ) where
  flag := "clear_forbidden"
  title := "Clear Forbidden Region"
  help := []
  rewrite _ _ m := ({ m with forbidden := ∅ }, .ok ())

/-- A pass that moves the start to a mode that does not exist yet, and then fails to build it. -/
def restart : Pass (Extended ℚ) where
  flag := "restart"
  title := "Restart In New Mode"
  help := []
  rewrite _ _ m :=
    ({ m with init := .ofList [("ready", .bool true)] },
      .error (.unsupported .configuration .noSuchMode))

def restarting : Pipeline (Extended ℚ) := ⟨[(clearForbidden, ""), (restart, ""), (.simplify, "")]⟩

/-- The shuttle loses its bad states and keeps its start, and it is still valid. -/
theorem shuttle_reaches_longest_chain :
    (Context.standard : Context (Extended ℚ)).validation = true ∧ shuttleModel.Valid ∧
    (restarting.run .standard shuttleModel).2 =
      .error (.unsupported .configuration .noSuchMode) ∧
    (restarting.run .standard shuttleModel).1 = { shuttleModel with forbidden := ∅ } ∧
    (restarting.run .standard shuttleModel).1.Valid := by
  have checked : (Context.standard : Context (Extended ℚ)).validation = true := rfl
  have valid : shuttleModel.Valid := by
    rw [Model.Valid]
    decide +kernel
  have cleared : Model.Valid { shuttleModel with forbidden := ∅ } := by
    rw [Model.Valid]
    decide +kernel
  have done : Pipeline.Completes .standard (clearForbidden, "") shuttleModel
      { shuttleModel with forbidden := ∅ } := ⟨rfl, Model.validate_eq_ok_iff.mpr cleared⟩
  have first := (Pipeline.run_eq_ok_iff checked).mpr done
  have reached : restarting.run .standard shuttleModel =
      ({ shuttleModel with forbidden := ∅ }, .error (.unsupported .configuration .noSuchMode)) := by
    rw [Pipeline.run, restarting, Pipeline.runSteps]
    simp only [first]
    rfl
  obtain ⟨_, _, _, _, _, _, _, keeps⟩ :=
    Pipeline.run_reaches_longest_chain restarting checked shuttleModel
  exact ⟨checked, valid, congrArg Prod.snd reached, congrArg Prod.fst reached, keeps valid⟩

end HybridAutomata
