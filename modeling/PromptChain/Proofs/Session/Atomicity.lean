import PromptChain.Session.Program
import PromptChain.Proofs.Node.ProperEdits
import PromptChain.Proofs.Session.Edits
import PromptChain.Proofs.Session.Readiness

/-!
# Failed operations and discarded edits

A step checks everything before it sets the first field. So what it does field by field is what it
does at once, and a step that fails leaves every field as it was. Edits keep off the saved side, to
which a reset goes back.
-/

set_option autoImplicit false

namespace PromptChain.Session

section Program

variable {α β : Type}

private theorem run_bind_lift (x : Except Fault α) (f : α → Program β) (s : Session) :
    ((liftM x >>= f : Program β).run).run s = match x with
      | .ok a => (f a).run.run s
      | .error cause => (.error cause, s) := by
  cases x <;> rfl

private theorem run_bind_get (f : Session → Program β) (s : Session) :
    ((get >>= f : Program β).run).run s = (f s).run.run s := rfl

end Program

/-- What a step does at once is what its program does field by field, also when it fails on the
way. -/
theorem perform_eq_execute (s : Session) (step : Step) :
    s.perform step = (.ofOutcome (s.execute step).1, (s.execute step).2) := by
  cases step with
  | insert kindName parent index =>
    rw [perform, insert, execute, Step.program, run_bind_lift]
    cases liftFault (Kind.ofName kindName) with
    | error cause => rfl
    | ok kind =>
      simp only [run_bind_get, run_bind_lift, ok_bind]
      cases liftFault (Node.nextId s.working s.nextId) with
      | error cause => rfl
      | ok newId =>
        simp only [ok_bind]
        cases ((Node.insert s.working newId kind parent index).find? newId).isNone <;> rfl
  | update node =>
    rw [perform, update, execute, Step.program, run_bind_get]
    cases s.working.bind (Node.replace? node) <;> rfl
  | load name r =>
    rw [perform, load, execute, Step.program, run_bind_lift]
    cases liftFault r.chain.checkIds with
    | error cause => rfl
    | ok _ =>
      simp only [run_bind_lift, ok_bind]
      cases liftFault (Node.nextId (some r.chain) 0) <;> rfl
  | build =>
    rw [perform, build, execute, Step.program, run_bind_get]
    cases s.isActive with
    | false => rfl
    | true =>
      simp only [Bool.not_true, Bool.false_eq_true, if_false, run_bind_get]
      cases s.working <;> rfl
  | _ => rfl

theorem perform_of_refused {s t : Session} {step : Step}
    (h : s.perform step = (.inserted none, t)) : t = s := by
  cases step with
  | insert kind parent index =>
    rw [perform] at h
    split at h
    · next given u hinsert =>
      obtain ⟨hgiven, rfl⟩ := Prod.mk.inj h
      rcases insert_eq_ok hinsert with ⟨-, hsame⟩ | ⟨k, newId, -, -, rfl, -⟩
      · exact hsame
      · simp at hgiven
    · simp at h
  | update node =>
    rw [perform] at h
    split at h <;> simp at h
  | load name r =>
    rw [perform] at h
    split at h <;> simp at h
  | build =>
    rw [perform] at h
    split at h <;> simp at h
  | _ => simp [perform] at h

private theorem perform_build (s : Session) : (s.perform .build).2 = s := by
  rw [perform]
  split <;> rfl

/-- A step that fails, an insertion that is refused and a build leave every field of a session as it
was, although fields are set one by one. Edits and builds with a reset after them leave the saved
side as it was and the working side the same as the saved one. The session is then ready; all that
is asked for is that its maps, as maps do, name every key once. -/
theorem unchanged_of_failed_and_reset_run (s : Session) :
    (∀ step outcome t, s.execute step = (outcome, t) →
      (∃ cause, outcome = .error cause) ∨ outcome = .ok (.inserted none) ∨ step = .build → t = s) ∧
    ∀ steps : List Step, (∀ step ∈ steps, step.IsEdit ∨ step = .build) →
      (s.run steps).reset.baseline = s.baseline ∧ (s.run steps).reset.savedLlms = s.savedLlms ∧
      (s.run steps).reset.parent = s.parent ∧ (s.run steps).reset.working = s.baseline ∧
      (s.run steps).reset.llms = s.savedLlms ∧
      ((∀ t ∈ s.baseline, t.Proper) → s.savedLlms.Proper → (s.run steps).reset.isReady = true) := by
  constructor
  · intro step outcome t h hcases
    have hperform : s.perform step = (.ofOutcome outcome, t) := by rw [perform_eq_execute, h]
    rcases hcases with ⟨cause, rfl⟩ | rfl | rfl
    · exact perform_of_failed hperform
    · exact perform_of_refused hperform
    · rw [← perform_build s, hperform]
  · intro steps hsteps
    obtain ⟨working, nextId, llms, hrun⟩ := editedFrom_run (s := s) hsteps
    rw [hrun]
    refine ⟨rfl, rfl, rfl, rfl, rfl, fun htree hllms => ?_⟩
    exact isReady_of_saved htree hllms rfl rfl

/-- A session that has opened a stored revision and put a prompt into it. -/
private def edited : Session :=
  (new .standard).run
    [.load "chain" ⟨some "r1", none, .blank .choice 0, .standard⟩, .insert "llm_spec" 0 0]

theorem unchanged_edited :
    let repeating : Revision := ⟨none, none, .sequence 1 [] [] [.blank .chat 1], []⟩
    let steps : List Step :=
      [.insert "api_spec" 0 0, .update (.blank .chat 7), .setLlms [], .delete 0, .build]
    ∃ t, edited.execute (.load "other" repeating) = (.error (.chain (.duplicateId 1)), t) ∧
      t = edited ∧ (∀ step ∈ steps, step.IsEdit ∨ step = .build) ∧
      (∀ n ∈ edited.baseline, n.Proper) ∧ edited.savedLlms.Proper ∧
      (edited.run steps).reset.working = edited.baseline ∧
      (edited.run steps).reset.isReady = true := by
  intro repeating steps
  have hsteps : ∀ step ∈ steps, step.IsEdit ∨ step = .build := by simp [steps, Step.IsEdit]
  have htree : ∀ n ∈ edited.baseline, n.Proper := by
    intro n hn
    obtain rfl := Option.some.inj hn
    exact Node.proper_blank .choice 0
  have hllms : edited.savedLlms.Proper := Llms.proper_standard
  have hexecute : edited.execute (.load "other" repeating) =
      (.error (.chain (.duplicateId 1)), (edited.execute (.load "other" repeating)).2) := rfl
  obtain ⟨hfailed, hreset⟩ := unchanged_of_failed_and_reset_run edited
  obtain ⟨-, -, -, hworking, -, hready⟩ := hreset steps hsteps
  exact ⟨_, hexecute, hfailed _ _ _ hexecute (.inl ⟨_, rfl⟩), hsteps, htree, hllms, hworking,
    hready htree hllms⟩

end PromptChain.Session
