import PromptChain.Session.Step
import PromptChain.Proofs.Session.Outcomes

/-!
# Edits of a session

An edit, whether it succeeds or fails, and a build that comes between edits keep to the working side
of a session: its tree, its language models and the counter for ids.
-/

set_option autoImplicit false

namespace PromptChain.Session

/-- A step that changes the working tree or the working language models. -/
def Step.IsEdit : Step → Prop
  | .insert .. | .delete _ | .update _ | .setLlms _ => True
  | .setName _ | .toggle | .load .. | .build | .markSaved .. | .reset => False

/-- A session that differs from another one on its working side alone. -/
def EditedFrom (s t : Session) : Prop :=
  ∃ working nextId llms, t = { s with working, nextId, llms }

theorem EditedFrom.refl (s : Session) : s.EditedFrom s := ⟨s.working, s.nextId, s.llms, rfl⟩

theorem EditedFrom.trans {s t u : Session} (hst : s.EditedFrom t) (htu : t.EditedFrom u) :
    s.EditedFrom u := by
  obtain ⟨_, _, _, rfl⟩ := hst
  obtain ⟨working, nextId, llms, rfl⟩ := htu
  exact ⟨working, nextId, llms, rfl⟩

theorem editedFrom_perform {s : Session} {step : Step} (h : step.IsEdit ∨ step = .build) :
    s.EditedFrom (s.perform step).2 := by
  cases step with
  | insert kind parent index =>
    rw [perform]
    split
    · next given t hinsert =>
      rcases insert_eq_ok hinsert with ⟨-, rfl⟩ | ⟨k, newId, -, -, -, rfl⟩
      · exact .refl t
      · exact ⟨_, _, s.llms, rfl⟩
    · exact .refl s
  | update node =>
    rw [perform]
    split
    · next t hupdate =>
      obtain ⟨root, tree, -, -, rfl⟩ := update_eq_ok hupdate
      exact ⟨some tree, s.nextId, s.llms, rfl⟩
    · exact .refl s
  | delete id => exact ⟨_, s.nextId, s.llms, rfl⟩
  | setLlms llms => exact ⟨s.working, s.nextId, llms, rfl⟩
  | build =>
    rw [perform]
    split <;> exact .refl s
  | _ => simp [Step.IsEdit] at h

theorem editedFrom_run {s : Session} {steps : List Step}
    (h : ∀ step ∈ steps, step.IsEdit ∨ step = .build) : s.EditedFrom (s.run steps) := by
  induction steps generalizing s with
  | nil => exact .refl s
  | cons step steps ih =>
    obtain ⟨hstep, hsteps⟩ := List.forall_mem_cons.1 h
    exact (editedFrom_perform hstep).trans (ih hsteps)

end PromptChain.Session
