import PromptChain.Proofs.Node.ChangedIds
import PromptChain.Proofs.Node.FreshIds
import PromptChain.Proofs.Node.Refreshing
import PromptChain.Proofs.Session.Edits

/-!
# What becomes of a draft

A draft is a revision built from a session. Storing it puts the session back to the draft: what was
edited since it was built is lost. Opening it and building again gives the draft, but for the
revision it derives from, which a draft that was never stored does not pass on.
-/

set_option autoImplicit false

namespace PromptChain.Session

open Node (SameUpToKeys)

private theorem sameUpToKeys_build {s : Session} {r : Revision} (h : s.build = .ok r) :
    SameUpToKeys (some r.chain) s.working ∧ r.llms = s.llms := by
  obtain ⟨tree, hworking, rfl⟩ := build_eq_ok h
  rw [hworking]
  exact ⟨Node.sameUpToKeys_refresh (some tree), rfl⟩

/-- Edits between a build and the storing of what was built leave no trace but in the counter for
ids. What the session then holds is what it held before, up to keys, exactly if the edits came to
nothing. -/
theorem markSaved_run_edits {s : Session} {r : Revision} (hbuild : s.build = .ok r)
    {edits : List Step} (hedits : ∀ step ∈ edits, step.IsEdit) (id : String) :
    (s.run edits).markSaved id r = { s.markSaved id r with nextId := (s.run edits).nextId } ∧
      (SameUpToKeys ((s.run edits).markSaved id r).working (s.run edits).working ∧
          ((s.run edits).markSaved id r).llms = (s.run edits).llms ↔
        SameUpToKeys s.working (s.run edits).working ∧ s.llms = (s.run edits).llms) := by
  obtain ⟨htree, hllms⟩ := sameUpToKeys_build hbuild
  refine ⟨?_, ?_⟩
  · obtain ⟨working, nextId, llms, hrun⟩ :=
      editedFrom_run (s := s) fun step h => .inl (hedits step h)
    rw [hrun]
    rfl
  · have hsaved : SameUpToKeys (some r.chain) (s.run edits).working ↔
        SameUpToKeys s.working (s.run edits).working := by
      rw [SameUpToKeys, SameUpToKeys, htree]
    simp only [markSaved, hsaved, hllms]

private def emptyChoice : Session := (new .standard).run [.insert "case_spec" 0 0, .setName "draft"]

private theorem build_emptyChoice :
    emptyChoice.build = .ok (.create none (.blank .choice 0) .standard) := rfl

theorem markSaved_run_emptied :
    let r := Revision.create none (.blank .choice 0) .standard
    let edits : List Step := [.insert "llm_spec" 0 0, .delete 0, .setLlms []]
    emptyChoice.build = .ok r ∧ (∀ step ∈ edits, step.IsEdit) ∧
      (emptyChoice.run edits).markSaved "r1" r =
        { emptyChoice.markSaved "r1" r with nextId := (emptyChoice.run edits).nextId } ∧
      (SameUpToKeys ((emptyChoice.run edits).markSaved "r1" r).working
        (emptyChoice.run edits).working ∧
          ((emptyChoice.run edits).markSaved "r1" r).llms = (emptyChoice.run edits).llms ↔
        SameUpToKeys emptyChoice.working (emptyChoice.run edits).working ∧
          emptyChoice.llms = (emptyChoice.run edits).llms) := by
  intro r edits
  have hedits : ∀ step ∈ edits, step.IsEdit := by simp [edits, Step.IsEdit]
  exact ⟨build_emptyChoice, hedits, markSaved_run_edits build_emptyChoice hedits "r1"⟩

/-- A prompt that is inserted while a draft is being stored is gone once it is stored. -/
theorem not_sameUpToKeys_markSaved_insert :
    let r := Revision.create none (.blank .choice 0) .standard
    let edited := emptyChoice.run [.insert "llm_spec" 0 0]
    emptyChoice.build = .ok r ∧
      (emptyChoice.perform (.insert "llm_spec" 0 0)).1 = .inserted (some 1) ∧
      ¬ SameUpToKeys (edited.markSaved "r1" r).working edited.working := by
  intro r edited
  have hedited : edited.working =
      some (.choice 0 "" [("case text 1", .blank .prompt 1)] none) := rfl
  have hsaved : (edited.markSaved "r1" r).working = some (.blank .choice 0) := rfl
  refine ⟨build_emptyChoice, rfl, ?_⟩
  rw [hedited, hsaved]
  simp [SameUpToKeys, Node.blank]

/-- A draft is opened in any session, under any name, and building again gives the draft without the
revision that it derives from: it has no id that its successor could name. -/
theorem build_of_load_build {s : Session} {r : Revision} (hbuild : s.build = .ok r)
    (hdistinct : r.chain.IdsDistinct) (hbelow : ∀ i ∈ r.chain.ids, i < Node.greatestId)
    (other : Session) {name : String} (hname : name ≠ "") :
    ∃ t, other.load name r = .ok t ∧ t.build = .ok { r with parent := none } := by
  obtain ⟨tree, -, rfl⟩ := build_eq_ok hbuild
  obtain ⟨nextId, hnext⟩ := Node.exists_nextId hbelow 0
  have hcheck := (Node.checkIds_eq_ok_iff _).2 hdistinct
  have hactive : name.isEmpty = false := by simpa using hname
  refine ⟨_, by rw [load, hcheck, hnext]; rfl, ?_⟩
  simp [build, isActive, hactive, Revision.create]

/-- A sequence over a choice with a fallback and a sequence in a branch; the keys of both sequences
are out of date. -/
private def outdated (added : List Node) : Node :=
  .sequence 0 ["gone"] [] [.blank .prompt 1,
    .choice 2 "topic"
      [("yes", .blank .chat 3), ("no", .sequence 4 [] ["stale"] (.blank .api 5 :: added))]
      (some (.blank .vectorSearch 6))]

/-- A session that has opened a stored revision and inserted a step into the branch. -/
private def reopened : Session :=
  (new .standard).run [.load "chain" ⟨some "r1", some "r0", outdated [], .standard⟩,
    .insert "transform_spec" 4 1]

private def reopenedDraft : Revision :=
  .create (some "r1") (outdated [.blank .transform 7]) .standard

private theorem build_reopened : reopened.build = .ok reopenedDraft := rfl

private theorem ids_reopenedDraft : reopenedDraft.chain.ids = [0, 1, 2, 3, 4, 5, 7, 6] := by decide

private theorem idsDistinct_reopenedDraft : reopenedDraft.chain.IdsDistinct := by
  rw [Node.IdsDistinct, ids_reopenedDraft]
  decide

private theorem below_reopenedDraft : ∀ i ∈ reopenedDraft.chain.ids, i < Node.greatestId := by
  rw [ids_reopenedDraft]
  decide

theorem build_of_load_build_reopened :
    reopened.build = .ok reopenedDraft ∧ reopenedDraft.chain.IdsDistinct ∧
      (∀ i ∈ reopenedDraft.chain.ids, i < Node.greatestId) ∧ "draft" ≠ "" ∧
      (∃ steps, reopenedDraft.chain = .sequence 0 [] ["text"] steps) ∧
      ∃ t, (new .standard).load "draft" reopenedDraft = .ok t ∧
        t.build = .ok { reopenedDraft with parent := none } :=
  ⟨build_reopened, idsDistinct_reopenedDraft, below_reopenedDraft, by decide, ⟨_, rfl⟩,
    build_of_load_build build_reopened idsDistinct_reopenedDraft below_reopenedDraft (new .standard)
      (by decide)⟩

/-- A draft that is opened again before it is stored no longer names the revision it derives
from. -/
theorem parent_ne_of_load_build :
    ∃ r t r', reopened.build = .ok r ∧ r.chain.IdsDistinct ∧
      (∀ i ∈ r.chain.ids, i < Node.greatestId) ∧ (new .standard).load "draft" r = .ok t ∧
      t.build = .ok r' ∧ r'.parent ≠ r.parent := by
  refine ⟨_, _, _, build_reopened, idsDistinct_reopenedDraft, below_reopenedDraft, rfl, rfl, ?_⟩
  simp [Revision.create, reopenedDraft]

end PromptChain.Session
