import PromptChain.Proofs.Node.ProperEdits
import PromptChain.Proofs.Revision.RoundTrip
import PromptChain.Proofs.Session.DistinctIds

/-!
# Opening what a session has built

In a session that is given proper trees and language models, and whose working ids stay distinct,
everything that is built is proper and has distinct ids. So its text can be opened again exactly
when it nests no deeper than the reader follows; no edit takes care of that.
-/

set_option autoImplicit false

namespace PromptChain

namespace Session

structure Proper (s : Session) : Prop where
  working : ∀ t ∈ s.working, t.Proper
  baseline : ∀ t ∈ s.baseline, t.Proper
  llms : s.llms.Proper
  savedLlms : s.savedLlms.Proper

def Step.Proper : Step → Prop
  | .update node => node.Proper
  | .setLlms llms => llms.Proper
  | .load _ r => r.Proper
  | .markSaved _ r => r.Proper
  | .insert .. | .delete _ | .setName _ | .toggle | .build | .reset => True

theorem proper_new {config : Config} (h : config.llms.Proper) : (new config).Proper :=
  ⟨nofun, nofun, h, h⟩

theorem proper_insert {s t : Session} {kind : String} {parent : NodeId} {index : Nat}
    {given : Option NodeId} (hs : s.Proper) (h : s.insert kind parent index = .ok (given, t)) :
    t.Proper := by
  rcases insert_eq_ok h with ⟨-, rfl⟩ | ⟨k, newId, -, -, -, rfl⟩
  · exact hs
  · refine ⟨fun tree htree => ?_, hs.baseline, hs.llms, hs.savedLlms⟩
    obtain rfl := Option.some.inj htree
    exact Node.proper_insert hs.working newId k parent index

theorem proper_delete {s : Session} (hs : s.Proper) (id : NodeId) : (s.delete id).Proper := by
  refine ⟨fun t ht => ?_, hs.baseline, hs.llms, hs.savedLlms⟩
  obtain ⟨root, hroot, hd⟩ := Option.bind_eq_some_iff.1 ht
  exact Node.proper_delete (hs.working root hroot) hd

theorem proper_update {s t : Session} {node : Node} (hs : s.Proper) (hnode : node.Proper)
    (h : s.update node = .ok t) : t.Proper := by
  obtain ⟨root, tree, hroot, hrep, rfl⟩ := update_eq_ok h
  refine ⟨fun t ht => ?_, hs.baseline, hs.llms, hs.savedLlms⟩
  obtain rfl := Option.some.inj ht
  exact Node.proper_replace (hs.working root hroot) hnode hrep

theorem proper_load {s t : Session} {name : String} {r : Revision} (hr : r.Proper)
    (h : s.load name r = .ok t) : t.Proper := by
  obtain ⟨nextId, -, -, rfl⟩ := load_eq_ok h
  exact ⟨fun _ ht => Option.some.inj ht ▸ hr.1, fun _ ht => Option.some.inj ht ▸ hr.1, hr.2, hr.2⟩

theorem proper_markSaved {r : Revision} (hr : r.Proper) (s : Session) (id : String) :
    (s.markSaved id r).Proper :=
  ⟨fun _ ht => Option.some.inj ht ▸ hr.1, fun _ ht => Option.some.inj ht ▸ hr.1, hr.2, hr.2⟩

theorem proper_build {s : Session} {r : Revision} (hs : s.Proper) (h : s.build = .ok r) :
    r.Proper := by
  obtain ⟨tree, hw, rfl⟩ := build_eq_ok h
  exact Revision.proper_create (hs.working tree hw) hs.llms s.parent

theorem proper_perform {s : Session} (hs : s.Proper) {step : Step} (h : step.Proper) :
    (s.perform step).2.Proper := by
  cases step with
  | insert kind parent index =>
    rw [perform]
    split
    · next hinsert => exact proper_insert hs hinsert
    · exact hs
  | update node =>
    rw [perform]
    split
    · next hupdate => exact proper_update hs h hupdate
    · exact hs
  | load name r =>
    rw [perform]
    split
    · next hload => exact proper_load h hload
    · exact hs
  | build =>
    rw [perform]
    split <;> exact hs
  | delete id => exact proper_delete hs id
  | markSaved id r => exact proper_markSaved h s id
  | reset => exact ⟨hs.baseline, hs.baseline, hs.savedLlms, hs.savedLlms⟩
  | setName name => exact ⟨hs.working, hs.baseline, hs.llms, hs.savedLlms⟩
  | setLlms llms => exact ⟨hs.working, hs.baseline, h, hs.savedLlms⟩
  | toggle => exact ⟨hs.working, hs.baseline, hs.llms, hs.savedLlms⟩

theorem proper_run {s : Session} (hs : s.Proper) {steps : List Step}
    (h : ∀ step ∈ steps, step.Proper) : (s.run steps).Proper := by
  induction steps generalizing s with
  | nil => exact hs
  | cons step steps ih =>
    rw [List.forall_mem_cons] at h
    exact ih (proper_perform hs h.1) h.2

def Step.HandsIn : Step → Prop
  | .update _ | .load .. | .markSaved .. => True
  | .insert .. | .delete _ | .setName _ | .setLlms _ | .toggle | .build | .reset => False

/-- A run in which every tree and every node that is handed in leaves distinct ids in the working
tree. -/
def KeepsIds : Session → List Step → Prop
  | _, [] => True
  | s, step :: steps =>
    (step.HandsIn → ∀ t ∈ (s.perform step).2.working, t.IdsDistinct) ∧
      KeepsIds (s.perform step).2 steps

private theorem idsDistinct_perform {s : Session} (hs : s.IdsDistinct) {step : Step}
    (h : step.HandsIn → ∀ t ∈ (s.perform step).2.working, t.IdsDistinct) :
    (s.perform step).2.IdsDistinct := by
  have hstored : ∀ id r, step = .markSaved id r → r.chain.IdsDistinct := by
    rintro id r rfl
    exact h trivial r.chain rfl
  cases step with
  | update node =>
    refine ⟨h trivial, ?_⟩
    rw [perform]
    split
    · next hupdate =>
      obtain ⟨root, tree, -, -, rfl⟩ := update_eq_ok hupdate
      exact hs.2
    · exact hs.2
  | _ => exact (idsDistinct_perform_iff hs hstored).2 (by simp)

theorem idsDistinct_run {s : Session} (hs : s.IdsDistinct) {steps : List Step}
    (h : KeepsIds s steps) : (s.run steps).IdsDistinct := by
  induction steps generalizing s with
  | nil => exact hs
  | cons step steps ih => exact ih (idsDistinct_perform hs h.1) h.2

/-- What is built at the end of a run that keeps its ids is opened again from its text, unless that
nests deeper than the reader follows. -/
theorem ofText_pretty_build {config : Config} (hconfig : config.llms.Proper) {steps : List Step}
    (hsteps : ∀ step ∈ steps, step.Proper) (hids : KeepsIds (new config) steps) {r : Revision}
    (hbuild : ((new config).run steps).build = .ok r)
    (hdoubles : ∀ x, .double x ∈ r.toJson.numbers → Json.ReadsBack (.double x)) :
    Revision.ofText r.pretty =
      if r.toJson.depth ≤ Json.depthLimit then .ok r
      else .error (.unreadable (.malformed .tooDeep)) := by
  have hproper := proper_build (proper_run (proper_new hconfig) hsteps) hbuild
  have hdistinct := idsDistinct_build (idsDistinct_run (idsDistinct_new config) hids) hbuild
  have hlegible := Json.legible_of_inRange (Revision.inRange_toJson hproper) hdoubles
  rw [Revision.ofText_pretty hproper hlegible, (Node.checkIds_eq_ok_iff r.chain).2 hdistinct]
  rfl

private def draftingRun : List Step :=
  [.setName "draft", .insert "sequential_spec" 0 0, .insert "case_spec" 0 0, .insert "llm_spec" 1 0,
    .update (.choice 1 "mood" [("sad", .blank .chat 7)] (some (.blank .api 2)))]

private theorem proper_draftingRun : ∀ step ∈ draftingRun, step.Proper := by
  have hnode : (Node.choice 1 "mood" [("sad", .blank .chat 7)] (some (.blank .api 2))).Proper :=
    .choice (by simp [Entries.Distinct, Entries.keys])
      (List.forall_mem_singleton.2 (Node.proper_blank .chat 7))
      fun n hn => Option.some.inj hn ▸ Node.proper_blank .api 2
  simp [draftingRun, Step.Proper, hnode]

private theorem keepsIds_draftingRun : KeepsIds (new .standard) draftingRun := by
  refine ⟨nofun, nofun, nofun, nofun, fun _ t ht => ?_, trivial⟩
  obtain rfl := Option.some.inj ht
  decide

theorem ofText_pretty_draftingRun :
    ∃ r, ((new .standard).run draftingRun).build = .ok r ∧ r.toJson.depth = 7 ∧
      Revision.ofText r.pretty = .ok r := by
  have h : (fun r : Revision => (r.toJson.depth, r.toJson.numbers.all (Json.ReadsBack ·))) <$>
      ((new .standard).run draftingRun).build = .ok (7, true) := by decide +kernel
  obtain ⟨r, hbuild, hr⟩ := map_eq_ok.1 h
  obtain ⟨hdepth, hnumbers⟩ := Prod.mk.inj hr
  have hopens := ofText_pretty_build Llms.proper_standard proper_draftingRun keepsIds_draftingRun
    hbuild fun x hx => of_decide_eq_true (List.all_eq_true.1 hnumbers _ hx)
  rw [if_pos (by rw [hdepth]; decide)] at hopens
  exact ⟨r, hbuild, hdepth, hopens⟩

private def nestingRun (count : Nat) : List Step :=
  .setName "deep" :: (List.range count).map fun i => .insert "sequential_spec" (.ofNat (i - 1)) 0

private theorem proper_nestingRun (count : Nat) : ∀ step ∈ nestingRun count, step.Proper := by
  simp [nestingRun, Step.Proper]

private theorem keepsIds_of_not_handsIn {steps : List Step} (h : ∀ step ∈ steps, ¬ step.HandsIn)
    (s : Session) : KeepsIds s steps := by
  induction steps generalizing s with
  | nil => trivial
  | cons step steps ih =>
    rw [List.forall_mem_cons] at h
    exact ⟨fun hin => absurd hin h.1, ih h.2 _⟩

/-- Sixty-four sequences in one another are built, but not opened again. -/
theorem not_ofText_pretty_nestingRun : (∀ step ∈ nestingRun 64, step.Proper) ∧
    KeepsIds (new .standard) (nestingRun 64) ∧
    ∃ r, ((new .standard).run (nestingRun 64)).build = .ok r ∧
      (∀ x, .double x ∈ r.toJson.numbers → Json.ReadsBack (.double x)) ∧
      Revision.ofText r.pretty ≠ .ok r := by
  have h : (fun r : Revision => (r.toJson.depth, r.toJson.numbers.all (Json.ReadsBack ·))) <$>
      ((new .standard).run (nestingRun 64)).build = .ok (129, true) := by decide +kernel
  obtain ⟨r, hbuild, hr⟩ := map_eq_ok.1 h
  obtain ⟨hdepth, hnumbers⟩ := Prod.mk.inj hr
  have hkeeps : KeepsIds (new .standard) (nestingRun 64) :=
    keepsIds_of_not_handsIn (by simp [nestingRun, Step.HandsIn]) _
  refine ⟨proper_nestingRun 64, hkeeps, r, hbuild,
    fun x hx => of_decide_eq_true (List.all_eq_true.1 hnumbers _ hx), fun hopens => ?_⟩
  have hlimit := (Revision.proper_of_ofText hopens).2.1
  rw [hdepth] at hlimit
  exact absurd hlimit (by decide)

end Session

end PromptChain
