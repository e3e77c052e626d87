import PromptChain.Session.Step
import PromptChain.Proofs.Node.Insertion
import PromptChain.Proofs.Node.FreshIds
import PromptChain.Proofs.Session.Outcomes

/-!
# Distinct ids throughout a session

Both trees of a session keep distinct ids under every operation but one: an update puts its node in
place as it comes, ids below it included. So the ids stay distinct in a run exactly when every node
that is put in place by an update fits into the tree.
-/

set_option autoImplicit false

namespace PromptChain

theorem Revision.idsDistinct_patch {r r' : Revision} {node : Node} (h : r.patch node = .ok r') :
    r'.chain.IdsDistinct := by
  rw [patch] at h
  split at h
  · contradiction
  · next chain hr =>
    obtain ⟨⟨⟩, hcheck, hcreate⟩ := bind_eq_ok.1 h
    rw [← Except.ok.inj hcreate, create, Node.IdsDistinct, Node.ids_refresh]
    exact (Node.checkIds_eq_ok_iff chain).1 hcheck

namespace Session

/-- No id occurs twice in the working tree, nor in the baseline. -/
def IdsDistinct (s : Session) : Prop :=
  (∀ t ∈ s.working, t.IdsDistinct) ∧ ∀ t ∈ s.baseline, t.IdsDistinct

theorem idsDistinct_new (config : Config) : (new config).IdsDistinct := by
  simp [IdsDistinct, new]

theorem idsDistinct_insert {s t : Session} {kind : String} {parent : NodeId} {index : Nat}
    {given : Option NodeId} (hs : s.IdsDistinct) (h : s.insert kind parent index = .ok (given, t)) :
    t.IdsDistinct := by
  rcases insert_eq_ok h with ⟨-, rfl⟩ | ⟨k, newId, -, hnew, -, rfl⟩
  · exact hs
  · refine ⟨fun tree htree => ?_, hs.2⟩
    obtain rfl := Option.some.inj htree
    cases hw : s.working with
    | none => simp [Node.insert, Node.IdsDistinct]
    | some root =>
      rw [hw] at hnew
      exact Node.idsDistinct_insert (hs.1 root hw) (Node.not_mem_ids_of_nextId hnew) k parent index

theorem idsDistinct_delete {s : Session} (hs : s.IdsDistinct) (id : NodeId) :
    (s.delete id).IdsDistinct := by
  refine ⟨fun t ht => ?_, hs.2⟩
  obtain ⟨root, hroot, hd⟩ := Option.bind_eq_some_iff.1 ht
  exact Node.idsDistinct_delete (hs.1 root hroot) hd

theorem idsDistinct_update_iff {s t : Session} {node : Node} (hs : s.IdsDistinct)
    (h : s.update node = .ok t) :
    t.IdsDistinct ↔ ∀ root ∈ s.working, node.FitsInto root := by
  obtain ⟨root, tree, hroot, hrep, rfl⟩ := update_eq_ok h
  have hiff := Node.idsDistinct_replace_iff (hs.1 root hroot) hrep
  simpa [IdsDistinct, hroot, hiff] using fun _ => hs.2

theorem idsDistinct_load {s t : Session} {name : String} {r : Revision}
    (h : s.load name r = .ok t) :
    t.IdsDistinct := by
  obtain ⟨nextId, hcheck, -, rfl⟩ := load_eq_ok h
  simp [IdsDistinct, (Node.checkIds_eq_ok_iff r.chain).1 hcheck]

theorem idsDistinct_markSaved {r : Revision} (hr : r.chain.IdsDistinct) (s : Session)
    (id : String) :
    (s.markSaved id r).IdsDistinct := by
  simp [IdsDistinct, markSaved, hr]

theorem idsDistinct_reset {s : Session} (hs : s.IdsDistinct) : s.reset.IdsDistinct := ⟨hs.2, hs.2⟩

theorem idsDistinct_build {s : Session} {r : Revision} (hs : s.IdsDistinct) (h : s.build = .ok r) :
    r.chain.IdsDistinct := by
  obtain ⟨tree, hw, rfl⟩ := build_eq_ok h
  rw [Revision.create, Node.IdsDistinct, Node.ids_refresh]
  exact hs.1 tree hw

/-- The revisions that a session may record as stored: those that were built from it, and those that
patching makes of them. -/
inductive Draft (built : List Revision) : Revision → Prop where
  | built {r : Revision} : r ∈ built → Draft built r
  | patched {r r' : Revision} {node : Node} : Draft built r → r.patch node = .ok r' → Draft built r'

def Answer.revisions : Answer → List Revision
  | .built r => [r]
  | _ => []

/-- A run that records nothing as stored but drafts; `built` holds the revisions built so far. -/
def StoresDrafts : List Revision → Session → List Step → Prop
  | _, _, [] => True
  | built, s, step :: steps =>
    (∀ id r, step = .markSaved id r → Draft built r) ∧
      StoresDrafts ((s.perform step).1.revisions ++ built) (s.perform step).2 steps

/-- A run in which every node that an update puts in place fits into the working tree. -/
def UpdatesFit : Session → List Step → Prop
  | _, [] => True
  | s, step :: steps =>
    (∀ node, step = .update node → ∀ root ∈ s.working, node.FitsInto root) ∧
      UpdatesFit (s.perform step).2 steps

private theorem idsDistinct_draft {built : List Revision}
    (hbuilt : ∀ r ∈ built, r.chain.IdsDistinct) {r : Revision} (h : Draft built r) :
    r.chain.IdsDistinct := by
  cases h with
  | built hr => exact hbuilt r hr
  | patched _ hp => exact Revision.idsDistinct_patch hp

/-- One step keeps the ids distinct, unless it is an update with a node that does not fit. -/
theorem idsDistinct_perform_iff {s : Session} (hs : s.IdsDistinct) {step : Step}
    (hstored : ∀ id r, step = .markSaved id r → r.chain.IdsDistinct) :
    (s.perform step).2.IdsDistinct ↔
      ∀ node, step = .update node → ∀ root ∈ s.working, node.FitsInto root := by
  cases step with
  | update node =>
    simp only [perform, Step.update.injEq, forall_eq']
    cases h : s.update node with
    | ok t => exact idsDistinct_update_iff hs h
    | error cause =>
      refine iff_of_true hs fun root hroot m hm => ?_
      obtain ⟨_, _, hchange⟩ := Node.exists_ids_of_find? hm
      obtain ⟨t, ht, -⟩ := hchange fun _ => node
      simp [update, Option.mem_def.1 hroot, Node.replace?, ht] at h
  | insert kind parent index =>
    refine iff_of_true ?_ (by simp)
    rw [perform]
    split
    · next h => exact idsDistinct_insert hs h
    · exact hs
  | load name r =>
    refine iff_of_true ?_ (by simp)
    rw [perform]
    split
    · next h => exact idsDistinct_load h
    · exact hs
  | build =>
    refine iff_of_true ?_ (by simp)
    rw [perform]
    split <;> exact hs
  | delete id => exact iff_of_true (idsDistinct_delete hs id) (by simp)
  | markSaved id r => exact iff_of_true (idsDistinct_markSaved (hstored id r rfl) s id) (by simp)
  | reset => exact iff_of_true (idsDistinct_reset hs) (by simp)
  | setName name => exact iff_of_true hs (by simp)
  | setLlms llms => exact iff_of_true hs (by simp)
  | toggle => exact iff_of_true hs (by simp)

theorem idsDistinct_revisions {s : Session} (hs : s.IdsDistinct) (step : Step) :
    ∀ r ∈ (s.perform step).1.revisions, r.chain.IdsDistinct := by
  cases step <;> simp only [perform] <;> try split
  all_goals simp only [Answer.revisions, List.mem_singleton, List.not_mem_nil, false_implies,
    implies_true]
  next h => exact fun r hr => hr ▸ idsDistinct_build hs h

private theorem idsDistinct_prefixes_iff (steps : List Step) :
    ∀ (s : Session) (built : List Revision), s.IdsDistinct → (∀ r ∈ built, r.chain.IdsDistinct) →
      StoresDrafts built s steps →
      ((∀ done, done <+: steps → (s.run done).IdsDistinct) ↔ UpdatesFit s steps) := by
  induction steps with
  | nil =>
    intro s built hs _ _
    simp [UpdatesFit, hs]
  | cons step steps ih =>
    intro s built hs hbuilt ⟨hdraft, hdrafts⟩
    have hstored : ∀ id r, step = .markSaved id r → r.chain.IdsDistinct :=
      fun id r h => idsDistinct_draft hbuilt (hdraft id r h)
    have hstep := idsDistinct_perform_iff hs hstored
    have hbuilt' : ∀ r ∈ (s.perform step).1.revisions ++ built, r.chain.IdsDistinct :=
      fun r hr => (List.mem_append.1 hr).elim (idsDistinct_revisions hs step r) (hbuilt r)
    constructor
    · intro h
      have hnext : (s.perform step).2.IdsDistinct := h [step] (by simp)
      refine ⟨hstep.1 hnext, (ih _ _ hnext hbuilt' hdrafts).1 fun done hdone => ?_⟩
      exact h (step :: done) (List.cons_prefix_cons.2 ⟨rfl, hdone⟩)
    · rintro ⟨hfits, hrest⟩ done hdone
      rcases List.prefix_cons_iff.1 hdone with rfl | ⟨later, rfl, hlater⟩
      · exact hs
      · exact (ih _ _ (hstep.2 hfits) hbuilt' hdrafts).2 hrest later hlater

/-- In a run from a new session that stores nothing but its drafts, the ids of both trees are
distinct in every state reached exactly when every node that an update puts in place fits into the
working tree. -/
theorem idsDistinct_run_iff (config : Config) (steps : List Step)
    (h : StoresDrafts [] (new config) steps) :
    (∀ done, done <+: steps → ((new config).run done).IdsDistinct) ↔
      UpdatesFit (new config) steps :=
  idsDistinct_prefixes_iff steps (new config) [] (idsDistinct_new config) (by simp) h

/-- A run that builds a sequence of two steps, replaces it and stores it. -/
def storedRun : List Step :=
  let tree := Node.sequence 0 [] [] [.blank .prompt 1, .blank .chat 7]
  [.insert "sequential_spec" 0 0, .insert "llm_spec" 0 0, .update tree, .setName "draft", .build,
    .markSaved "r1" (.create none tree .standard), .reset]

theorem idsDistinct_storedRun : StoresDrafts [] (new .standard) storedRun ∧
    ((∀ done, done <+: storedRun → ((new .standard).run done).IdsDistinct) ↔
      UpdatesFit (new .standard) storedRun) := by
  have h : StoresDrafts [] (new .standard) storedRun := by
    refine ⟨nofun, nofun, nofun, nofun, nofun, fun id r hr => ?_, nofun, trivial⟩
    obtain ⟨-, rfl⟩ := Step.markSaved.inj hr
    exact .built List.mem_cons_self
  exact ⟨h, idsDistinct_run_iff .standard storedRun h⟩

/-- A run in which an update puts a node in place that uses its own id again below it. -/
def repeatingRun : List Step :=
  [.insert "sequential_spec" 0 0, .update (.sequence 0 [] [] [.blank .prompt 0])]

/-- An update can repeat an id. -/
theorem not_idsDistinct_repeatingRun : StoresDrafts [] (new .standard) repeatingRun ∧
    ¬ ((new .standard).run repeatingRun).IdsDistinct := by
  refine ⟨⟨nofun, nofun, trivial⟩, fun h => ?_⟩
  have hworking : ((new .standard).run repeatingRun).working =
      some (.sequence 0 [] [] [.blank .prompt 0]) := rfl
  exact absurd (h.1 _ hworking) (by decide)

end Session

end PromptChain
