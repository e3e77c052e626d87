import PromptChain.Proofs.Revision.Sameness
import PromptChain.Proofs.Session.Outcomes
import PromptChain.Proofs.Session.Readiness

/-!
# What counts as unsaved

Whether something is left to save is told from the written forms of both sides. As long as all
doubles are finite these tell apart whatever is not equal, so that a session is ready exactly when
its sides are equal, up to the order of maps; and it is ready after whatever makes one side the
other, finite or not.
-/

set_option autoImplicit false

namespace PromptChain.Session

open Json (sameImage sameImage_of_finite)

private theorem sameImage_trees {a b : Option Node} (ha : (treeImage a).Finite)
    (hb : (treeImage b).Finite) :
    sameImage (some (treeImage a)) (some (treeImage b)) = Node.sameOption a b := by
  rw [sameImage_of_finite ha hb, treeImage, treeImage, Node.same_ofOption_toJson]

private theorem sameImage_llms {a b : Llms} (ha : a.toJson.Finite) (hb : b.toJson.Finite) :
    sameImage (some a.toJson) (some b.toJson) = Llms.same a b := by
  rw [sameImage_of_finite ha hb, Llms.same_toJson]

private theorem sameImage_revisions {a b : Revision} (ha : a.toJson.Finite) (hb : b.toJson.Finite) :
    sameImage (some a.toJson) (some b.toJson) = a.same b := by
  rw [sameImage_of_finite ha hb, Revision.same_toJson]

private theorem sameImage_configs {a b : Config} (ha : a.toJson.Finite) (hb : b.toJson.Finite) :
    sameImage (some a.toJson) (some b.toJson) = a.same b := by
  rw [sameImage_of_finite ha hb, Config.same_toJson]

/-- Every double on both sides of a session is finite: in its trees, their free-form values and its
models. -/
structure Finite (s : Session) : Prop where
  baseline : (treeImage s.baseline).Finite
  working : (treeImage s.working).Finite
  savedLlms : s.savedLlms.toJson.Finite
  llms : s.llms.toJson.Finite

private theorem isReady_eq {s : Session} (h : s.Finite) :
    s.isReady = (Node.sameOption s.baseline s.working && Llms.same s.savedLlms s.llms) := by
  rw [isReady, sameImage_trees h.baseline h.working, sameImage_llms h.savedLlms h.llms]

private theorem isReady_of_revision {s : Session} {r : Revision} (hr : r.Proper)
    (hbaseline : s.baseline = some r.chain) (hworking : s.working = some r.chain)
    (hsaved : s.savedLlms = r.llms) (hllms : s.llms = r.llms) : s.isReady = true := by
  apply isReady_of_saved
  · intro t ht
    rw [hbaseline] at ht
    obtain rfl := Option.some.inj ht
    exact hr.1
  · rw [hsaved]
    exact hr.2
  · rw [hworking, hbaseline]
  · rw [hllms, hsaved]

/-- Unsaved work shows: trees, language models, revisions and configurations with finite doubles
have the same image exactly when they are equal up to the order of their maps. So a session is ready
exactly when its sides are equal, and it is ready after every load, every save and every reset. -/
theorem isReady_exact :
    (∀ a b : Option Node, (treeImage a).Finite → (treeImage b).Finite →
      (sameImage (some (treeImage a)) (some (treeImage b)) = true ↔ Node.sameOption a b = true)) ∧
    (∀ a b : Llms, a.toJson.Finite → b.toJson.Finite →
      (sameImage (some a.toJson) (some b.toJson) = true ↔ Llms.same a b = true)) ∧
    (∀ a b : Revision, a.toJson.Finite → b.toJson.Finite →
      (sameImage (some a.toJson) (some b.toJson) = true ↔ a.same b = true)) ∧
    (∀ a b : Config, a.toJson.Finite → b.toJson.Finite →
      (sameImage (some a.toJson) (some b.toJson) = true ↔ a.same b = true)) ∧
    (∀ s : Session, s.Finite → (s.isReady = true ↔
      Node.sameOption s.baseline s.working = true ∧ Llms.same s.savedLlms s.llms = true)) ∧
    (∀ (s t : Session) (name : String) (r : Revision), r.Proper → s.load name r = .ok t →
      t.isReady = true) ∧
    (∀ (s : Session) (id : String) (r : Revision), r.Proper → (s.markSaved id r).isReady = true) ∧
    ∀ s : Session, (∀ t ∈ s.baseline, t.Proper) → s.savedLlms.Proper → s.reset.isReady = true := by
  refine ⟨?_, ?_, ?_, ?_, ?_, ?_, ?_, ?_⟩
  · intro a b ha hb
    rw [sameImage_trees ha hb]
  · intro a b ha hb
    rw [sameImage_llms ha hb]
  · intro a b ha hb
    rw [sameImage_revisions ha hb]
  · intro a b ha hb
    rw [sameImage_configs ha hb]
  · intro s hs
    rw [isReady_eq hs, Bool.and_eq_true]
  · intro s t name r hr h
    obtain ⟨nextId, -, -, rfl⟩ := load_eq_ok h
    exact isReady_of_revision hr rfl rfl rfl rfl
  · intro s id r hr
    exact isReady_of_revision hr rfl rfl rfl rfl
  · intro s htree hllms
    exact isReady_of_saved htree hllms rfl rfl

private def lookup (branches : List (String × Node)) (params : List (String × Json))
    (minScore : Float) : Node :=
  .sequence 0 ["a"] ["b"] [.choice 1 "mood" branches none, .leaf (.vectorSearch
    ⟨2, "query", "engine", params, "base", [], 3, minScore, ["a"], "b"⟩)]

private def answer (i : NodeId) : Node := .leaf (.prompt ⟨i, ["a"], "c", "", "llm"⟩)

private def savedLookup : Node :=
  lookup [("sad", answer 3), ("glad", answer 4)]
    [("level", .number (.integer 1)), ("kinds", .array [.null, .number (.double 0.5)])] 0

/-- The same with its maps the other way round, and with the other zero. -/
private def turnedLookup : Node :=
  lookup [("glad", answer 4), ("sad", answer 3)]
    [("kinds", .array [.null, .number (.double 0.5)]), ("level", .number (.integer 1))] (-0)

private def editedLookup : Node :=
  lookup [("sad", answer 3), ("glad", answer 4)]
    [("level", .number (.double 1)), ("kinds", .array [.null, .number (.double 0.5)])] 0

private def unsavedLookup : Session :=
  { new .standard with baseline := some savedLookup, working := some editedLookup }

private theorem proper_savedLookup : savedLookup.Proper := by
  have hanswer : ∀ i, (answer i).Proper := fun _ => .leaf trivial
  have hchoice : (Node.choice 1 "mood" [("sad", answer 3), ("glad", answer 4)] none).Proper :=
    .choice (by simp [Entries.Distinct, Entries.keys]) (by simp [hanswer]) (by simp)
  have hkinds : (Json.array [.null, .number (.double 0.5)]).InRange := by
    intro n hn
    obtain rfl := List.mem_singleton.1 hn
    trivial
  have hparams : Json.FreeForm
      [("level", .number (.integer 1)), ("kinds", .array [.null, .number (.double 0.5)])] := by
    refine ⟨by simp [Entries.Distinct, Entries.keys], List.forall_mem_cons.2 ⟨⟨?_, rfl⟩, ?_⟩⟩
    · intro n hn
      obtain rfl := List.mem_singleton.1 hn
      exact ⟨by decide, by decide⟩
    · rw [List.forall_mem_singleton]
      exact ⟨hkinds, rfl⟩
  have hnone : Json.FreeForm [] := ⟨List.nodup_nil, by simp⟩
  refine .sequence (List.forall_mem_cons.2 ⟨hchoice, ?_⟩)
  rw [List.forall_mem_singleton]
  exact .leaf ⟨hparams, hnone⟩

private def storedLookup : Revision := ⟨some "r1", none, savedLookup, .standard⟩

theorem isReady_exact_unsavedLookup :
    sameImage (some (treeImage (some savedLookup))) (some (treeImage (some turnedLookup))) = true ∧
    sameImage (some (treeImage (some savedLookup))) (some (treeImage (some editedLookup))) = false ∧
    sameImage (some storedLookup.toJson) (some { storedLookup with id := none }.toJson) = false ∧
    unsavedLookup.isReady = false ∧ unsavedLookup.reset.isReady = true ∧
    ∃ t, unsavedLookup.load "moods" storedLookup = .ok t ∧ t.isReady = true := by
  obtain ⟨htrees, -, hrevisions, -, hready, hload, -, hreset⟩ := isReady_exact
  have hsaved : (treeImage (some savedLookup)).Finite := by decide +kernel
  have hturned : (treeImage (some turnedLookup)).Finite := by decide +kernel
  have hedited : (treeImage (some editedLookup)).Finite := by decide +kernel
  have hfinite : unsavedLookup.Finite := ⟨hsaved, hedited, by decide +kernel, by decide +kernel⟩
  have hdiffers : ¬ Node.sameOption (some savedLookup) (some editedLookup) = true := by
    decide +kernel
  have hproper : storedLookup.Proper := ⟨proper_savedLookup, Llms.proper_standard⟩
  refine ⟨(htrees _ _ hsaved hturned).2 (by decide +kernel), ?_, ?_, ?_, ?_, ?_⟩
  · rw [← Bool.not_eq_true, htrees _ _ hsaved hedited]
    exact hdiffers
  · rw [← Bool.not_eq_true, hrevisions _ _ (by decide +kernel) (by decide +kernel)]
    exact Bool.false_ne_true
  · rw [← Bool.not_eq_true, hready unsavedLookup hfinite]
    exact fun h => hdiffers h.1
  · apply hreset unsavedLookup
    · intro t ht
      obtain rfl := Option.some.inj ht
      exact proper_savedLookup
    · exact Llms.proper_standard
  · have hopened : ∃ t, unsavedLookup.load "moods" storedLookup = .ok t := ⟨_, rfl⟩
    obtain ⟨t, ht⟩ := hopened
    exact ⟨t, ht, hload _ _ _ _ hproper ht⟩

end PromptChain.Session
