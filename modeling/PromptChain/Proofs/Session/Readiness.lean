import PromptChain.Proofs.Json.Image
import PromptChain.Proofs.Llm
import PromptChain.Proofs.Node.Document
import PromptChain.Session.Basic

/-!
# When nothing is left to save

Proper chains and language models are written as tidy values, each of which has the image of itself.
So a session is ready once its working side is its saved side.
-/

set_option autoImplicit false

namespace PromptChain

open Json (tidy_record tidy_array_iff tidy_object_iff tidy_ofOption tidy_ofMap)

private theorem Llm.tidy_sampling (s : HubSampling) : (Llm.toJson.sampling s).Tidy := by
  have hword : ∀ n : Option UInt32, (Json.ofOption Json.ofWord32 n).Tidy :=
    fun _ => tidy_ofOption fun _ _ => rfl
  apply tidy_record
  · simp
  · simp [hword]

theorem Llm.tidy_toJson {a : Llm} (h : a.Proper) : a.toJson.Tidy := by
  cases a with
  | openAi s =>
    have htimeout : (Json.ofOption Json.ofWord64 s.requestTimeout).Tidy :=
      tidy_ofOption fun _ _ => rfl
    have hbiases : (Json.ofOption (Json.ofMap Json.ofSigned32) s.logitBias).Tidy :=
      tidy_ofOption fun biases hb => tidy_ofMap (h biases hb) fun _ _ => rfl
    apply tidy_record
    · simp [variantTag]
    · simp [htimeout, hbiases]
  | hub s =>
    have htask : (Json.ofOption Json.text s.task).Tidy := tidy_ofOption fun _ _ => rfl
    have hsampling : (Json.ofOption Llm.toJson.sampling s.sampling).Tidy :=
      tidy_ofOption fun sampling _ => tidy_sampling sampling
    apply tidy_record
    · simp [variantTag]
    · simp [htask, hsampling]

theorem Llms.tidy_toJson {llms : Llms} (h : llms.Proper) : llms.toJson.Tidy :=
  tidy_ofMap h.1 fun e he => Llm.tidy_toJson (h.2 e he)

namespace Node

private theorem tidy_tagged {kind : Kind} {entries : List (String × Json)}
    (hnames : (kindTag :: entries.map (·.1)).Nodup) (hfields : ∀ e ∈ entries, e.2.Tidy) :
    (tagged kind entries).Tidy :=
  tidy_record hnames (List.forall_mem_cons.2 ⟨Json.tidy_text kind.name, hfields⟩)

private theorem tidy_leaf {l : Leaf} (h : l.Proper) : (leaf l).toJson.Tidy := by
  rw [toJson]
  cases l with
  | prompt p =>
    apply tidy_tagged
    · simp [kindTag, Leaf.entries]
    · simp [Leaf.entries]
  | chat c =>
    apply tidy_tagged
    · simp [kindTag, Leaf.entries]
    · simp [Leaf.entries]
  | api a =>
    have hheaders : (Json.ofOption (Json.ofMap Json.text) a.headers).Tidy :=
      tidy_ofOption fun headers hmem => tidy_ofMap (h headers hmem) fun _ _ => rfl
    have hbody : (Json.ofOption Json.text a.body).Tidy := tidy_ofOption fun _ _ => rfl
    apply tidy_tagged
    · simp [kindTag, Leaf.entries]
    · simp [Leaf.entries, hheaders, hbody]
  | vectorSearch v =>
    have hfree : ∀ es, Json.FreeForm es → (Json.object es).Tidy :=
      fun es hes => (tidy_object_iff es).2 ⟨hes.1, fun e he => (hes.2 e he).2⟩
    apply tidy_tagged
    · simp [kindTag, Leaf.entries]
    · simp [Leaf.entries, hfree _ h.1, hfree _ h.2]
  | reformat r =>
    have hformatters : (Json.ofMap Json.text r.formatters).Tidy := tidy_ofMap h fun _ _ => rfl
    apply tidy_tagged
    · simp [kindTag, Leaf.entries]
    · simp [Leaf.entries, hformatters]
  | transform t =>
    apply tidy_tagged
    · simp [kindTag, Leaf.entries]
    · simp [Leaf.entries]

theorem tidy_toJson {t : Node} (h : t.Proper) : t.toJson.Tidy := by
  induction h with
  | leaf hl => exact tidy_leaf hl
  | @sequence i ins outs steps _ ih =>
    have hsteps : (Json.array (steps.map toJson)).Tidy := by
      rw [tidy_array_iff]
      intro v hv
      obtain ⟨n, hn, rfl⟩ := List.mem_map.1 hv
      exact ih n hn
    rw [toJson_sequence]
    apply tidy_tagged
    · simp [kindTag]
    · simp [hsteps]
  | @choice i key branches fallback hkeys _ _ ihb ihf =>
    have hbranches : (Json.ofMap toJson branches).Tidy := tidy_ofMap hkeys ihb
    have hfallback : (Json.ofOption toJson fallback).Tidy := tidy_ofOption ihf
    rw [toJson_choice]
    apply tidy_tagged
    · simp [kindTag]
    · simp [hbranches, hfallback]

end Node

namespace Session

theorem isReady_of_saved {s : Session} (htree : ∀ t ∈ s.baseline, t.Proper)
    (hllms : s.savedLlms.Proper) (hworking : s.working = s.baseline)
    (hsaved : s.llms = s.savedLlms) : s.isReady = true := by
  have himage : (treeImage s.baseline).Tidy :=
    tidy_ofOption fun t ht => Node.tidy_toJson (htree t ht)
  rw [isReady, hworking, hsaved, Json.sameImage_self himage,
    Json.sameImage_self (Llms.tidy_toJson hllms), Bool.and_self]

end Session

end PromptChain
