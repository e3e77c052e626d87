import PromptChain.Config
import PromptChain.Proofs.Llm
import PromptChain.Proofs.Node.Sameness
import PromptChain.Proofs.Revision.RoundTrip

/-!
# When written revisions are the same

Language models, revisions and configurations are written as the same value when they are equal,
their maps in whatever order. A revision without an id is written without the field, and so is never
the same as one with an id.
-/

set_option autoImplicit false

namespace PromptChain

open Json (sameItems same_text same_ofWord32 same_ofWord64 same_ofSigned32 same_ofDouble
    same_ofOption
  same_ofOption_eq same_ofMap same_record)

private theorem same_optionText (a b : Option String) :
    (Json.ofOption .text a).same (Json.ofOption .text b) = decide (a = b) :=
  same_ofOption_eq (fun _ => Json.noConfusion) same_text a b

private theorem same_optionWord32 (a b : Option UInt32) :
    (Json.ofOption .ofWord32 a).same (Json.ofOption .ofWord32 b) = decide (a = b) :=
  same_ofOption_eq (fun _ => Json.noConfusion) same_ofWord32 a b

namespace Llm

private theorem same_openAi (a b : OpenAi) :
    (openAi a).toJson.same (openAi b).toJson = a.same b := by
  have htimeout : (Json.ofOption Json.ofWord64 a.requestTimeout).same
      (Json.ofOption .ofWord64 b.requestTimeout) = decide (a.requestTimeout = b.requestTimeout) :=
    same_ofOption_eq (fun _ => Json.noConfusion) same_ofWord64 _ _
  have hbiases : (Json.ofOption (Json.ofMap .ofSigned32) a.logitBias).same
      (Json.ofOption (Json.ofMap .ofSigned32) b.logitBias) =
        a.logitBias.elim b.logitBias.isNone fun x =>
          b.logitBias.any (Entries.sameBy (fun i j => i = j) x) :=
    same_ofOption (fun _ => Json.noConfusion)
      (fun _ _ _ => same_ofMap fun _ _ _ => same_ofSigned32 _ _) _
  rw [toJson, toJson, same_record (by rfl) (by simp [variantTag, Entries.keys]), OpenAi.same]
  simp only [List.map_cons, List.map_nil, sameItems, same_text, same_ofDouble, same_ofWord32,
    htimeout, hbiases, decide_true, Bool.true_and, Bool.and_true, Bool.and_assoc]
  cases a.logitBias <;> cases b.logitBias <;> rfl

private theorem same_sampling (a b : HubSampling) :
    (toJson.sampling a).same (toJson.sampling b) = a.same b := by
  rw [toJson.sampling, toJson.sampling, same_record (by rfl) (by simp [Entries.keys]),
    HubSampling.same]
  simp only [List.map_cons, List.map_nil, sameItems, same_ofDouble, same_ofWord32,
    same_optionWord32, Bool.and_true, Bool.and_assoc]

private theorem same_hub (a b : HubModel) : (hub a).toJson.same (hub b).toJson = a.same b := by
  have hsampling : (Json.ofOption toJson.sampling a.sampling).same
      (Json.ofOption toJson.sampling b.sampling) =
        a.sampling.elim b.sampling.isNone fun x => b.sampling.any x.same :=
    same_ofOption (fun _ => Json.noConfusion) (fun x _ y => same_sampling x y) _
  rw [toJson, toJson, same_record (by rfl) (by simp [variantTag, Entries.keys]), HubModel.same]
  simp only [List.map_cons, List.map_nil, sameItems, same_text, same_optionText, hsampling,
    decide_true, Bool.true_and, Bool.and_true, Bool.and_assoc]
  cases a.sampling <;> cases b.sampling <;> rfl

private theorem same_toJson_of_source_ne {a b : Llm} (hsource : a.source ≠ b.source) :
    a.toJson.same b.toJson = false := by
  have hname : a.source.name ≠ b.source.name := by
    intro h
    cases ha : a.source <;> cases hb : b.source <;> simp_all [Source.name]
  rw [toJson_eq a, toJson_eq b, Json.same_taggedWith_of_ne hname]

theorem same_toJson (a b : Llm) : a.toJson.same b.toJson = a.same b := by
  cases a with
  | openAi a =>
    cases b with
    | openAi b => rw [same_openAi, same]
    | hub b => exact same_toJson_of_source_ne Source.noConfusion
  | hub a =>
    cases b with
    | openAi b => exact same_toJson_of_source_ne Source.noConfusion
    | hub b => rw [same_hub, same]

end Llm

theorem Llms.same_toJson (a b : Llms) : a.toJson.same b.toJson = Llms.same a b :=
  same_ofMap fun _ _ _ => Llm.same_toJson _ _

theorem Revision.same_toJson (a b : Revision) : a.toJson.same b.toJson = a.same b := by
  obtain ⟨i, parent, chain, llms⟩ := a
  obtain ⟨j, parent', chain', llms'⟩ := b
  cases i with
  | none =>
    cases j with
    | none =>
      rw [toJson, toJson, same_record (by rfl) (by simp [Entries.keys]), same]
      simp only [List.nil_append, List.map_cons, List.map_nil, sameItems, same_optionText,
        Node.same_toJson, Llms.same_toJson, decide_true, Bool.true_and, Bool.and_true,
        Bool.and_assoc]
    | some j => rfl
  | some i =>
    cases j with
    | none => rfl
    | some j =>
      rw [toJson, toJson, same_record (by rfl) (by simp [Entries.keys]), same]
      simp only [List.cons_append, List.nil_append, List.map_cons, List.map_nil, sameItems,
        same_text, same_optionText, Node.same_toJson, Llms.same_toJson, Option.some.injEq,
        Bool.and_true, Bool.and_assoc]

theorem Config.same_toJson (a b : Config) : a.toJson.same b.toJson = a.same b := by
  rw [toJson, toJson, same_record (by rfl) (by simp [Entries.keys]), same]
  simp only [List.map_cons, List.map_nil, sameItems, same_text, same_optionText, Llms.same_toJson,
    Bool.and_true, Bool.and_assoc]

end PromptChain
