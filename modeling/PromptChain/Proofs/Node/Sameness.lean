import PromptChain.Node.Same
import PromptChain.Proofs.Json.Sameness
import PromptChain.Proofs.Node.Document

/-!
# When written chains are the same

Two chains are written as the same value when they are equal, their maps in whatever order. The kind
of a node is written beside its fields, so nodes of different kinds are never the same; nor is a
choice without a fallback the same as one that has one.
-/

set_option autoImplicit false

namespace PromptChain.Node

open Json (sameItems same_text same_ofWord64 same_ofWord32 same_ofDouble same_ofTexts same_ofOption
  same_ofOption_eq same_ofMap same_object)

theorem toJson_ne_null (t : Node) : t.toJson ≠ .null := by
  cases t <;> exact Json.noConfusion

private theorem keys_untagged_of_kind {a b : Node} (hkind : a.kind = b.kind) :
    Entries.keys (Json.untagged a.toJson) = Entries.keys (Json.untagged b.toJson) := by
  cases a with
  | leaf l =>
    cases b with
    | leaf m => cases l <;> cases m <;> first | rfl | contradiction
    | sequence | choice => cases l <;> contradiction
  | sequence =>
    cases b with
    | leaf m => cases m <;> contradiction
    | sequence => rfl
    | choice => contradiction
  | choice =>
    cases b with
    | leaf m => cases m <;> contradiction
    | sequence => contradiction
    | choice => rfl

private theorem nodup_keys_untagged (t : Node) :
    (variants.tag :: Entries.keys (Json.untagged t.toJson)).Nodup := by
  cases t with
  | leaf l =>
    cases l <;> simp [variants, kindTag, toJson, tagged, Json.untagged, Leaf.entries, Entries.keys]
  | sequence | choice => simp [variants, kindTag, toJson, tagged, Json.untagged, Entries.keys]

private theorem same_toJson_of_kind {a b : Node} (hkind : a.kind = b.kind) :
    a.toJson.same b.toJson =
      sameItems ((Json.untagged a.toJson).map (·.2)) ((Json.untagged b.toJson).map (·.2)) := by
  rw [toJson_eq a, toJson_eq b, hkind,
    Json.same_taggedWith (keys_untagged_of_kind hkind) (nodup_keys_untagged b)]
  rfl

private theorem same_toJson_of_kind_ne {a b : Node} (hkind : a.kind ≠ b.kind) :
    a.toJson.same b.toJson = false := by
  have hname : a.kind.name ≠ b.kind.name := fun h => hkind (Kind.name_injective h)
  rw [toJson_eq a, toJson_eq b, Json.same_taggedWith_of_ne hname]

private theorem same_of_kind_ne {a b : Node} (hkind : a.kind ≠ b.kind) : a.same b = false := by
  cases a with
  | leaf l =>
    cases b with
    | leaf m => cases l <;> cases m <;> first | exact absurd rfl hkind | simp [same, Leaf.same]
    | sequence | choice => simp [same]
  | sequence =>
    cases b with
    | leaf | choice => simp [same]
    | sequence => exact absurd rfl hkind
  | choice =>
    cases b with
    | leaf | sequence => simp [same]
    | choice => exact absurd rfl hkind

private theorem text_ne_null (s : String) : Json.text s ≠ .null := Json.noConfusion

private theorem same_texts (a b : List (String × String)) :
    (Json.ofMap .text a).same (Json.ofMap .text b) = sameTexts a b :=
  same_ofMap fun _ _ _ => same_text _ _

private theorem same_prompt (a b : Prompt) :
    (leaf (.prompt a)).toJson.same (leaf (.prompt b)).toJson = decide (a = b) := by
  rw [same_toJson_of_kind (by rfl)]
  simp only [toJson, tagged, Json.untagged, Leaf.entries, List.map_cons, List.map_nil, sameItems,
    same_ofWord64, same_ofTexts, same_text]
  cases a
  cases b
  simp

private theorem same_chat (a b : Chat) :
    (leaf (.chat a)).toJson.same (leaf (.chat b)).toJson = decide (a = b) := by
  rw [same_toJson_of_kind (by rfl)]
  simp only [toJson, tagged, Json.untagged, Leaf.entries, List.map_cons, List.map_nil, sameItems,
    same_ofWord64, same_ofTexts, same_text]
  cases a
  cases b
  simp

private theorem same_api (a b : ApiCall) :
    (leaf (.api a)).toJson.same (leaf (.api b)).toJson = a.same b := by
  have hheaders : (Json.ofOption (Json.ofMap .text) a.headers).same
      (Json.ofOption (Json.ofMap .text) b.headers) =
        a.headers.elim b.headers.isNone fun x => b.headers.any (sameTexts x) :=
    same_ofOption (fun _ => Json.noConfusion) (fun x _ y => same_texts x y) _
  have hbody : (Json.ofOption Json.text a.body).same (Json.ofOption .text b.body) =
      decide (a.body = b.body) := same_ofOption_eq text_ne_null same_text _ _
  rw [same_toJson_of_kind (by rfl), ApiCall.same]
  simp only [toJson, tagged, Json.untagged, Leaf.entries, List.map_cons, List.map_nil, sameItems,
    same_ofWord64, same_ofTexts, same_text, hheaders, hbody, Bool.and_true]
  rw [Bool.eq_iff_iff]
  cases a.headers <;> cases b.headers <;>
    simp only [Option.elim, Option.isNone, Option.any, Bool.and_eq_true, decide_eq_true_eq] <;>
      tauto

private theorem same_vectorSearch (a b : VectorSearch) :
    (leaf (.vectorSearch a)).toJson.same (leaf (.vectorSearch b)).toJson = a.same b := by
  rw [same_toJson_of_kind (by rfl), VectorSearch.same]
  simp only [toJson, tagged, Json.untagged, Leaf.entries, List.map_cons, List.map_nil, sameItems,
    same_ofWord64, same_ofWord32, same_ofDouble, same_ofTexts, same_text, same_object,
    Bool.and_true, Bool.and_assoc]

private theorem same_reformat (a b : Reformat) :
    (leaf (.reformat a)).toJson.same (leaf (.reformat b)).toJson = a.same b := by
  rw [same_toJson_of_kind (by rfl), Reformat.same]
  simp only [toJson, tagged, Json.untagged, Leaf.entries, List.map_cons, List.map_nil, sameItems,
    same_ofWord64, same_ofTexts, same_texts, Bool.and_true, Bool.and_assoc]

private theorem same_transform (a b : Transform) :
    (leaf (.transform a)).toJson.same (leaf (.transform b)).toJson = decide (a = b) := by
  rw [same_toJson_of_kind (by rfl)]
  simp only [toJson, tagged, Json.untagged, Leaf.entries, List.map_cons, List.map_nil, sameItems,
    same_ofWord64, same_ofTexts, same_text]
  cases a
  cases b
  simp

private theorem same_leaf {a b : Leaf} (hkind : a.kind = b.kind) :
    (leaf a).toJson.same (leaf b).toJson = a.same b := by
  cases a <;> cases b <;> first | contradiction | skip
  case prompt.prompt p q => exact same_prompt p q
  case chat.chat c d => exact same_chat c d
  case api.api c d => exact same_api c d
  case vectorSearch.vectorSearch v w => exact same_vectorSearch v w
  case reformat.reformat r s => exact same_reformat r s
  case transform.transform s t => exact same_transform s t

private theorem sameSteps_eq {steps : List Node}
    (h : ∀ n ∈ steps, ∀ m : Node, n.toJson.same m.toJson = n.same m) (others : List Node) :
    sameItems (steps.map toJson) (others.map toJson) = sameSteps steps others := by
  induction steps generalizing others with
  | nil => cases others <;> simp [sameItems, sameSteps]
  | cons n steps ih =>
    obtain ⟨hn, hsteps⟩ := List.forall_mem_cons.1 h
    cases others with
    | nil => simp [sameItems, sameSteps]
    | cons m others =>
      rw [List.map_cons, List.map_cons, sameItems, sameSteps, hn m, ih hsteps others]

private theorem sameBranches_eq (branches others : List (String × Node)) :
    Entries.sameBy same branches others =
      (decide (branches.length = others.length) && sameBranches branches others) := by
  rw [Entries.sameBy]
  congr 1
  induction branches with
  | nil => simp [sameBranches]
  | cons b branches ih =>
    rw [sameBranches, List.all_cons, ih]
    cases Entries.get? others b.1 <;> rfl

private theorem sameFallback_eq (a b : Option Node) :
    sameFallback a b = a.elim b.isNone fun x => b.any x.same := by
  cases a <;> cases b <;> simp [sameFallback]

theorem same_toJson (a b : Node) : a.toJson.same b.toJson = a.same b := by
  -- The other tree is general: branches are compared with whatever stands under their label there.
  -- Its kind shows in the tag, so only nodes of one kind are compared field by field.
  induction a generalizing b with
  | leaf l =>
    by_cases hkind : (leaf l).kind = b.kind
    · cases b with
      | leaf m => rw [same_leaf hkind, same]
      | sequence | choice => cases l <;> contradiction
    · rw [same_toJson_of_kind_ne hkind, same_of_kind_ne hkind]
  | sequence i ins outs steps ih =>
    by_cases hkind : (sequence i ins outs steps).kind = b.kind
    · cases b with
      | leaf m => cases m <;> contradiction
      | sequence j ins' outs' steps' =>
        rw [same_toJson_of_kind hkind, toJson_sequence, toJson_sequence, same]
        simp only [tagged, Json.untagged, List.map_cons, List.map_nil, sameItems, same_ofWord64,
          same_ofTexts, Json.same, sameSteps_eq ih, Bool.and_true, Bool.and_assoc]
      | choice => contradiction
    · rw [same_toJson_of_kind_ne hkind, same_of_kind_ne hkind]
  | choice i key branches fallback ihb ihf =>
    by_cases hkind : (choice i key branches fallback).kind = b.kind
    · cases b with
      | leaf m => cases m <;> contradiction
      | sequence => contradiction
      | choice j key' branches' fallback' =>
        have hbranches : (Json.ofMap toJson branches).same (Json.ofMap toJson branches') =
            Entries.sameBy same branches branches' := same_ofMap fun b hb m => ihb b hb m
        have hfallback : (Json.ofOption toJson fallback).same (Json.ofOption toJson fallback') =
            fallback.elim fallback'.isNone fun x => fallback'.any x.same :=
          same_ofOption toJson_ne_null (fun n hn m => ihf n hn m) fallback'
        rw [same_toJson_of_kind hkind, toJson_choice, toJson_choice, same, sameFallback_eq]
        simp only [tagged, Json.untagged, List.map_cons, List.map_nil, sameItems, same_ofWord64,
          same_text, hbranches, hfallback, sameBranches_eq, Bool.and_true, Bool.and_assoc]
    · rw [same_toJson_of_kind_ne hkind, same_of_kind_ne hkind]

theorem same_ofOption_toJson (a b : Option Node) :
    (Json.ofOption toJson a).same (Json.ofOption toJson b) = sameOption a b := by
  rw [same_ofOption toJson_ne_null (fun n _ m => same_toJson n m), sameOption, sameFallback_eq]

end PromptChain.Node
