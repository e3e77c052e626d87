import PromptChain.Llm
import PromptChain.Proofs.Json.TextRecord

/-!
# Documents of language models

The settings of language models are taken back from the way they are written, as long as their maps
name every key once, and read back from their text, as long as it does not nest too deep.
-/

set_option autoImplicit false

namespace PromptChain

open Json (Lawful Decoder)

namespace Llm

/-- The biases of a completion model name every token once. -/
def Proper : Llm → Prop
  | openAi a => ∀ biases ∈ a.logitBias, Entries.Distinct biases
  | hub _ => True

def source : Llm → Source
  | openAi _ => .openAi
  | hub _ => .hub

def Source.name : Source → String
  | openAi => "openai"
  | hub => "huggingface_hub"

private def openAiOfRow : Json.Row [String, Float, UInt32, Float, Float, Float, UInt32, UInt32,
    Option UInt64, Option (List (String × Int32))] → Llm
  | (modelName, temperature, maxTokens, topP, frequencyPenalty, presencePenalty, n, bestOf,
      requestTimeout, logitBias, ()) =>
    openAi ⟨modelName, temperature, maxTokens, topP, frequencyPenalty, presencePenalty, n, bestOf,
      requestTimeout, logitBias⟩

private theorem lawful_openAi :
    Lawful (fun a => .object (Json.untagged (toJson a))) (ofFields .openAi)
      fun a => a.Proper ∧ a.source = .openAi := by
  -- from the last field to the first
  have hfields := (Json.lawfulFields_nil 0
    |>.defaulted (Json.lawful_signed32.map.optional (by simp [Json.ofMap])) "logit_bias"
      none (by simp) le_rfl
    |>.defaulted (Json.lawful_word64.optional (by simp [Json.ofWord64])) "request_timeout"
      none (by simp) le_rfl
    |>.required Json.lawful_word32 "best_of" |>.required Json.lawful_word32 "n"
    |>.required Json.lawful_double "presence_penalty"
    |>.required Json.lawful_double "frequency_penalty" |>.required Json.lawful_double "top_p"
    |>.required Json.lawful_word32 "max_tokens" |>.required Json.lawful_double "temperature"
    |>.required Json.lawful_text "model_name")
  refine hfields.lawful "OpenAiConfig" openAiOfRow
    (by decide) (fun _ _ _ _ _ => Nat.zero_le _) (fun _ => rfl) (fun _ => rfl) fun a => ?_
  constructor
  · rintro ⟨ha, hsource⟩
    cases a with
    | openAi s => exact ⟨(s.modelName, s.temperature, s.maxTokens, s.topP, s.frequencyPenalty,
        s.presencePenalty, s.n, s.bestOf, s.requestTimeout, s.logitBias, ()),
        by simpa [Proper] using ha, rfl⟩
    | hub s => contradiction
  · rintro ⟨row, hrow, rfl⟩
    exact ⟨by simpa [Proper, openAiOfRow] using hrow, rfl⟩

private def samplingOfRow : Json.Row [Float, UInt32, Option UInt32, Option UInt32] → HubSampling
  | (temperature, maxLength, minNewTokens, maxTime, ()) =>
    ⟨temperature, maxLength, minNewTokens, maxTime⟩

private theorem lawful_sampling : Lawful toJson.sampling samplingOfJson fun _ => True := by
  have hfields := (Json.lawfulFields_nil 0
    |>.defaulted (Json.lawful_word32.optional (by simp [Json.ofWord32])) "max_time"
      none (by simp) le_rfl
    |>.defaulted (Json.lawful_word32.optional (by simp [Json.ofWord32])) "min_new_tokens"
      none (by simp) le_rfl
    |>.required Json.lawful_word32 "max_length" |>.required Json.lawful_double "temperature")
  refine hfields.lawful "HuggingFaceModelKwargs" samplingOfRow
    (by decide) (fun _ _ _ _ _ => Nat.zero_le _) (fun _ => rfl) (fun _ => rfl) fun a => ?_
  refine iff_of_true trivial ⟨(a.temperature, a.maxLength, a.minNewTokens, a.maxTime, ()), ?_, rfl⟩
  simp

private def hubOfRow : Json.Row [String, Option String, Option HubSampling] → Llm
  | (repoId, task, sampling, ()) => hub ⟨repoId, task, sampling⟩

private theorem lawful_hub :
    Lawful (fun a => .object (Json.untagged (toJson a))) (ofFields .hub)
      fun a => a.Proper ∧ a.source = .hub := by
  have hfields := (Json.lawfulFields_nil 0
    |>.defaulted (lawful_sampling.optional (by simp [toJson.sampling])) "model_kwargs"
      none (by simp) le_rfl
    |>.defaulted (Json.lawful_text.optional (by simp)) "task" none (by simp) le_rfl
    |>.required Json.lawful_text "repo_id")
  refine hfields.lawful "HuggingFaceHubConfig" hubOfRow
    (by decide) (fun _ _ _ _ _ => Nat.zero_le _) (fun _ => rfl) (fun _ => rfl) fun a => ?_
  constructor
  · rintro ⟨-, hsource⟩
    cases a with
    | openAi s => contradiction
    | hub s => exact ⟨(s.repoId, s.task, s.sampling, ()), by simp, rfl⟩
  · rintro ⟨row, -, rfl⟩
    exact ⟨trivial, rfl⟩

theorem toJson_eq (a : Llm) :
    a.toJson = Json.taggedWith variants a.source.name (Json.untagged a.toJson) := by
  cases a <;> rfl

theorem tag_not_mem_keys (a : Llm) : variants.tag ∉ Entries.keys (Json.untagged a.toJson) := by
  cases a <;> simp [variants, variantTag, toJson, Json.untagged, Entries.keys]

theorem ofName_name (s : Source) : variants.ofName s.name = .ok s := by
  cases s <;> rfl

theorem lawful_fields (s : Source) :
    Lawful (fun a => .object (Json.untagged (toJson a))) (ofFields s)
      fun a => a.Proper ∧ a.source = s := by
  cases s with
  | openAi => exact lawful_openAi
  | hub => exact lawful_hub

theorem lawful : Lawful toJson ofJson Proper :=
  .tagged toJson_eq ofName_name tag_not_mem_keys lawful_fields

theorem read_eq (budget room : Nat) : read budget room = variants.readFields ofFields budget room :=
  rfl

theorem proper_of_read {budget room : Nat} {cs rest : List Char} {a : Llm}
    (h : read budget room cs = .ok (a, rest)) : a.Proper ∧ a.toJson.depth ≤ room := by
  obtain ⟨s, fields, hfields, hdepth, hrange⟩ := Json.Variants.exists_of_readFields h
  have hle := (lawful_fields s).depth_le fields a hfields
  rw [toJson_eq, Json.depth_taggedWith]
  exact ⟨((lawful_fields s).proper fields a hrange hfields).1, hle.trans hdepth⟩

theorem skipsBlanks_read (budget room : Nat) : Json.SkipsBlanks (read budget room) :=
  Json.Variants.skipsBlanks_readFields budget room

theorem readsAs_read (w : Json.Style) {a : Llm} (ha : a.Proper) (hlegible : a.toJson.Legible)
    {budget level : Nat} (hbudget : (w.text level a.toJson).length < budget) (room : Nat) :
    Json.ReadsAs (read budget room) (w.text level a.toJson)
      (Decoder.within room ofJson a.toJson) := by
  have htake := (lawful_fields a.source).take_write a ⟨ha, rfl⟩
  have hresult : Decoder.within room ofJson a.toJson =
      Decoder.within room (fun _ => .ok a) a.toJson := by
    rw [Decoder.within, Decoder.within, lawful.take_write a ha]
  rw [hresult]
  rw [toJson_eq] at hlegible hbudget ⊢
  exact Json.Variants.readsAs_readFields w (ofName_name a.source) (tag_not_mem_keys a) htake
    hlegible hbudget room

end Llm

namespace Llms

/-- Every name occurs once, and every language model is proper. -/
def Proper (llms : Llms) : Prop := Entries.Distinct llms ∧ ∀ e ∈ llms, e.2.Proper

theorem lawful : Lawful toJson ofJson Proper := Llm.lawful.map

theorem proper_nil : Proper [] := ⟨List.nodup_nil, by simp⟩

theorem proper_standard : Proper .standard := by
  refine ⟨by simp [Entries.Distinct, Entries.keys, standard],
    List.forall_mem_singleton.2 fun biases h => ?_⟩
  obtain rfl := Option.some.inj h
  exact List.nodup_nil

private theorem proper_of_takeEntry {budget room : Nat} {llms llms' : Llms} {name : String}
    {cs rest : List Char} (hllms : llms.Proper ∧ ∀ e ∈ llms, e.2.toJson.depth ≤ room)
    (h : takeEntry budget room llms name cs = .ok (llms', rest)) :
    llms'.Proper ∧ ∀ e ∈ llms', e.2.toJson.depth ≤ room := by
  obtain ⟨inside, -, h⟩ := bind_eq_ok.1 h
  obtain ⟨⟨a, left⟩, ha, h⟩ := bind_eq_ok.1 h
  obtain ⟨rfl, -⟩ := ok_pair_inj h
  obtain ⟨hproper, hdepth⟩ := Llm.proper_of_read ha
  refine ⟨⟨Entries.distinct_put hllms.1.1 name a, fun e he => ?_⟩, fun e he => ?_⟩
  · rcases Entries.mem_of_mem_put he with he | rfl
    · exact hllms.1.2 e he
    · exact hproper
  · rcases Entries.mem_of_mem_put he with he | rfl
    · exact hllms.2 e he
    · exact hdepth

private theorem read_object {cs rest : List Char} (h : Json.skipBlanks cs = '\x7b' :: rest)
    (budget room : Nat) :
    read budget (room + 1) cs = Json.foldEntries (takeEntry budget room) budget true [] rest := by
  rw [read, h]
  rfl

theorem proper_of_read {budget room : Nat} {cs rest : List Char} {llms : Llms}
    (h : read budget room cs = .ok (llms, rest)) : llms.Proper ∧ llms.toJson.depth ≤ room := by
  by_cases hobject : ∃ inside, Json.skipBlanks cs = '\x7b' :: inside
  · obtain ⟨inside, hinside⟩ := hobject
    cases room with
    | zero =>
      rw [read, hinside] at h
      contradiction
    | succ room =>
      rw [read_object hinside] at h
      have hfold := Json.foldEntries_invariant
        (motive := fun llms : Llms => llms.Proper ∧ ∀ e ∈ llms, e.2.toJson.depth ≤ room)
        (fun s key cs t rest hs ht => proper_of_takeEntry hs ht)
        ⟨proper_nil, by simp⟩ h
      exact ⟨hfold.1, (Json.depth_object_le_iff _ room).2 (List.forall_mem_map.2 hfold.2)⟩
  · rw [read] at h
    split at h
    · next inside hinside => exact absurd ⟨inside, hinside⟩ hobject
    · exact absurd h Json.readMistyped_ne_ok

theorem skipsBlanks_read (budget room : Nat) : Json.SkipsBlanks (read budget room) := by
  intro blanks cs hblanks
  rw [read, read, Json.skipBlanks_append hblanks]

private theorem foldlM_put {decode : Decoder Llm} (es : List (String × Json)) (llms : Llms) :
    es.foldlM (fun llms e => Entries.put llms e.1 <$> decode e.2) llms =
      (fun as => as.foldl (fun m a => Entries.put m a.1 a.2) llms) <$>
        Decoder.entries decode es := by
  induction es generalizing llms with
  | nil => rfl
  | cons e es ih =>
    rw [List.foldlM_cons, Decoder.entries]
    cases decode e.2 with
    | error cause => rfl
    | ok a =>
      simp only [Except.map_ok, ok_bind, ih]
      cases Decoder.entries decode es <;> rfl

theorem readsAs_read (w : Json.Style) {llms : Llms} (hllms : llms.Proper)
    (hlegible : llms.toJson.Legible) {budget level : Nat}
    (hbudget : (w.text level llms.toJson).length < budget) (room : Nat) :
    Json.ReadsAs (read budget room) (w.text level llms.toJson)
      (Decoder.within room ofJson llms.toJson) := by
  intro rest hrest
  rw [Decoder.within, lawful.take_write llms hllms]
  have hskip := fun cs : List Char =>
    Json.skipBlanks_cons (show Json.isBlank '\x7b' = false from rfl) cs
  rw [toJson, Json.ofMap] at hlegible hbudget ⊢
  obtain ⟨hcount, hlength⟩ := w.length_lt_text_object level (llms.map fun e => (e.1, e.2.toJson))
  rw [w.text_object]
  cases room with
  | zero =>
    rw [List.cons_append, read, hskip, if_neg (by simp [Json.depth])]
    rfl
  | succ room =>
    have hparts : ∀ e ∈ llms.map (fun e => (e.1, e.2.toJson)), ∀ llms : Llms,
        Json.ReadsAs (takeEntry budget room llms e.1) (':' :: w.gap ++ w.text (level + 1) e.2)
          (Entries.put llms e.1 <$> Decoder.within room Llm.ofJson e.2) := by
      intro e he llms' rest hrest
      have hsize := (hlength e he).trans hbudget
      have hvalue := Json.eachNumber_object_iff.1 hlegible e he
      obtain ⟨a, ha, rfl⟩ := List.mem_map.1 he
      have hread := (Llm.readsAs_read w (hllms.2 a ha) hvalue hsize room).behind
        (Llm.skipsBlanks_read budget room) w.blank_gap rest hrest
      rw [takeEntry, List.cons_append, List.cons_append, Json.passColon_colon, ok_bind, hread]
      cases Decoder.within room Llm.ofJson a.2.toJson <;> rfl
    have hloop :=
      Json.foldEntries_enclosed (w.blank_indent (level + 1)) (w.blank_indent level) hparts
      (hcount.trans hbudget) [] rest hrest
    have hentries : Decoder.entries Llm.ofJson (llms.map fun e => (e.1, e.2.toJson)) = .ok llms :=
      Json.entries_map_write fun e he => Llm.lawful.take_write e.2 (hllms.2 e he)
    have hsame : llms.foldl (fun m a => Entries.put m a.1 a.2) [] = llms :=
      Entries.ofList_eq_self hllms.1
    rw [foldlM_put, Json.entries_within hentries] at hloop
    rw [List.cons_append, read_object (hskip _), hloop, Json.depth]
    by_cases hdepth : Json.depthEntries (llms.map fun e => (e.1, e.2.toJson)) ≤ room <;>
      simp [hdepth, hsame, Json.leaving, Json.malformed]

end Llms

end PromptChain
