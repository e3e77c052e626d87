import PromptChain.Node.Document
import PromptChain.Proofs.Json.TextRecord
import PromptChain.Proofs.Node.Induction
import PromptChain.Proofs.Node.Refreshing

/-!
# Documents of trees

A tree is taken back from the way it is written, as long as its maps name every key once and its
free-form values can be read, and it is read back from its text, as long as that does not nest too
deep. Taking a value down to a number of levels gives a tree of at most as many levels.
-/

set_option autoImplicit false

namespace PromptChain

open Json (Lawful Decoder)

/-- Entries of a free-form map: every key once, every value as it is read. -/
def Json.FreeForm (es : List (String × Json)) : Prop :=
  Entries.Distinct es ∧ ∀ e ∈ es, e.2.InRange ∧ e.2.Tidy

/-- The maps of a leaf name every key once. -/
def Leaf.Proper : Leaf → Prop
  | api a => ∀ headers ∈ a.headers, Entries.Distinct headers
  | vectorSearch v => Json.FreeForm v.embeddingParams ∧ Json.FreeForm v.databaseParams
  | reformat r => Entries.Distinct r.formatters
  | prompt _ | chat _ | transform _ => True

namespace Node

/-- The maps of a tree name every key once. -/
inductive Proper : Node → Prop where
  | leaf {l : Leaf} : l.Proper → Proper (leaf l)
  | sequence {i : NodeId} {ins outs : List String} {steps : List Node} :
      (∀ n ∈ steps, Proper n) → Proper (sequence i ins outs steps)
  | choice {i : NodeId} {key : String} {branches : List (String × Node)} {fallback : Option Node} :
      Entries.Distinct branches → (∀ b ∈ branches, Proper b.2) → (∀ n ∈ fallback, Proper n) →
      Proper (choice i key branches fallback)

mutual

def levels : Node → Nat
  | leaf _ => 1
  | sequence _ _ _ steps => levelsOfSteps steps + 1
  | choice _ _ branches fallback => max (levelsOfBranches branches) (levelsOfFallback fallback) + 1

def levelsOfSteps : List Node → Nat
  | [] => 0
  | n :: ns => max (levels n) (levelsOfSteps ns)

def levelsOfBranches : List (String × Node) → Nat
  | [] => 0
  | (_, n) :: bs => max (levels n) (levelsOfBranches bs)

def levelsOfFallback : Option Node → Nat
  | none => 0
  | some n => levels n

end

private theorem levelsOfSteps_le_iff (steps : List Node) (k : Nat) :
    levelsOfSteps steps ≤ k ↔ ∀ n ∈ steps, n.levels ≤ k := by
  induction steps with
  | nil => simp [levelsOfSteps]
  | cons n ns ih => rw [levelsOfSteps, Nat.max_le, ih, List.forall_mem_cons]

private theorem levelsOfBranches_le_iff (branches : List (String × Node)) (k : Nat) :
    levelsOfBranches branches ≤ k ↔ ∀ b ∈ branches, b.2.levels ≤ k := by
  induction branches with
  | nil => simp [levelsOfBranches]
  | cons b bs ih => rw [levelsOfBranches, Nat.max_le, ih, List.forall_mem_cons]

private theorem levelsOfFallback_le_iff (fallback : Option Node) (k : Nat) :
    levelsOfFallback fallback ≤ k ↔ ∀ n ∈ fallback, n.levels ≤ k := by
  cases fallback <;> simp [levelsOfFallback]

theorem levels_sequence_le_iff (i : NodeId) (ins outs : List String) (steps : List Node) (k : Nat) :
    (sequence i ins outs steps).levels ≤ k + 1 ↔ ∀ n ∈ steps, n.levels ≤ k := by
  rw [levels, Nat.succ_le_succ_iff, levelsOfSteps_le_iff]

theorem levels_choice_le_iff (i : NodeId) (key : String) (branches : List (String × Node))
    (fallback : Option Node) (k : Nat) : (choice i key branches fallback).levels ≤ k + 1 ↔
      (∀ b ∈ branches, b.2.levels ≤ k) ∧ ∀ n ∈ fallback, n.levels ≤ k := by
  rw [levels, Nat.succ_le_succ_iff, Nat.max_le, levelsOfBranches_le_iff, levelsOfFallback_le_iff]

theorem stepsToJson_eq (steps : List Node) : stepsToJson steps = steps.map toJson := by
  induction steps with
  | nil => rfl
  | cons n ns ih => rw [stepsToJson, ih, List.map_cons]

theorem branchesToJson_eq (branches : List (String × Node)) :
    branchesToJson branches = branches.map fun b => (b.1, b.2.toJson) := by
  induction branches with
  | nil => rfl
  | cons b bs ih => rw [branchesToJson, ih, List.map_cons]

theorem fallbackToJson_eq (fallback : Option Node) :
    fallbackToJson fallback = Json.ofOption toJson fallback := by
  cases fallback <;> rfl

theorem toJson_eq (n : Node) :
    n.toJson = Json.taggedWith variants n.kind.name (Json.untagged n.toJson) := by
  cases n <;> rfl

theorem toJson_sequence (i : NodeId) (ins outs : List String) (steps : List Node) :
    (sequence i ins outs steps).toJson = tagged .sequence [("chain_id", .ofWord64 i),
      ("input_keys", .ofTexts ins), ("output_keys", .ofTexts outs),
      ("chains", .array (steps.map toJson))] := by
  rw [toJson, stepsToJson_eq]

theorem toJson_choice (i : NodeId) (key : String) (branches : List (String × Node))
    (fallback : Option Node) : (choice i key branches fallback).toJson =
      tagged .choice [("chain_id", .ofWord64 i), ("categorization_key", .text key),
        ("cases", .ofMap toJson branches), ("default_case", .ofOption toJson fallback)] := by
  rw [toJson, branchesToJson_eq, fallbackToJson_eq]
  rfl

theorem depth_lt_of_mem_children {n m : Node} (h : m ∈ n.children) :
    m.toJson.depth < n.toJson.depth := by
  cases n with
  | leaf l => contradiction
  | sequence i ins outs steps =>
    have hlist : m.toJson.depth < (Json.array (steps.map toJson)).depth :=
      Json.depth_lt_of_mem_members (List.mem_map_of_mem h)
    rw [toJson_sequence]
    exact hlist.trans (Json.depth_lt_of_mem_members (by simp [tagged, Json.members]))
  | choice i key branches fallback =>
    rw [toJson_choice]
    rcases List.mem_append.1 h with hbranch | hfallback
    · obtain ⟨b, hb, rfl⟩ := List.mem_map.1 hbranch
      have hmap : b.2.toJson.depth < (Json.ofMap toJson branches).depth :=
        Json.depth_lt_of_mem_members (List.mem_map_of_mem (List.mem_map_of_mem hb))
      exact hmap.trans (Json.depth_lt_of_mem_members (by simp [tagged, Json.members]))
    · obtain rfl := Option.mem_toList.1 hfallback
      exact Json.depth_lt_of_mem_members (by simp [tagged, Json.members, Json.ofOption])

theorem levels_le_depth (n : Node) : n.levels ≤ n.toJson.depth := by
  induction n with
  | leaf l => exact Nat.succ_pos _
  | sequence i ins outs steps ih =>
    obtain ⟨d, hd⟩ : ∃ d, (sequence i ins outs steps).toJson.depth = d + 1 := ⟨_, rfl⟩
    rw [hd, levels_sequence_le_iff]
    intro n hn
    have hlt := depth_lt_of_mem_children (n := sequence i ins outs steps) hn
    exact (ih n hn).trans (by omega)
  | choice i key branches fallback ihb ihf =>
    obtain ⟨d, hd⟩ : ∃ d, (choice i key branches fallback).toJson.depth = d + 1 := ⟨_, rfl⟩
    rw [hd, levels_choice_le_iff]
    refine ⟨fun b hb => ?_, fun n hn => ?_⟩
    · have hlt := depth_lt_of_mem_children (n := choice i key branches fallback) (m := b.2)
        (List.mem_append_left _ (List.mem_map_of_mem hb))
      exact (ihb b hb).trans (by omega)
    · have hlt := depth_lt_of_mem_children (n := choice i key branches fallback) (m := n)
        (List.mem_append_right _ (Option.mem_toList.2 hn))
      exact (ihf n hn).trans (by omega)

theorem depth_toJson_refresh (t : Node) : t.refresh.toJson.depth = t.toJson.depth := by
  induction t with
  | leaf l => rfl
  | sequence i ins outs steps ih =>
    have hsteps : steps.map (Json.depth ∘ toJson ∘ refresh) = steps.map (Json.depth ∘ toJson) :=
      List.map_congr_left ih
    simp only [refresh_sequence, toJson_sequence, tagged, Json.depth, Json.depthEntries,
      Json.depth_ofTexts, Json.depthItems_eq, List.map_map, hsteps]
  | choice i key branches fallback ihb ihf =>
    have hbranches : branches.map (fun b => b.2.refresh.toJson.depth) =
        branches.map fun b => b.2.toJson.depth := List.map_congr_left ihb
    have hfallback : (Json.ofOption toJson (fallback.map refresh)).depth =
        (Json.ofOption toJson fallback).depth := by
      cases fallback with
      | none => rfl
      | some n => exact ihf n rfl
    simp only [refresh_choice, toJson_choice, tagged, Json.depth, Json.depthEntries, Json.ofMap,
      Json.depthEntries_eq, List.map_map, Function.comp_def, hbranches, hfallback]

theorem numbers_toJson_refresh (t : Node) : t.refresh.toJson.numbers = t.toJson.numbers := by
  induction t with
  | leaf l => rfl
  | sequence i ins outs steps ih =>
    have hsteps : steps.flatMap (fun n => n.refresh.toJson.numbers) =
        steps.flatMap fun n => n.toJson.numbers := List.flatMap_congr ih
    simp only [refresh_sequence, toJson_sequence, tagged, Json.numbers, Json.numbersOfEntries,
      Json.numbers_ofTexts, Json.numbersOfItems_eq, List.map_map, List.flatMap_map,
      Function.comp_apply, hsteps]
  | choice i key branches fallback ihb ihf =>
    have hbranches : branches.flatMap (fun b => b.2.refresh.toJson.numbers) =
        branches.flatMap fun b => b.2.toJson.numbers := List.flatMap_congr ihb
    have hfallback : (Json.ofOption toJson (fallback.map refresh)).numbers =
        (Json.ofOption toJson fallback).numbers := by
      cases fallback with
      | none => rfl
      | some n => exact ihf n rfl
    simp only [refresh_choice, toJson_choice, tagged, Json.numbers, Json.numbersOfEntries,
      Json.ofMap, Json.numbersOfEntries_eq, List.flatMap_map, hbranches, hfallback]

/-! ## Reading -/

/-- The trees that are taken from values down to a number of levels. -/
def ProperWithin (k : Nat) (n : Node) : Prop := n.Proper ∧ n.levels ≤ k

variable {k : Nat} {node : Decoder Node}

private theorem properWithin_leaf_iff (l : Leaf) : (leaf l).ProperWithin (k + 1) ↔ l.Proper := by
  constructor
  · rintro ⟨⟨h⟩, -⟩
    exact h
  · exact fun h => ⟨.leaf h, Nat.succ_le_succ (Nat.zero_le k)⟩

def promptOfRow : Json.Row [NodeId, List String, String, String, String] → Node
  | (id, inputKeys, outputKey, prompt, llmKey, ()) =>
    leaf (.prompt ⟨id, inputKeys, outputKey, prompt, llmKey⟩)

private theorem lawful_prompt :
    Lawful (fun n => .object (Json.untagged (toJson n))) (ofFields node .prompt)
      fun n => n.ProperWithin (k + 1) ∧ n.kind = .prompt := by
  have hfields := (Json.lawfulFields_nil 0
    |>.required Json.lawful_text "llm_key" |>.required Json.lawful_text "prompt"
    |>.required Json.lawful_text "output_key" |>.required Json.lawful_texts "input_keys"
    |>.required Json.lawful_word64 "chain_id")
  refine hfields.lawful "LlmChain" promptOfRow
    (by decide) (fun _ _ _ _ _ => Nat.zero_le _) (fun _ => rfl) (fun _ => rfl) fun n => ?_
  constructor
  · rintro ⟨-, hkind⟩
    rcases n with (p | _ | _ | _ | _ | _) | _ | _
    on_goal 1 => exact ⟨(p.id, p.inputKeys, p.outputKey, p.prompt, p.llmKey, ()), by simp, rfl⟩
    all_goals contradiction
  · rintro ⟨row, -, rfl⟩
    exact ⟨(properWithin_leaf_iff _).2 trivial, rfl⟩

def chatOfRow : Json.Row [NodeId, List String, String, String, String, String] → Node
  | (id, inputKeys, outputKey, prompt, role, llmKey, ()) =>
    leaf (.chat ⟨id, inputKeys, outputKey, prompt, role, llmKey⟩)

private theorem lawful_chat :
    Lawful (fun n => .object (Json.untagged (toJson n))) (ofFields node .chat)
      fun n => n.ProperWithin (k + 1) ∧ n.kind = .chat := by
  have hfields := (Json.lawfulFields_nil 0
    |>.required Json.lawful_text "llm_key" |>.required Json.lawful_text "role"
    |>.required Json.lawful_text "prompt" |>.required Json.lawful_text "output_key"
    |>.required Json.lawful_texts "input_keys" |>.required Json.lawful_word64 "chain_id")
  refine hfields.lawful "ChatChain" chatOfRow
    (by decide) (fun _ _ _ _ _ => Nat.zero_le _) (fun _ => rfl) (fun _ => rfl) fun n => ?_
  constructor
  · rintro ⟨-, hkind⟩
    rcases n with (_ | c | _ | _ | _ | _) | _ | _
    on_goal 2 =>
      exact ⟨(c.id, c.inputKeys, c.outputKey, c.prompt, c.role, c.llmKey, ()), by simp, rfl⟩
    all_goals contradiction
  · rintro ⟨row, -, rfl⟩
    exact ⟨(properWithin_leaf_iff _).2 trivial, rfl⟩

def apiOfRow : Json.Row [NodeId, String, String, Option (List (String × String)),
    Option String, List String, String] → Node
  | (id, url, method, headers, body, inputKeys, outputKey, ()) =>
    leaf (.api ⟨id, url, method, headers, body, inputKeys, outputKey⟩)

private theorem lawful_api :
    Lawful (fun n => .object (Json.untagged (toJson n))) (ofFields node .api)
      fun n => n.ProperWithin (k + 1) ∧ n.kind = .api := by
  have hfields := (Json.lawfulFields_nil 0
    |>.required Json.lawful_text "output_key" |>.required Json.lawful_texts "input_keys"
    |>.defaulted (Json.lawful_text.optional (by simp)) "body" none (by simp) le_rfl
    |>.defaulted (Json.lawful_text.map.optional (by simp [Json.ofMap])) "headers" none
    (by simp) le_rfl
    |>.required Json.lawful_text "method" |>.required Json.lawful_text "url"
    |>.required Json.lawful_word64 "chain_id")
  refine hfields.lawful "ApiChain" apiOfRow
    (by decide) (fun _ _ _ _ _ => Nat.zero_le _) (fun _ => rfl) (fun _ => rfl) fun n => ?_
  constructor
  · rintro ⟨hn, hkind⟩
    rcases n with (_ | _ | a | _ | _ | _) | _ | _
    on_goal 3 =>
      have ha := (properWithin_leaf_iff _).1 hn
      exact ⟨(a.id, a.url, a.method, a.headers, a.body, a.inputKeys, a.outputKey, ()),
        by simpa [Leaf.Proper] using ha, rfl⟩
    all_goals contradiction
  · rintro ⟨row, hrow, rfl⟩
    exact ⟨(properWithin_leaf_iff _).2 (by simpa [Leaf.Proper] using hrow), rfl⟩

private theorem lawful_freeForm :
    Lawful Json.object (.map .freeForm) Json.FreeForm := by
  have hmap := Json.lawful_freeForm.map
  rwa [show Json.ofMap (fun v => v) = Json.object from funext fun es => by simp [Json.ofMap]]
    at hmap

private theorem spare_vectorSearch {S : Json → Prop} {row : Json.Row _} {d : Nat}
    (hS : ∀ v, S v → v.depth ≤ d) (h : vectorSearchFields.Given S row) : 1 ≤ d := by
  obtain ⟨-, -, -, -, -, -, -, -, hinputs, -⟩ := h
  rcases hinputs with ⟨v, t, hv, hread⟩ | habsent
  · exact (Json.depth_pos_of_list ((Json.read_required _).1 hread)).trans_le (hS v hv)
  · contradiction

def vectorSearchOfRow : Json.Row [NodeId, String, String, List (String × Json), String,
    List (String × Json), UInt32, Float, List String, String] → Node
  | (id, query, embeddingEngine, embeddingParams, database, databaseParams, numResults, minScore,
      inputVariables, outputKey, ()) =>
    leaf (.vectorSearch ⟨id, query, embeddingEngine, embeddingParams, database, databaseParams,
      numResults, minScore, inputVariables, outputKey⟩)

private theorem lawful_vectorSearch :
    Lawful (fun n => .object (Json.untagged (toJson n))) (ofFields node .vectorSearch)
      fun n => n.ProperWithin (k + 1) ∧ n.kind = .vectorSearch := by
  have hempty : Json.FreeForm [] := ⟨List.nodup_nil, nofun⟩
  have hfields := (Json.lawfulFields_nil 1
    |>.required Json.lawful_text "output_key" |>.required Json.lawful_texts "input_variables"
    |>.required Json.lawful_double "min_score" |>.required Json.lawful_word32 "num_results"
    |>.defaulted lawful_freeForm "database_params" [] hempty le_rfl
    |>.required Json.lawful_text "database"
    |>.defaulted lawful_freeForm "embedding_params" [] hempty le_rfl
    |>.required Json.lawful_text "embedding_engine" |>.required Json.lawful_text "query"
    |>.required Json.lawful_word64 "chain_id")
  refine hfields.lawful "VectorSearchChain" vectorSearchOfRow
    (by decide) (fun _ _ _ hS hrow => spare_vectorSearch hS hrow) (fun _ => rfl) (fun _ => rfl)
    fun n => ?_
  constructor
  · rintro ⟨hn, hkind⟩
    rcases n with (_ | _ | _ | v | _ | _) | _ | _
    on_goal 4 =>
      have hv := (properWithin_leaf_iff _).1 hn
      exact ⟨(v.id, v.query, v.embeddingEngine, v.embeddingParams, v.database, v.databaseParams,
        v.numResults, v.minScore, v.inputVariables, v.outputKey, ()),
        by simpa [Leaf.Proper] using hv, rfl⟩
    all_goals contradiction
  · rintro ⟨row, hrow, rfl⟩
    exact ⟨(properWithin_leaf_iff _).2 (by simpa [Leaf.Proper] using hrow), rfl⟩

def reformatOfRow : Json.Row [NodeId, List (String × String), List String] → Node
  | (id, formatters, inputKeys, ()) => leaf (.reformat ⟨id, formatters, inputKeys⟩)

private theorem lawful_reformat :
    Lawful (fun n => .object (Json.untagged (toJson n))) (ofFields node .reformat)
      fun n => n.ProperWithin (k + 1) ∧ n.kind = .reformat := by
  have hfields := (Json.lawfulFields_nil 0
    |>.required Json.lawful_texts "input_keys" |>.required Json.lawful_text.map "formatters"
    |>.required Json.lawful_word64 "chain_id")
  refine hfields.lawful "ReformatChain" reformatOfRow
    (by decide) (fun _ _ _ _ _ => Nat.zero_le _) (fun _ => rfl) (fun _ => rfl) fun n => ?_
  constructor
  · rintro ⟨hn, hkind⟩
    rcases n with (_ | _ | _ | _ | r | _) | _ | _
    on_goal 5 =>
      have hr := (properWithin_leaf_iff _).1 hn
      exact ⟨(r.id, r.formatters, r.inputKeys, ()), by simpa [Leaf.Proper] using hr, rfl⟩
    all_goals contradiction
  · rintro ⟨row, hrow, rfl⟩
    exact ⟨(properWithin_leaf_iff _).2 (by simpa [Leaf.Proper] using hrow), rfl⟩

def transformOfRow : Json.Row [NodeId, String, List String, List String] → Node
  | (id, function, inputKeys, outputKeys, ()) =>
    leaf (.transform ⟨id, function, inputKeys, outputKeys⟩)

private theorem lawful_transform :
    Lawful (fun n => .object (Json.untagged (toJson n))) (ofFields node .transform)
      fun n => n.ProperWithin (k + 1) ∧ n.kind = .transform := by
  have hfields := (Json.lawfulFields_nil 0
    |>.required Json.lawful_texts "output_keys" |>.required Json.lawful_texts "input_keys"
    |>.required Json.lawful_text "transform_func" |>.required Json.lawful_word64 "chain_id")
  refine hfields.lawful "TransformChain" transformOfRow
    (by decide) (fun _ _ _ _ _ => Nat.zero_le _) (fun _ => rfl) (fun _ => rfl) fun n => ?_
  constructor
  · rintro ⟨-, hkind⟩
    rcases n with (_ | _ | _ | _ | _ | t) | _ | _
    on_goal 6 => exact ⟨(t.id, t.function, t.inputKeys, t.outputKeys, ()), by simp, rfl⟩
    all_goals contradiction
  · rintro ⟨row, -, rfl⟩
    exact ⟨(properWithin_leaf_iff _).2 trivial, rfl⟩

private theorem properWithin_sequence_iff {i : NodeId} {ins outs : List String}
    {steps : List Node} :
    (sequence i ins outs steps).ProperWithin (k + 1) ↔ ∀ n ∈ steps, n.ProperWithin k := by
  rw [ProperWithin, levels_sequence_le_iff]
  constructor
  · rintro ⟨⟨⟩ | ⟨hproper⟩ | ⟨⟩, hlevels⟩ n hn
    exact ⟨hproper n hn, hlevels n hn⟩
  · exact fun h => ⟨.sequence fun n hn => (h n hn).1, fun n hn => (h n hn).2⟩

private theorem properWithin_choice_iff {i : NodeId} {key : String}
    {branches : List (String × Node)} {fallback : Option Node} :
    (choice i key branches fallback).ProperWithin (k + 1) ↔
      (Entries.Distinct branches ∧ ∀ b ∈ branches, b.2.ProperWithin k) ∧
        ∀ n ∈ fallback, n.ProperWithin k := by
  rw [ProperWithin, levels_choice_le_iff]
  constructor
  · rintro ⟨⟨⟩ | ⟨⟩ | ⟨hkeys, hbranches, hfallback⟩, hblevels, hflevels⟩
    exact ⟨⟨hkeys, fun b hb => ⟨hbranches b hb, hblevels b hb⟩⟩,
      fun n hn => ⟨hfallback n hn, hflevels n hn⟩⟩
  · rintro ⟨⟨hkeys, hbranches⟩, hfallback⟩
    exact ⟨.choice hkeys (fun b hb => (hbranches b hb).1) fun n hn => (hfallback n hn).1,
      fun b hb => (hbranches b hb).2, fun n hn => (hfallback n hn).2⟩

def sequenceOfRow : Json.Row [NodeId, List String, List String, List Node] → Node
  | (id, inputKeys, outputKeys, steps, ()) => sequence id inputKeys outputKeys steps

private theorem lawful_sequence (h : Lawful toJson node (ProperWithin k)) :
    Lawful (fun n => .object (Json.untagged (toJson n))) (ofFields node .sequence)
      fun n => n.ProperWithin (k + 1) ∧ n.kind = .sequence := by
  have hfields := (Json.lawfulFields_nil 0
    |>.required h.list "chains" |>.required Json.lawful_texts "output_keys"
    |>.required Json.lawful_texts "input_keys" |>.required Json.lawful_word64 "chain_id")
  have hnames : ["chain_id", "input_keys", "output_keys", "chains"].Nodup := by decide
  refine hfields.lawful "SequentialChain" sequenceOfRow hnames (fun _ _ _ _ _ => Nat.zero_le _)
    (fun _ => rfl) ?_ fun n => ⟨?_, ?_⟩
  · rintro ⟨i, ins, outs, steps, ⟨⟩⟩
    rw [sequenceOfRow, toJson_sequence]
    rfl
  · rintro ⟨hn, hkind⟩
    rcases n with (_ | _ | _ | _ | _ | _) | ⟨i, ins, outs, steps⟩ | _
    on_goal 7 =>
      exact ⟨(i, ins, outs, steps, ()), by simpa using properWithin_sequence_iff.1 hn, rfl⟩
    all_goals contradiction
  · rintro ⟨row, hrow, rfl⟩
    exact ⟨properWithin_sequence_iff.2 (by simpa using hrow), rfl⟩

def choiceOfRow : Json.Row [NodeId, String, List (String × Node), Option Node] → Node
  | (id, key, branches, fallback, ()) => choice id key branches fallback

private theorem lawful_choice (h : Lawful toJson node (ProperWithin k)) :
    Lawful (fun n => .object (Json.untagged (toJson n))) (ofFields node .choice)
      fun n => n.ProperWithin (k + 1) ∧ n.kind = .choice := by
  have hnull : ∀ n : Node, n.ProperWithin k → n.toJson ≠ .null := fun n _ hn => by
    rw [toJson_eq] at hn
    contradiction
  have hfields := (Json.lawfulFields_nil 0
    |>.defaulted (h.optional hnull) "default_case" none (by simp) le_rfl
    |>.required h.map "cases" |>.required Json.lawful_text "categorization_key"
    |>.required Json.lawful_word64 "chain_id")
  have hnames : ["chain_id", "categorization_key", "cases", "default_case"].Nodup := by decide
  refine hfields.lawful "CaseChain" choiceOfRow hnames (fun _ _ _ _ _ => Nat.zero_le _)
    (fun _ => rfl) ?_ fun n => ⟨?_, ?_⟩
  · rintro ⟨i, key, branches, fallback, ⟨⟩⟩
    rw [choiceOfRow, toJson_choice]
    rfl
  · rintro ⟨hn, hkind⟩
    rcases n with (_ | _ | _ | _ | _ | _) | _ | ⟨i, key, branches, fallback⟩
    on_goal 8 =>
      have hn := properWithin_choice_iff.1 hn
      exact ⟨(i, key, branches, fallback, ()), by simpa using hn, rfl⟩
    all_goals contradiction
  · rintro ⟨row, hrow, rfl⟩
    exact ⟨properWithin_choice_iff.2 (by simpa using hrow), rfl⟩

theorem lawful_fields (h : Lawful toJson node (ProperWithin k)) (kind : Kind) :
    Lawful (fun n => .object (Json.untagged (toJson n))) (ofFields node kind)
      fun n => n.ProperWithin (k + 1) ∧ n.kind = kind := by
  cases kind with
  | prompt => exact lawful_prompt
  | chat => exact lawful_chat
  | api => exact lawful_api
  | vectorSearch => exact lawful_vectorSearch
  | sequence => exact lawful_sequence h
  | choice => exact lawful_choice h
  | reformat => exact lawful_reformat
  | transform => exact lawful_transform

theorem ofName_name (kind : Kind) : variants.ofName kind.name = .ok kind := by
  cases kind <;> rfl

theorem tag_not_mem_keys (n : Node) : variants.tag ∉ Entries.keys (Json.untagged n.toJson) := by
  rcases n with (_ | _ | _ | _ | _ | _) | _ | _ <;>
    simp [variants, kindTag, toJson, tagged, Leaf.entries, Json.untagged, Entries.keys]

/-- Reading down to a number of levels is lawful on the proper trees of at most as many levels. -/
theorem lawful_ofJsonWithin (k : Nat) : Lawful toJson (ofJsonWithin k) (ProperWithin k) := by
  induction k with
  | zero =>
    have hempty : ∀ n : Node, ¬ n.ProperWithin 0 := fun n hn => by
      cases n with
      | leaf | sequence | choice => exact absurd hn.2 (by simp [levels])
    exact ⟨fun n hn => (hempty n hn).elim, fun n hn => (hempty n hn).elim, nofun, nofun⟩
  | succ k ih => exact .tagged toJson_eq ofName_name tag_not_mem_keys (lawful_fields ih)

theorem ofJson_toJson {n : Node} (h : n.Proper) : ofJson n.toJson = .ok n :=
  (lawful_ofJsonWithin _).take_write n ⟨h, n.levels_le_depth.trans (Nat.le_succ _)⟩

theorem inRange_toJson {n : Node} (h : n.Proper) : n.toJson.InRange :=
  (lawful_ofJsonWithin _).inRange_write n ⟨h, le_rfl⟩

/-- Take the fields of a node of a known kind, as deep as they are. -/
private def takeFields (kind : Kind) : Decoder Node := fun fields =>
  ofFields (ofJsonWithin (fields.depth + 1)) kind fields

private theorem read_eq (budget room : Nat) :
    read budget room = variants.readFields takeFields budget room := rfl

theorem proper_of_read {budget room : Nat} {cs rest : List Char} {n : Node}
    (h : read budget room cs = .ok (n, rest)) : n.Proper ∧ n.toJson.depth ≤ room := by
  rw [read_eq] at h
  obtain ⟨kind, fields, hfields, hdepth, hrange⟩ := Json.Variants.exists_of_readFields h
  have hlawful := lawful_fields (lawful_ofJsonWithin (fields.depth + 1)) kind
  have hle := hlawful.depth_le fields n hfields
  rw [toJson_eq, Json.depth_taggedWith]
  exact ⟨(hlawful.proper fields n hrange hfields).1.1, hle.trans hdepth⟩

theorem skipsBlanks_read (budget room : Nat) : Json.SkipsBlanks (read budget room) := by
  rw [read_eq]
  exact Json.Variants.skipsBlanks_readFields budget room

theorem readsAs_read (w : Json.Style) {n : Node} (hn : n.Proper) (hlegible : n.toJson.Legible)
    {budget level : Nat} (hbudget : (w.text level n.toJson).length < budget) (room : Nat) :
    Json.ReadsAs (read budget room) (w.text level n.toJson)
      (Decoder.within room ofJson n.toJson) := by
  have hdepth : (Json.object (Json.untagged n.toJson)).depth = n.toJson.depth := by
    conv_rhs => rw [toJson_eq, Json.depth_taggedWith]
  have hlevels : n.levels ≤ (Json.object (Json.untagged n.toJson)).depth + 1 + 1 := by
    have hle := n.levels_le_depth
    omega
  have htake : takeFields n.kind (.object (Json.untagged n.toJson)) = .ok n :=
    (lawful_fields (lawful_ofJsonWithin _) n.kind).take_write n ⟨⟨hn, hlevels⟩, rfl⟩
  have hresult : Decoder.within room ofJson n.toJson =
      Decoder.within room (fun _ => .ok n) n.toJson := by
    rw [Decoder.within, Decoder.within, ofJson_toJson hn]
  rw [hresult, read_eq]
  rw [toJson_eq] at hlegible hbudget ⊢
  exact Json.Variants.readsAs_readFields w (ofName_name n.kind) (tag_not_mem_keys n) htake hlegible
    hbudget room

/-- The text of a tree gives the tree back, unless it nests deeper than the reader follows. -/
theorem ofText_text (w : Json.Style) {n : Node} (hn : n.Proper) (hlegible : n.toJson.Legible) :
    ofText (String.ofList (w.text 0 n.toJson)) =
      if n.toJson.depth ≤ Json.depthLimit then .ok n else Json.malformed .tooDeep := by
  have hread : ofText (String.ofList (w.text 0 n.toJson)) =
      Decoder.within Json.depthLimit ofJson n.toJson :=
    Json.readWith_ofList (readsAs_read w hn hlegible (Nat.lt_succ_self _) _)
  rw [hread, Decoder.within, ofJson_toJson hn]

theorem ofText_toText {n : Node} (hn : n.Proper) (hlegible : n.toJson.Legible) :
    ofText n.toText =
      if n.toJson.depth ≤ Json.depthLimit then .ok n else Json.malformed .tooDeep :=
  ofText_text Json.Style.compact hn hlegible

end Node

end PromptChain
