import PromptChain.Proofs.Json.Nesting
import PromptChain.Proofs.Json.TaggedText
import PromptChain.Proofs.Node.Document

/-!
# Spellings of trees

Each node of a tree may be spelled in its own way, whatever the spellings of the nodes below it: as
an object in any order, with unknown fields, or as a list, and without the fields that stand for
their defaults. All spellings are read as one and the same tree.
-/

set_option autoImplicit false

namespace PromptChain.Node

open Json (Decoder Spells SpellsTagged TakesRecord)
open Json.ValueFields (WrittenAs spares_defaulted)

/-- The fields that a node may leave out, each with its default. -/
def spare : Kind → List (String × Json)
  | .api => [("headers", .null), ("body", .null)]
  | .vectorSearch => [("embedding_params", .object []), ("database_params", .object [])]
  | .choice => [("default_case", .null)]
  | .prompt | .chat | .sequence | .reformat | .transform => []

/-- The fields of a sequence whose steps are spelled as these values. -/
def sequenceEntries (i : NodeId) (ins outs : List String) (steps : List Json) :
    List (String × Json) :=
  [("chain_id", .ofWord64 i), ("input_keys", .ofTexts ins), ("output_keys", .ofTexts outs),
    ("chains", .array steps)]

/-- The fields of a choice whose branches and fallback are spelled as these values. -/
def choiceEntries (i : NodeId) (key : String) (branches : List (String × Json))
    (fallback : Option Json) : List (String × Json) :=
  [("chain_id", .ofWord64 i), ("categorization_key", .text key), ("cases", .object branches),
    ("default_case", fallback.getD .null)]

/-- What a tree may be spelled as. -/
inductive Spelled : Node → Json → Prop where
  | leaf {l : Leaf} {v : Json} :
      SpellsTagged variants l.kind.name (spare l.kind) l.entries v → Spelled (leaf l) v
  | sequence {i : NodeId} {ins outs : List String} {steps : List Node} {vs : List Json} {v : Json} :
      List.Forall₂ Spelled steps vs →
      SpellsTagged variants Kind.sequence.name (spare .sequence) (sequenceEntries i ins outs vs) v →
      Spelled (sequence i ins outs steps) v
  | choice {i : NodeId} {key : String} {branches : List (String × Node)} {fallback : Option Node}
      {bs : List (String × Json)} {w : Option Json} {v : Json} :
      Entries.keys bs = Entries.keys branches →
      List.Forall₂ Spelled (branches.map (·.2)) (bs.map (·.2)) → Option.Rel Spelled fallback w →
      SpellsTagged variants Kind.choice.name (spare .choice) (choiceEntries i key bs w) v →
      Spelled (choice i key branches fallback) v

theorem takesRecord_ofFields (node : Decoder Node) (kind : Kind) : TakesRecord (ofFields node kind)
    (Entries.keys (Json.untagged (blank kind 0).toJson)) (spare kind) := by
  cases kind with
  | prompt => exact ⟨_, _, promptFields, promptOfRow, fun v => rfl, rfl, nofun⟩
  | chat => exact ⟨_, _, chatFields, chatOfRow, fun v => rfl, rfl, nofun⟩
  | api =>
    refine ⟨_, _, apiFields, apiOfRow, fun v => rfl, rfl, List.forall_mem_cons.2 ⟨?_, ?_⟩⟩
    · exact .inr (.inr (.inr (spares_defaulted (by rfl))))
    · exact List.forall_mem_singleton.2
        (.inr (.inr (.inr (.inr (spares_defaulted (by rfl))))))
  | vectorSearch =>
    refine ⟨_, _, vectorSearchFields, vectorSearchOfRow, fun v => rfl, rfl,
      List.forall_mem_cons.2 ⟨?_, ?_⟩⟩
    · exact .inr (.inr (.inr (spares_defaulted (by rfl))))
    · exact List.forall_mem_singleton.2
        (.inr (.inr (.inr (.inr (.inr (spares_defaulted (by rfl)))))))
  | sequence => exact ⟨_, _, sequenceFields node, sequenceOfRow, fun v => rfl, rfl, nofun⟩
  | choice =>
    refine ⟨_, _, choiceFields node, choiceOfRow, fun v => rfl, rfl, List.forall_mem_singleton.2 ?_⟩
    exact .inr (.inr (.inr (spares_defaulted (by rfl))))
  | reformat => exact ⟨_, _, reformatFields, reformatOfRow, fun v => rfl, rfl, nofun⟩
  | transform => exact ⟨_, _, transformFields, transformOfRow, fun v => rfl, rfl, nofun⟩

private theorem ofFields_spelled {node : Decoder Node} {n : Node} {fields : List (String × Json)}
    (hkeys : Entries.keys fields = Entries.keys (Json.untagged (blank n.kind 0).toJson))
    (htake : ofFields node n.kind (.object fields) = .ok n) {v : Json}
    (hv : Spells (spare n.kind) fields v) : ofFields node n.kind v = .ok n := by
  have hnames : (Entries.keys (Json.untagged (blank n.kind 0).toJson)).Nodup := by
    cases n.kind <;> decide
  exact (takesRecord_ofFields node n.kind).take_spelled hnames hkeys htake hv

variable {node : Decoder Node}

private theorem list_of_forall₂ {steps : List Node} {vs : List Json}
    (h : List.Forall₂ (fun n v => node v = .ok n) steps vs) :
    Decoder.list node (.array vs) = .ok steps := by
  rw [Decoder.list]
  induction h with
  | nil => rfl
  | cons hv _ ih =>
    rw [Decoder.items, hv, ok_bind, ih]
    rfl

private theorem entries_of_forall₂ {branches : List (String × Node)} {bs : List (String × Json)}
    (hkeys : Entries.keys bs = Entries.keys branches)
    (h : List.Forall₂ (fun n v => node v = .ok n) (branches.map (·.2)) (bs.map (·.2))) :
    Decoder.entries node bs = .ok branches := by
  induction bs generalizing branches with
  | nil =>
    rw [List.map_eq_nil_iff.1 hkeys.symm]
    rfl
  | cons b bs ih =>
    cases branches with
    | nil => contradiction
    | cons branch branches =>
      obtain ⟨key, v⟩ := b
      obtain ⟨label, n⟩ := branch
      obtain ⟨rfl, hrest⟩ : key = label ∧ Entries.keys bs = Entries.keys branches :=
        List.cons.inj hkeys
      obtain ⟨hv, h⟩ := List.forall₂_cons.1 h
      rw [Decoder.entries, hv, ok_bind, ih hrest h]
      rfl

private theorem optional_of_rel {fallback : Option Node} {w : Option Json}
    (h : Option.Rel (fun n v => node v = .ok n ∧ v ≠ .null) fallback w) :
    Decoder.optional node (w.getD .null) = .ok fallback := by
  cases h with
  | none => rfl
  | @some n v hn =>
    obtain ⟨htake, hnull⟩ := hn
    cases v with
    | null => exact absurd rfl hnull
    | bool | number | text | array | object => exact map_eq_ok.2 ⟨n, htake, rfl⟩

private theorem ofFields_sequence {steps : List Node} {vs : List Json}
    (h : List.Forall₂ (fun n v => node v = .ok n) steps vs) (i : NodeId) (ins outs : List String) :
    ofFields node .sequence (.object (sequenceEntries i ins outs vs)) =
      .ok (sequence i ins outs steps) := by
  have hnames : (sequenceFields node).names.Nodup :=
    show ["chain_id", "input_keys", "output_keys", "chains"].Nodup by decide
  have hwritten : WrittenAs (sequenceFields node) (i, ins, outs, steps, ())
      (sequenceEntries i ins outs vs) :=
    ⟨rfl, (Json.read_required _).2 (Json.lawful_word64.take_write i trivial),
      rfl, (Json.read_required _).2 (Json.lawful_texts.take_write ins trivial),
      rfl, (Json.read_required _).2 (Json.lawful_texts.take_write outs trivial),
      rfl, (Json.read_required _).2 (list_of_forall₂ h), rfl⟩
  exact map_eq_ok.2 ⟨_, Json.ValueFields.ofJson_writtenAs "SequentialChain" hnames hwritten, rfl⟩

private theorem ofFields_choice {branches : List (String × Node)} {bs : List (String × Json)}
    {fallback : Option Node} {w : Option Json} (hdistinct : Entries.Distinct branches)
    (hbranches : Decoder.entries node bs = .ok branches)
    (hfallback : Decoder.optional node (w.getD .null) = .ok fallback) (i : NodeId) (key : String) :
    ofFields node .choice (.object (choiceEntries i key bs w)) =
      .ok (choice i key branches fallback) := by
  have hnames : (choiceFields node).names.Nodup :=
    show ["chain_id", "categorization_key", "cases", "default_case"].Nodup by decide
  have hmap : Decoder.map node (.object bs) = .ok branches := by
    rw [Decoder.map, hbranches, ok_bind, Entries.ofList_eq_self hdistinct]
    rfl
  have hwritten : WrittenAs (choiceFields node) (i, key, branches, fallback, ())
      (choiceEntries i key bs w) :=
    ⟨rfl, (Json.read_required _).2 (Json.lawful_word64.take_write i trivial),
      rfl, (Json.read_required _).2 (Json.lawful_text.take_write key trivial),
      rfl, (Json.read_required _).2 hmap, rfl, (Json.read_required "default_case").2 hfallback, rfl⟩
  exact map_eq_ok.2 ⟨_, Json.ValueFields.ofJson_writtenAs "CaseChain" hnames hwritten, rfl⟩

/-! ## Trees -/

/-- A value that is taken for a tree down to as many levels as the tree has; it is at least as
deep. -/
def TakenFor (v : Json) (c : Node) : Prop :=
  ∃ fields, variants.split v = .ok (c.kind, fields) ∧ c.levels ≤ fields.depth ∧
    ∀ k, c.levels ≤ k + 1 → ofFields (ofJsonWithin k) c.kind fields = .ok c

theorem levels_pos (c : Node) : 0 < c.levels := by
  cases c <;> exact Nat.succ_pos _

section TakenFor

variable {c : Node} {v : Json}

theorem TakenFor.levels_le (h : TakenFor v c) : c.levels ≤ v.depth := by
  obtain ⟨fields, hsplit, hlevels, -⟩ := h
  exact hlevels.trans (Json.depth_le_of_split hsplit).1

theorem TakenFor.ne_null (h : TakenFor v c) : v ≠ .null := by
  rintro rfl
  exact absurd h.levels_le (Nat.not_le.2 c.levels_pos)

theorem TakenFor.ofJsonWithin_eq (h : TakenFor v c) {k : Nat} (hk : c.levels ≤ k) :
    ofJsonWithin k v = .ok c := by
  obtain ⟨fields, hsplit, -, htake⟩ := h
  cases k with
  | zero => exact absurd hk (Nat.not_le.2 c.levels_pos)
  | succ k =>
    rw [ofJsonWithin, hsplit]
    exact htake k hk

end TakenFor

section Kinds

variable {v : Json}

/-- A tree that is taken from its fields in their order is taken from every spelling of them, if
none of these is too shallow for it. -/
private theorem takenFor_of_entries {c : Node} {entries : List (String × Json)}
    (h : SpellsTagged variants c.kind.name (spare c.kind) entries v)
    (hkeys : Entries.keys entries = Entries.keys (Json.untagged (blank c.kind 0).toJson))
    (hlevels : ∀ fields, Spells (spare c.kind) entries fields → c.levels ≤ fields.depth)
    (htake : ∀ k, c.levels ≤ k + 1 → ofFields (ofJsonWithin k) c.kind (.object entries) = .ok c) :
    TakenFor v c := by
  obtain ⟨fields, hsplit, hfields⟩ :=
    Json.Variants.exists_split_of_spellsTagged (ofName_name c.kind) h
  exact ⟨fields, hsplit, hlevels fields hfields,
    fun k hk => ofFields_spelled hkeys (htake k hk) hfields⟩

private theorem takenFor_leaf {l : Leaf} (hl : (leaf l).Proper)
    (h : SpellsTagged variants l.kind.name (spare l.kind) l.entries v) : TakenFor v (leaf l) := by
  have hkeys : Entries.keys l.entries = Entries.keys (Json.untagged (blank l.kind 0).toJson) := by
    cases l <;> rfl
  refine takenFor_of_entries (c := leaf l) h hkeys (fun fields hfields => hfields.depth_pos) fun k
    hk => ?_
  exact (lawful_fields (lawful_ofJsonWithin k) l.kind).take_write (leaf l) ⟨⟨hl, hk⟩, rfl⟩

private theorem depth_lt_of_spells {spare entries : List (String × Json)} {fields : Json}
    (h : Spells spare entries fields) {e : String × Json} (he : e ∈ entries) (hspare : e ∉ spare) :
    e.2.depth < fields.depth :=
  Json.depth_lt_of_mem_members (h.mem_members he hspare)

private theorem levels_lt_depth {ns : List Node} {vs : List Json}
    (h : List.Forall₂ (fun n w => TakenFor w n) ns vs) (hv : ∀ w ∈ vs, w ∈ v.members) :
    ∀ n ∈ ns, n.levels < v.depth := by
  intro n hn
  obtain ⟨w, hw, htaken⟩ := exists_right_of_forall₂ h n hn
  exact htaken.levels_le.trans_lt (Json.depth_lt_of_mem_members (hv w hw))

private theorem takenFor_sequence {steps : List Node} {vs : List Json}
    (hsteps : List.Forall₂ (fun n w => TakenFor w n) steps vs) {i : NodeId} {ins outs : List String}
    (h : SpellsTagged variants Kind.sequence.name (spare .sequence)
      (sequenceEntries i ins outs vs) v) :
    TakenFor v (sequence i ins outs steps) := by
  refine takenFor_of_entries (c := sequence i ins outs steps) h (by rfl) (fun fields hfields => ?_)
    fun k hk => ?_
  · have hlist : (Json.array vs).depth < fields.depth :=
      depth_lt_of_spells hfields (e := ("chains", .array vs)) (by simp [sequenceEntries]) nofun
    have hlevels : ∀ n ∈ steps, n.levels < (Json.array vs).depth :=
      levels_lt_depth hsteps fun w hw => hw
    obtain ⟨d, hd⟩ := Nat.exists_eq_add_of_lt hlist
    rw [hd, levels_sequence_le_iff]
    exact fun n hn => (hlevels n hn).le.trans (Nat.le_add_right _ d)
  · have hlevels := (levels_sequence_le_iff i ins outs steps k).1 hk
    have hread : List.Forall₂ (fun n w => ofJsonWithin k w = .ok n) steps vs :=
      forall₂_imp_of_mem hsteps fun n hn w htaken => htaken.ofJsonWithin_eq (hlevels n hn)
    exact ofFields_sequence hread i ins outs

private theorem levels_fallback_lt_depth {i : NodeId} {key : String} {bs : List (String × Json)}
    {fallback : Option Node} {w : Option Json} (h : Option.Rel (fun n w => TakenFor w n) fallback w)
    {fields : Json} (hfields : Spells (spare .choice) (choiceEntries i key bs w) fields) :
    ∀ n ∈ fallback, n.levels < fields.depth := by
  intro n hn
  cases h with
  | none => contradiction
  | @some m w htaken =>
    obtain rfl : m = n := Option.some.inj hn
    have hlt : w.depth < fields.depth :=
      depth_lt_of_spells hfields (e := ("default_case", w)) (by simp [choiceEntries])
        (by simpa [spare] using htaken.ne_null)
    exact htaken.levels_le.trans_lt hlt

private theorem takenFor_choice {branches : List (String × Node)} {bs : List (String × Json)}
    {fallback : Option Node} {w : Option Json} (hdistinct : Entries.Distinct branches)
    (hkeys : Entries.keys bs = Entries.keys branches)
    (hbranches : List.Forall₂ (fun n w => TakenFor w n) (branches.map (·.2)) (bs.map (·.2)))
    (hfallback : Option.Rel (fun n w => TakenFor w n) fallback w) {i : NodeId} {key : String}
    (h : SpellsTagged variants Kind.choice.name (spare .choice) (choiceEntries i key bs w) v) :
    TakenFor v (choice i key branches fallback) := by
  refine takenFor_of_entries (c := choice i key branches fallback) h (by rfl)
    (fun fields hfields => ?_) fun k hk => ?_
  · have hmap : (Json.object bs).depth < fields.depth :=
      depth_lt_of_spells hfields (e := ("cases", .object bs)) (by simp [choiceEntries])
        (by simp [spare, kind])
    have hlevels : ∀ n ∈ branches.map (·.2), n.levels < (Json.object bs).depth :=
      levels_lt_depth hbranches fun w hw => hw
    have hleft := levels_fallback_lt_depth hfallback hfields
    obtain ⟨d, hd⟩ := Nat.exists_eq_add_of_lt hmap
    rw [hd] at hleft ⊢
    rw [levels_choice_le_iff]
    exact ⟨fun b hb => (hlevels _ (List.mem_map_of_mem hb)).le.trans (Nat.le_add_right _ d),
      fun n hn => Nat.le_of_lt_succ (hleft n hn)⟩
  · obtain ⟨hlevels, hleft⟩ := (levels_choice_le_iff i key branches fallback k).1 hk
    have hread : Decoder.entries (ofJsonWithin k) bs = .ok branches := by
      refine entries_of_forall₂ hkeys (forall₂_imp_of_mem hbranches fun n hn w htaken => ?_)
      obtain ⟨b, hb, rfl⟩ := List.mem_map.1 hn
      exact htaken.ofJsonWithin_eq (hlevels b hb)
    have hoptional : Decoder.optional (ofJsonWithin k) (w.getD .null) = .ok fallback := by
      refine optional_of_rel ?_
      cases hfallback with
      | none => exact .none
      | some htaken => exact .some ⟨htaken.ofJsonWithin_eq (hleft _ rfl), htaken.ne_null⟩
    exact ofFields_choice hdistinct hread hoptional i key

end Kinds

theorem takenFor_of_spelled {c : Node} {v : Json} (hc : c.Proper) (h : c.Spelled v) :
    TakenFor v c := by
  induction c generalizing v with
  | leaf l =>
    cases h with
    | leaf hspell => exact takenFor_leaf hc hspell
  | sequence i ins outs steps ih =>
    cases hc with
    | sequence hproper =>
      cases h with
      | sequence hsteps hspell =>
        refine takenFor_sequence (forall₂_imp_of_mem hsteps fun n hn w hw => ?_) hspell
        exact ih n hn (hproper n hn) hw
  | choice i key branches fallback ihb ihf =>
    cases hc with
    | choice hdistinct hbranches hfallback =>
      cases h with
      | choice hkeys hspelled hrel hspell =>
        refine takenFor_choice hdistinct hkeys
          (forall₂_imp_of_mem hspelled fun n hn w hw => ?_) ?_ hspell
        · obtain ⟨b, hb, rfl⟩ := List.mem_map.1 hn
          exact ihb b hb (hbranches b hb) hw
        · cases hrel with
          | none => exact .none
          | some hw => exact .some (ihf _ rfl (hfallback _ rfl) hw)

theorem tagIsText_of_spelled {c : Node} {v : Json} (h : c.Spelled v) : variants.TagIsText v := by
  cases h with
  | leaf hspell | sequence _ hspell | choice _ _ _ hspell =>
    exact Json.Variants.tagIsText_of_spellsTagged hspell

theorem ofText_of_spelled {c : Node} {v : Json} (hc : c.Proper) (h : c.Spelled v) {text : String}
    (htext : Json.ofText text = .ok v) : ofText text = .ok c := by
  obtain ⟨fields, hsplit, hlevels, htake⟩ := takenFor_of_spelled hc h
  obtain ⟨⟨v', rest⟩, hvalue, hend⟩ := bind_eq_ok.1 htext
  dsimp only at hend
  split at hend
  · next hblank =>
    obtain rfl : v' = v := Except.ok.inj hend
    have hread := Json.Variants.read_of_value hvalue (tagIsText_of_spelled h) hsplit
    have hfields : ofFields (ofJsonWithin (fields.depth + 1)) c.kind fields = .ok c :=
      htake _ (by omega)
    rw [ofText, Json.readWith, read]
    simp only [hread, ok_bind, hfields, pure_eq_ok, hblank, if_true]
  · contradiction

/-- Every spelling of a tree reads as the tree: whatever text the spelling is read from, and in
particular its text in any style, if the numbers in it are read back and it nests no deeper than the
reader follows. -/
theorem spellings_read_alike {c : Node} {v : Json} (hc : c.Proper) (h : c.Spelled v) :
    (∀ text, Json.ofText text = .ok v → ofText text = .ok c) ∧
    ∀ w : Json.Style, v.Legible → Json.nesting (String.ofList (w.text 0 v)) ≤ Json.depthLimit →
      ofText (String.ofList (w.text 0 v)) = .ok c := by
  refine ⟨fun text htext => ofText_of_spelled hc h htext, fun w hlegible hnesting => ?_⟩
  rw [Json.nesting_text] at hnesting
  have hvalue : Json.ofText (String.ofList (w.text 0 v)) = Decoder.within Json.depthLimit .ok v :=
    Json.readWith_ofList (Json.readsAs_value w hlegible _ 0 (Nat.lt_succ_self _))
  rw [Decoder.within, if_pos hnesting] at hvalue
  exact ofText_of_spelled hc h hvalue

private def advisor : Leaf := .prompt ⟨1, ["topic"], "reply", "Advise", "gpt"⟩

private def service : Leaf := .api ⟨2, "example.org", "GET", none, none, ["topic"], "reply"⟩

private def advice : Node := choice 0 "mood" [("calm", leaf advisor), ("cross", leaf service)] none

private def advisorSpelled : Json :=
  .object [("note", .array [.null, .object []]), ("llm_key", .text "gpt"),
    ("prompt", .text "Advise"), ("output_key", .text "reply"), ("input_keys", .ofTexts ["topic"]),
    ("chain_id", .ofWord64 1), ("chain_type", .text "llm_spec")]

private def serviceSpelled : Json :=
  .object [("chain_type", .text "api_spec"), ("chain_id", .ofWord64 2),
    ("url", .text "example.org"), ("method", .text "GET"), ("input_keys", .ofTexts ["topic"]),
    ("output_key", .text "reply")]

private def adviceSpelled : Json :=
  .array [.text "case_spec", .ofWord64 0, .text "mood",
    .object [("calm", advisorSpelled), ("cross", serviceSpelled)]]

private def adviceText : String :=
  "[\"case_spec\",0,\"mood\",\x7b\"calm\":\x7b\"note\":[null,\x7b\x7d],\"llm_key\":\"gpt\"," ++
  "\"prompt\":\"Advise\",\"output_key\":\"reply\",\"input_keys\":[\"topic\"],\"chain_id\":1," ++
  "\"chain_type\":\"llm_spec\"\x7d,\"cross\":\x7b\"chain_type\":\"api_spec\",\"chain_id\":2," ++
  "\"url\":\"example.org\",\"method\":\"GET\",\"input_keys\":[\"topic\"]," ++
  "\"output_key\":\"reply\"\x7d\x7d]"

private theorem spelled_advisor : (leaf advisor).Spelled advisorSpelled := by
  let note : String × Json := ("note", .array [.null, .object []])
  have hfields : Spells (spare .prompt) advisor.entries (.object (advisor.entries ++ [note])) :=
    .object (by rw [List.append_nil]) (List.nil_subset _) (by decide) (.refl _)
  have hlast : (("chain_type", .text "llm_spec") :: (advisor.entries ++ [note])).reverse.Perm _ :=
    List.reverse_perm _
  exact .leaf (.object hfields (by decide) hlast)

private theorem spelled_service : (leaf service).Spelled serviceSpelled := by
  let needed : List (String × Json) := [("chain_id", .ofWord64 2), ("url", .text "example.org"),
    ("method", .text "GET"), ("input_keys", .ofTexts ["topic"]), ("output_key", .text "reply")]
  have hspare : (spare .api ++ needed.drop 3).Perm (needed.drop 3 ++ spare .api) :=
    List.perm_append_comm
  have hperm : service.entries.Perm (needed ++ spare .api) := hspare.append_left (needed.take 3)
  have hfields : Spells (spare .api) service.entries (.object needed) :=
    .object hperm (List.Subset.refl _) (List.forall_mem_nil _) (by rw [List.append_nil])
  exact .leaf (.object hfields (by decide) (.refl _))

private theorem spelled_advice : advice.Spelled adviceSpelled := by
  let branches := [("calm", advisorSpelled), ("cross", serviceSpelled)]
  let entries := choiceEntries 0 "mood" branches none
  have hfields : Spells (spare .choice) entries (.array ((entries.take 3).map (·.2))) :=
    .array rfl (List.Subset.refl (spare .choice))
  have hspelled : List.Forall₂ Spelled [leaf advisor, leaf service] (branches.map (·.2)) :=
    .cons spelled_advisor (.cons spelled_service .nil)
  exact .choice rfl hspelled .none (.array hfields)

private theorem proper_advice : advice.Proper := by
  have hservice : service.Proper :=
    fun headers hheaders => absurd hheaders (Option.not_mem_none headers)
  refine .choice (by simp [Entries.Distinct, Entries.keys]) ?_ (by simp)
  exact List.forall_mem_cons.2 ⟨.leaf trivial, List.forall_mem_singleton.2 (.leaf hservice)⟩

theorem spellings_read_alike_advice :
    advice.Spelled adviceSpelled ∧ ofText adviceText = .ok advice ∧
    ofText (String.ofList (Json.Style.pretty.text 0 adviceSpelled)) = .ok advice := by
  have hread := spellings_read_alike proper_advice spelled_advice
  have hlegible : adviceSpelled.Legible := Json.legible_of_all (by decide +kernel)
  have hnesting (w : Json.Style) : Json.nesting (String.ofList (w.text 0 adviceSpelled)) ≤
      Json.depthLimit := by
    rw [Json.nesting_text]
    decide
  have hcompact : String.ofList (Json.Style.compact.text 0 adviceSpelled) = adviceText := by
    decide +kernel
  refine ⟨spelled_advice, ?_, hread.2 .pretty hlegible (hnesting _)⟩
  rw [← hcompact]
  exact hread.2 .compact hlegible (hnesting _)

end PromptChain.Node
