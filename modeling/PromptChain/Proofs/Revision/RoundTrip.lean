import PromptChain.Revision
import PromptChain.Proofs.Json.Nesting
import PromptChain.Proofs.Llm
import PromptChain.Proofs.Node.Document
import PromptChain.Proofs.Node.FreshIds
import PromptChain.Proofs.Node.ProperEdits

/-!
# Revisions read back

Whatever text a revision is read from, its own text is within the limits of the reader and gives it
back. Of any revision, the reader complains about the depth of its text first, then about repeated
ids.
-/

set_option autoImplicit false

namespace PromptChain.Revision

open Json (Decoder ValueFields ReadsAs Style required defaulted)

/-- The maps of a revision name every key once. -/
def Proper (r : Revision) : Prop := r.chain.Proper ∧ r.llms.Proper

private theorem depth_optionText (s : Option String) : (Json.ofOption .text s).depth = 0 := by
  cases s <;> rfl

theorem depth_toJson (r : Revision) :
    r.toJson.depth = max r.chain.toJson.depth r.llms.toJson.depth + 1 := by
  obtain ⟨id, parent, chain, llms⟩ := r
  cases id <;> simp [toJson, Json.depth, Json.depthEntries, depth_optionText]

theorem depth_toJson_le_iff (r : Revision) (d : Nat) :
    r.toJson.depth ≤ d + 1 ↔ r.chain.toJson.depth ≤ d ∧ r.llms.toJson.depth ≤ d := by
  rw [depth_toJson, Nat.succ_le_succ_iff, Nat.max_le]

def idEntries : Option String → List (String × Json)
  | some i => [("id", .text i)]
  | none => []

def entries (r : Revision) : List (String × Json) :=
  idEntries r.id ++ [("parent", .ofOption .text r.parent), ("chain", r.chain.toJson),
    ("llms", r.llms.toJson)]

theorem toJson_eq (r : Revision) : r.toJson = .object r.entries := by
  obtain ⟨id, parent, chain, llms⟩ := r
  cases id <;> rfl

private theorem id_of_mem_entries {r : Revision} {v : Json} (h : ("id", v) ∈ r.entries) :
    ∃ s, v = .text s := by
  cases hid : r.id with
  | none => simp [entries, idEntries, hid] at h
  | some i => exact ⟨i, by simpa [entries, idEntries, hid] using h⟩

private theorem parent_of_mem_entries {r : Revision} {v : Json} (h : ("parent", v) ∈ r.entries) :
    v = .ofOption .text r.parent := by
  cases hid : r.id <;> simpa [entries, idEntries, hid] using h

private theorem chain_of_mem_entries {r : Revision} {v : Json} (h : ("chain", v) ∈ r.entries) :
    v = r.chain.toJson := by
  cases hid : r.id <;> simpa [entries, idEntries, hid] using h

private theorem llms_of_mem_entries {r : Revision} {v : Json} (h : ("llms", v) ∈ r.entries) :
    v = r.llms.toJson := by
  cases hid : r.id <;> simpa [entries, idEntries, hid] using h

theorem name_of_mem_entries {r : Revision} {e : String × Json} (h : e ∈ r.entries) :
    e.1 ∈ ["id", "parent", "chain", "llms"] := by
  cases hid : r.id <;> simp only [entries, idEntries, hid] at h <;> revert e <;> simp

theorem inRange_toJson {r : Revision} (h : r.Proper) : r.toJson.InRange := by
  rw [toJson_eq]
  refine Json.eachNumber_object_iff.2 fun e he => ?_
  obtain ⟨name, v⟩ := e
  have hname := name_of_mem_entries he
  simp only [List.mem_cons, List.not_mem_nil, or_false] at hname
  rcases hname with rfl | rfl | rfl | rfl
  · obtain ⟨s, rfl⟩ := id_of_mem_entries he
    exact nofun
  · rw [parent_of_mem_entries he]
    cases r.parent <;> exact nofun
  · rw [chain_of_mem_entries he]
    exact Node.inRange_toJson h.1
  · rw [llms_of_mem_entries he]
    exact Llms.lawful.inRange_write r.llms h.2

section Create

variable {tree : Node} {llms : Llms}

theorem proper_create (htree : tree.Proper) (hllms : llms.Proper) (parent : Option String) :
    (create parent tree llms).Proper :=
  ⟨Node.proper_refresh htree, hllms⟩

theorem legible_create (htree : tree.toJson.Legible) (hllms : llms.toJson.Legible)
    (parent : Option String) : (create parent tree llms).toJson.Legible := by
  have hparent : (Json.ofOption .text parent).Legible := by
    cases parent <;> exact nofun
  have hchain : tree.refresh.toJson.Legible := by
    rwa [Json.Legible, Json.EachNumber, Node.numbers_toJson_refresh]
  rw [toJson_eq]
  exact Json.eachNumber_object_iff.2 (List.forall_mem_cons.2 ⟨hparent,
    List.forall_mem_cons.2 ⟨hchain, List.forall_mem_singleton.2 hllms⟩⟩)

end Create

theorem proper_of_read {budget : Nat} {cs rest : List Char} {r : Revision}
    (h : read budget cs = .ok (r, rest)) : r.Proper ∧ r.toJson.depth ≤ Json.depthLimit := by
  obtain ⟨⟨⟨id, parent, chain, llms, ⟨⟩⟩, left⟩, hread, h⟩ := bind_eq_ok.1 h
  obtain ⟨rfl, -⟩ := ok_pair_inj h
  obtain ⟨-, -, hchain, hllms, -⟩ := Json.TextFields.given_read hread
  obtain ⟨cs, rest, -, hchain⟩ := hchain.resolve_right nofun
  obtain ⟨cs', rest', -, hllms⟩ := hllms.resolve_right nofun
  obtain ⟨hchain, hchaindepth⟩ := Node.proper_of_read hchain
  obtain ⟨hllms, hllmsdepth⟩ := Llms.proper_of_read hllms
  exact ⟨⟨hchain, hllms⟩, (depth_toJson_le_iff _ 126).2 ⟨hchaindepth, hllmsdepth⟩⟩

private theorem ofText_eq_ok {text : String} {r : Revision} (h : ofText text = .ok r) :
    Json.readWith read text = .ok r ∧ r.chain.checkIds = .ok () := by
  rw [ofText] at h
  split at h
  · contradiction
  · next r' hread =>
    obtain ⟨⟨⟩, hcheck, h⟩ := bind_eq_ok.1 h
    obtain rfl := Except.ok.inj h
    exact ⟨hread, hcheck⟩

theorem proper_of_ofText {text : String} {r : Revision} (h : ofText text = .ok r) :
    r.Proper ∧ r.toJson.depth ≤ Json.depthLimit ∧ r.chain.IdsDistinct := by
  obtain ⟨hread, hcheck⟩ := ofText_eq_ok h
  obtain ⟨budget, rest, hread⟩ := Json.exists_of_readWith hread
  obtain ⟨hproper, hdepth⟩ := proper_of_read hread
  exact ⟨hproper, hdepth, (Node.checkIds_eq_ok_iff r.chain).1 hcheck⟩

/-- The fields of a revision of a value in which `room` lists and objects may be nested. -/
private def fieldsWithin (room : Nat) : ValueFields [Option String, Option String, Node, Llms] :=
  .cons (defaulted "id" none (.optional .text)) <|
  .cons (defaulted "parent" none (.optional .text)) <|
  .cons (required "chain" (.within room Node.ofJson)) <|
  .cons (required "llms" (.within room Llms.ofJson)) .nil

private theorem readsAs_field {α : Type} {read : Json.Reader α} {text : List Char}
    {decode : Decoder α} {v : Json} (h : ReadsAs read text (decode v)) :
    ReadsAs read text (Prod.fst <$> (do return (← decode v, ()))) := by
  have hsame : Prod.fst <$> (do return (← decode v, ())) = decode v := by cases decode v <;> rfl
  rwa [hsame]

private theorem readsAs_readText (w : Style) (level : Nat) (s : Option String) :
    ReadsAs readText (w.gap ++ w.text level (.ofOption .text s)) (.ok s) := by
  intro rest _
  rw [List.append_assoc, readText, Json.skipBlanks_append w.blank_gap]
  cases s with
  | none =>
    rw [Json.ofOption, w.text_null]
    rfl
  | some s =>
    rw [Json.ofOption, w.text_text, Json.quotation_append, Json.skipBlanks_cons rfl]
    simp only [Json.readQuotation_flatMap_escaped, ok_bind]
    rfl

private theorem optional_ofOption (s : Option String) :
    Decoder.optional .text (.ofOption .text s) = .ok s := by
  cases s <;> rfl

private theorem mirrors_textFields (w : Style) {r : Revision} (hr : r.Proper)
    (hlegible : r.toJson.Legible) {budget level : Nat}
    (hbudget : ∀ e ∈ r.entries, (w.text level e.2).length < budget) (room : Nat) :
    Json.TextFields.Mirrors w.gap (w.text level) r.entries (textFields budget room)
      (fieldsWithin room) := by
  rw [toJson_eq] at hlegible
  have hparts := Json.eachNumber_object_iff.1 hlegible
  refine ⟨⟨rfl, rfl, fun v hv => ?_⟩, ⟨rfl, rfl, fun v hv => ?_⟩, ⟨rfl, rfl, fun v hv => ?_⟩,
    ⟨rfl, rfl, fun v hv => ?_⟩, trivial⟩
  · obtain ⟨s, rfl⟩ := id_of_mem_entries hv
    exact readsAs_readText w level (some s)
  · obtain rfl := parent_of_mem_entries hv
    have hread := readsAs_readText w level r.parent
    rw [← optional_ofOption] at hread
    exact readsAs_field hread
  · have hlength := hbudget _ hv
    have hlegible := hparts _ hv
    obtain rfl := chain_of_mem_entries hv
    have hread := (Node.readsAs_read w hr.1 hlegible hlength room).behind
      (Node.skipsBlanks_read budget room) w.blank_gap
    exact readsAs_field hread
  · have hlength := hbudget _ hv
    have hlegible := hparts _ hv
    obtain rfl := llms_of_mem_entries hv
    have hread := (Llms.readsAs_read w hr.2 hlegible hlength room).behind
      (Llms.skipsBlanks_read budget room) w.blank_gap
    exact readsAs_field hread

private theorem read_within {α : Type} (name : String) {decode : Decoder α} {v : Json} {a : α}
    (h : decode v = .ok a) (room : Nat) :
    (required name (.within room decode)).read v =
      if v.depth ≤ room then .ok (a, ()) else Json.malformed .tooDeep := by
  simp only [required, Decoder.within, h]
  split <;> rfl

private theorem ofJson_fieldsWithin {r : Revision} (hr : r.Proper) (room : Nat) :
    ValueFields.ofJson recordName (fieldsWithin room) r.toJson =
      if r.toJson.depth ≤ room + 1 then .ok (r.id, r.parent, r.chain, r.llms, ())
      else Json.malformed .tooDeep := by
  have hparent : (defaulted "parent" none (.optional .text)).read (.ofOption .text r.parent) =
      .ok (r.parent, ()) := (Json.read_required "parent").2 (optional_ofOption r.parent)
  have hchain := read_within "chain" (Node.ofJson_toJson hr.1) room
  have hllms := read_within "llms" (Llms.lawful.take_write r.llms hr.2) room
  have hbehind : ValueFields.ofJson recordName
      (.cons (defaulted "parent" none (.optional .text)) <|
        .cons (required "chain" (.within room Node.ofJson)) <|
        .cons (required "llms" (.within room Llms.ofJson)) .nil)
      (.object [("parent", .ofOption .text r.parent), ("chain", r.chain.toJson),
        ("llms", r.llms.toJson)]) =
      if r.chain.toJson.depth ≤ room ∧ r.llms.toJson.depth ≤ room then
        .ok (r.parent, r.chain, r.llms, ())
      else Json.malformed .tooDeep := by
    rw [ValueFields.ofJson_named recordName _ rfl (show "parent" ∉ ["chain", "llms"] by decide),
      ValueFields.ofJson_named recordName _ rfl (show "chain" ∉ ["llms"] by decide),
      ValueFields.ofJson_named recordName _ rfl List.not_mem_nil, hparent, hchain, hllms]
    by_cases hc : r.chain.toJson.depth ≤ room <;> by_cases hl : r.llms.toJson.depth ≤ room <;>
      simp [hc, hl, Json.malformed]
    rfl
  simp only [depth_toJson_le_iff]
  rw [toJson_eq, entries, fieldsWithin]
  cases r.id with
  | none =>
    rw [idEntries, List.nil_append, ValueFields.ofJson_leftOut recordName _
      (show "id" ∉ ["parent", "chain", "llms"] by decide) rfl, hbehind]
    split <;> rfl
  | some i =>
    rw [idEntries, List.singleton_append, ValueFields.ofJson_named recordName _ rfl
      (show "id" ∉ ["parent", "chain", "llms"] by decide), hbehind]
    split <;> rfl

theorem readsAs_read (w : Style) {r : Revision} (hr : r.Proper) (hlegible : r.toJson.Legible)
    {budget level : Nat} (hbudget : (w.text level r.toJson).length < budget) :
    ReadsAs (read budget) (w.text level r.toJson)
      (Decoder.within Json.depthLimit (fun _ => .ok r) r.toJson) := by
  intro rest hrest
  obtain ⟨hcount, hlength⟩ := w.length_lt_text_object level r.entries
  rw [← toJson_eq] at hcount hlength
  have hparts : ∀ e ∈ r.entries, (w.text (level + 1) e.2).length < budget := fun e he =>
    (hlength e he).trans hbudget
  have hnames : ∀ e ∈ r.entries, e.1 ∈ (textFields budget (Json.depthLimit - 1)).names :=
    fun e he => by simpa [textFields, Json.Fields.names] using name_of_mem_entries he
  have hmirrors := mirrors_textFields w hr hlegible hparts (Json.depthLimit - 1)
  have hread := Json.TextFields.readsAs_read w recordName hmirrors hnames (hcount.trans hbudget)
    rest hrest
  rw [← toJson_eq, ofJson_fieldsWithin hr] at hread
  rw [read, hread, Decoder.within, show Json.depthLimit - 1 + 1 = Json.depthLimit from rfl]
  split <;> rfl

theorem pretty_eq (r : Revision) : r.pretty = String.ofList (Style.pretty.text 0 r.toJson) := rfl

/-- The text of a proper revision is given back, unless it nests deeper than the reader follows or
an id occurs twice in the chain: then the reader complains, about the depth first. -/
theorem ofText_pretty {r : Revision} (hr : r.Proper) (hlegible : r.toJson.Legible) :
    ofText r.pretty =
      if r.toJson.depth ≤ Json.depthLimit then do r.chain.checkIds; return r
      else .error (.unreadable (.malformed .tooDeep)) := by
  have hread : Json.readWith read (String.ofList (Style.pretty.text 0 r.toJson)) =
      Decoder.within Json.depthLimit (fun _ => .ok r) r.toJson :=
    Json.readWith_ofList (readsAs_read Style.pretty hr hlegible (Nat.lt_succ_self _))
  rw [ofText, pretty_eq, hread, Decoder.within]
  by_cases hdepth : r.toJson.depth ≤ Json.depthLimit <;> simp [hdepth, Json.malformed]

theorem ofText_pretty_of_idsDistinct {r : Revision} (hr : r.Proper) (hlegible : r.toJson.Legible)
    (hdepth : r.toJson.depth ≤ Json.depthLimit) (hids : r.chain.IdsDistinct) :
    ofText r.pretty = .ok r := by
  rw [ofText_pretty hr hlegible, if_pos hdepth, (Node.checkIds_eq_ok_iff r.chain).2 hids]
  rfl

/-- Exactly which revisions and trees survive being written and read. The reader of a revision
complains about a text that nests too deep first, then about the first id that an earlier node
bears; the reader of a tree does not look at ids. -/
theorem ofText_written :
    (∀ r : Revision, r.Proper → (∀ x, .double x ∈ r.toJson.numbers → Json.ReadsBack (.double x)) →
      (Json.depthLimit < Json.nesting r.pretty →
        ofText r.pretty = .error (.unreadable (.malformed .tooDeep))) ∧
      (Json.nesting r.pretty ≤ Json.depthLimit →
        (¬ r.chain.IdsDistinct → ∃ before i after, r.chain.ids = before ++ i :: after ∧
          before.Nodup ∧ i ∈ before ∧ ofText r.pretty = .error (.duplicateId i)) ∧
        (r.chain.IdsDistinct → ofText r.pretty = .ok r))) ∧
    ∀ c : Node, c.Proper → (∀ x, .double x ∈ c.toJson.numbers → Json.ReadsBack (.double x)) →
      (Node.ofText c.toText = .ok c ↔ Json.nesting c.toText ≤ Json.depthLimit) := by
  refine ⟨fun r hr hdoubles => ?_, fun c hc hdoubles => ?_⟩
  · have hread := ofText_pretty hr (Json.legible_of_inRange (inRange_toJson hr) hdoubles)
    have hnesting : Json.nesting r.pretty = r.toJson.depth := Json.nesting_toPretty r.toJson
    rw [hnesting]
    refine ⟨fun hdeep => ?_, fun hfits => ⟨fun hids => ?_, fun hids => ?_⟩⟩
    · rw [hread, if_neg (Nat.not_le.2 hdeep)]
    · obtain ⟨before, i, after, hsplit, hnodup, hi, hcheck⟩ := Node.exists_of_not_idsDistinct hids
      refine ⟨before, i, after, hsplit, hnodup, hi, ?_⟩
      rw [hread, if_pos hfits, hcheck]
      rfl
    · rw [hread, if_pos hfits, (Node.checkIds_eq_ok_iff r.chain).2 hids]
      rfl
  · have hread := Node.ofText_toText hc (Json.legible_of_inRange (Node.inRange_toJson hc) hdoubles)
    have hnesting : Json.nesting c.toText = c.toJson.depth := Json.nesting_toText c.toJson
    rw [hnesting, hread]
    by_cases hfits : c.toJson.depth ≤ Json.depthLimit <;> simp [hfits, Json.malformed]

private def menu (fish : NodeId) : Node :=
  .choice 1 "course" [("soup", .blank .prompt 2), ("fish", .blank .vectorSearch fish)]
    (some (.sequence 4 [] [] []))

private def stacked : Nat → Node
  | 0 => menu 3
  | height + 1 => .sequence (.ofNat (height + 5)) [] [] [stacked height]

private theorem proper_menu (fish : NodeId) : (menu fish).Proper := by
  refine .choice (by simp [Entries.Distinct, Entries.keys]) ?_ fun n hn => ?_
  · exact List.forall_mem_cons.2 ⟨Node.proper_blank .prompt 2,
      List.forall_mem_singleton.2 (Node.proper_blank .vectorSearch fish)⟩
  · exact Option.some.inj hn ▸ .sequence (List.forall_mem_nil _)

private theorem proper_stacked (height : Nat) : (stacked height).Proper := by
  induction height with
  | zero => exact proper_menu 3
  | succ height ih => exact .sequence (List.forall_mem_singleton.2 ih)

private def draft (chain : Node) : Revision := ⟨none, some "r1", chain, .standard⟩

private theorem repeated_menu {before after : List NodeId} {i : NodeId}
    (hids : before ++ i :: after = [1, 2, 2, 4]) (hnodup : before.Nodup) (hi : i ∈ before) :
    i = 2 := by
  rcases before with _ | ⟨a, _ | ⟨b, _ | ⟨c, before⟩⟩⟩
  · contradiction
  · simp_all
  · simp_all
  · simp_all

theorem ofText_written_stacked :
    ofText (draft (stacked 61)).pretty = .ok (draft (stacked 61)) ∧
    ofText (draft (menu 2)).pretty = .error (.duplicateId 2) ∧
    ofText (draft (stacked 62)).pretty = .error (.unreadable (.malformed .tooDeep)) ∧
    Node.ofText (menu 2).toText = .ok (menu 2) := by
  have hread := ofText_written.1 (draft (stacked 61)) ⟨proper_stacked 61, Llms.proper_standard⟩
    (Json.readsBack_of_all (by decide +kernel))
  have hrepeated := ofText_written.1 (draft (menu 2)) ⟨proper_menu 2, Llms.proper_standard⟩
    (Json.readsBack_of_all (by decide +kernel))
  have hdeep := ofText_written.1 (draft (stacked 62)) ⟨proper_stacked 62, Llms.proper_standard⟩
    (Json.readsBack_of_all (by decide +kernel))
  have htree :=
    ofText_written.2 (menu 2) (proper_menu 2) (Json.readsBack_of_all (by decide +kernel))
  have hnesting (r : Revision) : Json.nesting r.pretty = r.toJson.depth :=
    Json.nesting_toPretty r.toJson
  rw [hnesting] at hread hrepeated hdeep
  rw [Node.toText, Json.nesting_toText] at htree
  obtain ⟨before, i, after, hids, hnodup, hi, herror⟩ :=
    (hrepeated.2 (by decide +kernel)).1 (by decide)
  obtain rfl := repeated_menu hids.symm hnodup hi
  exact ⟨(hread.2 (by decide +kernel)).2 (by decide +kernel), herror, hdeep.1 (by decide +kernel),
    htree.2 (by decide +kernel)⟩

/-- Whatever text a revision is read from, its own text nests no deeper than the reader follows and
gives it back, as long as its doubles are read back from their digits. -/
theorem ofText_pretty_of_ofText {text : String} {r : Revision} (h : ofText text = .ok r)
    (hdoubles : ∀ x, .double x ∈ r.toJson.numbers → Json.ReadsBack (.double x)) :
    ofText r.pretty = .ok r ∧ r.toJson.depth ≤ Json.depthLimit := by
  obtain ⟨hproper, hdepth, hids⟩ := proper_of_ofText h
  have hlegible := Json.legible_of_inRange (inRange_toJson hproper) hdoubles
  exact ⟨ofText_pretty_of_idsDistinct hproper hlegible hdepth hids, hdepth⟩

/-- A text that leaves fields off, names one that no revision has, and lists the fields of its
chain. -/
private def terseText : String :=
  "\x7b\"llms\": \x7b\x7d, \"note\": [1], \"chain\": [\"vector_search_spec\", 2, \"q\", \"e\", " ++
  "\x7b\x7d, \"db\", \x7b\"k\": -7\x7d, 5, 0.5, [], \"found\"]\x7d"

theorem ofText_pretty_terseText :
    ∃ r, ofText terseText = .ok r ∧
      r.toJson.numbers = [.integer 2, .integer (-7), .integer 5, .double 0.5] ∧
      ofText r.pretty = .ok r := by
  have h : (fun r => r.toJson.numbers) <$> ofText terseText =
      .ok [.integer 2, .integer (-7), .integer 5, .double 0.5] := by decide +kernel
  obtain ⟨r, hr, hnumbers⟩ := map_eq_ok.1 h
  refine ⟨r, hr, hnumbers, (ofText_pretty_of_ofText hr fun x hx => ?_).1⟩
  have hx : x = 0.5 := by simpa [hnumbers] using hx
  rw [hx]
  decide +kernel

end PromptChain.Revision
