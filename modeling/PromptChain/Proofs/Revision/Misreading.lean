import PromptChain.Proofs.Json.Skipping
import PromptChain.Proofs.Revision.RoundTrip

/-!
# Chains and revisions told apart

A node is an object with none of the fields of a revision, and a revision is an object without the
tag of a node. So the text of the one, however it is laid out, is never read as the other: what the
reader wants is missing, whatever stands in the fields that it passes over.
-/

set_option autoImplicit false

namespace PromptChain

namespace Json

namespace TextFields

variable {αs : List Type} {fields : TextFields αs} {es : List (String × Json)}

theorem readsAs_takeEntry_unknown (w : Style) {key : String} (hkey : key ∉ fields.names) {v : Json}
    (hlegible : v.Legible) (level : Nat) (slots : Slots αs) :
    ReadsAs (fields.takeEntry slots key) (':' :: w.gap ++ w.text level v) (.ok slots) := by
  intro rest hrest
  -- Passing over has no limit of its own: the reader is given as much room as the value needs.
  let budget := (w.text level v).length + 1
  have hread : ReadsAs (value budget v.depth) (w.gap ++ w.text level v) (.ok v) := by
    have hvalue := readsAs_value w hlegible v.depth level (Nat.lt_succ_self _ : _ < budget)
    rw [Decoder.within, if_pos le_rfl] at hvalue
    exact hvalue.behind (skipsBlanks_value budget v.depth) w.blank_gap
  have hskip : skipValue (w.gap ++ w.text level v ++ rest) = .ok rest :=
    skipValue_of_value (hread rest hrest)
  rw [takeEntry, Fields.fill_of_not_mem_names passColon hkey, List.cons_append, List.cons_append]
  simp only [ok_bind, passColon_colon, hskip]
  rfl

theorem readsAs_read_unknown (w : Style) (name : String) (hnames : ∀ e ∈ es, e.1 ∉ fields.names)
    (hlegible : (object es).Legible) {budget : Nat} (hbudget : es.length < budget) (level : Nat) :
    ReadsAs (read name fields budget) (w.text level (.object es))
      (fields.finish fields.vacant) := by
  intro rest hrest
  have hparts : ∀ e ∈ es, ∀ slots : Slots αs,
      ReadsAs (fields.takeEntry slots e.1) (':' :: w.gap ++ w.text (level + 1) e.2) (.ok slots) :=
    fun e he slots => readsAs_takeEntry_unknown w (hnames e he)
      (eachNumber_object_iff.1 hlegible e he) (level + 1) slots
  have hloop := foldEntries_enclosed (w.blank_indent (level + 1)) (w.blank_indent level)
    hparts hbudget fields.vacant rest hrest
  have hkept (es : List (String × Json)) : es.foldlM (fun slots _ => .ok slots) fields.vacant =
      (.ok fields.vacant : Reading (Slots αs)) := by
    induction es with
    | nil => rfl
    | cons e es ih => exact ih
  rw [hkept] at hloop
  rw [w.text_object, List.cons_append, read, skipBlanks_cons rfl]
  simp only [hloop, leaving, ok_bind]
  cases fields.finish fields.vacant <;> rfl

end TextFields

end Json

namespace Revision

private def nodeEntries (n : Node) : List (String × Json) :=
  (Node.kindTag, .text n.kind.name) :: Json.untagged n.toJson

private theorem node_toJson_eq (n : Node) : n.toJson = .object (nodeEntries n) := n.toJson_eq

private theorem name_of_mem_nodeEntries {n : Node} {e : String × Json} (h : e ∈ nodeEntries n)
    (budget room : Nat) : e.1 ∉ (textFields budget room).names := by
  have hnames : (textFields budget room).names = ["id", "parent", "chain", "llms"] := rfl
  rw [hnames]
  revert e
  rcases n with (_ | _ | _ | _ | _ | _) | _ | _ <;>
    simp [nodeEntries, Node.kindTag, Node.toJson, Node.tagged, Leaf.entries, Json.untagged]

theorem ofText_node (w : Json.Style) {n : Node} (hlegible : n.toJson.Legible) :
    ofText (String.ofList (w.text 0 n.toJson)) =
      .error (.unreadable (.misfit (.missingField "chain"))) := by
  rw [node_toJson_eq] at hlegible ⊢
  let text := w.text 0 (.object (nodeEntries n))
  have hbudget : (nodeEntries n).length < text.length + 1 :=
    Nat.lt_succ_of_lt (w.length_lt_text_object 0 (nodeEntries n)).1
  have hread : Json.ReadsAs (read (text.length + 1)) text
      (Json.misfit (.missingField "chain")) := by
    intro rest hrest
    have hnames : ∀ e ∈ nodeEntries n,
        e.1 ∉ (textFields (text.length + 1) (Json.depthLimit - 1)).names :=
      fun e he => name_of_mem_nodeEntries he _ _
    have hfields :=
      Json.TextFields.readsAs_read_unknown w recordName hnames hlegible hbudget 0 rest hrest
    rw [read, hfields]
    rfl
  rw [ofText, Json.readWith_ofList hread]
  rfl

theorem tag_not_mem_keys (r : Revision) : Node.variants.tag ∉ Entries.keys r.entries := by
  intro hmem
  obtain ⟨e, he, htag⟩ := List.mem_map.1 hmem
  have hname := name_of_mem_entries he
  rw [htag] at hname
  exact absurd hname (by decide)

/-- A revision is no tree: it has no kind. -/
theorem node_ofText_ne_ok (w : Json.Style) {r : Revision} (hlegible : r.toJson.Legible) (n : Node) :
    Node.ofText (String.ofList (w.text 0 r.toJson)) ≠ .ok n := by
  rw [toJson_eq] at hlegible ⊢
  let text := w.text 0 (.object r.entries)
  let refuse : Json.Decoder Node := fun _ => Json.misfit (.missingField Node.variants.tag)
  have hread : Json.ReadsAs (Node.read (text.length + 1) Json.depthLimit) text
      (Json.Decoder.within Json.depthLimit refuse (.object r.entries)) := by
    intro rest hrest
    have hvariants := Json.Variants.readsAs_read_untagged w r.tag_not_mem_keys hlegible
      (Nat.lt_succ_self text.length) Json.depthLimit rest hrest
    rw [Node.read, hvariants, Json.Decoder.within, Json.Decoder.within]
    by_cases hdepth : (Json.object r.entries).depth ≤ Json.depthLimit
    · rw [if_pos hdepth, if_pos hdepth]
      rfl
    · rw [if_neg hdepth, if_neg hdepth]
      rfl
  intro h
  rw [Node.ofText, Json.readWith_ofList hread, Json.Decoder.within] at h
  by_cases hdepth : (Json.object r.entries).depth ≤ Json.depthLimit
  · rw [if_pos hdepth] at h
    contradiction
  · rw [if_neg hdepth] at h
    contradiction

end Revision

end PromptChain
