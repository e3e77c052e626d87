import PromptChain.Node.Script
import PromptChain.Proofs.Node.SearchedPlaces

/-!
# Replacing a node, and replacing it again

A replacement finds its node exactly if a search for the id does. It is then what a search for the
id comes to, and all that stands elsewhere stays. To put the old node in its own place changes
nothing, and of two replacements at one id the second counts. Ids need not be distinct for any of
this, neither those of the tree nor those of the new node.
-/

set_option autoImplicit false

namespace PromptChain

namespace Node

section Again

variable {target : NodeId} {old new t t' : Node}

theorem ReplacesFirst.again (h : ReplacesFirst target old new t t') (hnew : new.id = target)
    (other : Node) :
    ∃ t'', ReplacesFirst target old other t t'' ∧ ReplacesFirst target new other t' t'' := by
  induction h with
  | root hold => exact ⟨other, .root hold, .root hnew⟩
  | step hroot hbefore _ ih =>
    obtain ⟨n, hold, hagain⟩ := ih
    exact ⟨_, .step hroot hbefore hold, .step hroot hbefore hagain⟩
  | fallback hroot _ ih =>
    obtain ⟨n, hold, hagain⟩ := ih
    exact ⟨_, .fallback hroot hold, .fallback hroot hagain⟩
  | branch hroot hfallback hbefore _ ih =>
    obtain ⟨n, hold, hagain⟩ := ih
    exact ⟨_, .branch hroot hfallback hbefore hold, .branch hroot hfallback hbefore hagain⟩

variable {node other m : Node}

theorem find?_replace (h : replace? node t = some t') : find? node.id t' = some node := by
  obtain ⟨m, hreplaced⟩ := replace?_eq_some_iff.1 h
  obtain ⟨_, -, hagain⟩ := hreplaced.again rfl node
  exact find?_of_replacesFirst hagain

theorem replace?_replace (h : replace? node t = some t') (hid : other.id = node.id) :
    replace? other t' = replace? other t := by
  obtain ⟨m, hreplaced⟩ := replace?_eq_some_iff.1 h
  obtain ⟨t'', hold, hagain⟩ := hreplaced.again rfl other
  rw [← hid] at hold hagain
  rw [replace?_eq_some_iff.2 ⟨m, hold⟩, replace?_eq_some_iff.2 ⟨node, hagain⟩]

theorem replace?_find (h : find? target t = some m) : replace? m t = some t := by
  obtain ⟨-, hid⟩ := mem_nodes_of_find? h
  rw [← hid] at h
  obtain ⟨t', ht', hreplaced⟩ := exists_replacesFirst_of_find? h fun _ => m
  rw [replace?, ht', eq_of_replacesFirst_self hreplaced]

theorem replace?_eq_none_iff : replace? node t = none ↔ find? node.id t = none := by
  rw [replace?, change?_eq_none_iff, find?_eq_none_iff]

end Again

end Node

namespace Edit

open Node (find? replace? FirstAt DiffersAt)

variable {t node other m : Node}

theorem finds_replace_iff :
    (replace node).finds (some t) = true ↔ ∃ m, find? node.id t = some m := by
  rw [finds, Option.bind_some, Option.isSome_iff_ne_none, Ne, Node.replace?_eq_none_iff,
    ← Option.ne_none_iff_exists']

theorem apply_replace (node t : Node) :
    (replace node).apply (some t) = some ((replace? node t).getD t) := by
  rw [apply, Option.bind_some]
  cases replace? node t <;> rfl

theorem apply_replace_replace (hid : other.id = node.id) :
    (replace other).apply ((replace node).apply (some t)) = (replace other).apply (some t) := by
  cases h : replace? node t with
  | none => rw [apply_replace node, h, Option.getD_none]
  | some t' =>
    obtain ⟨t'', ht''⟩ : ∃ t'', replace? other t = some t'' := by
      rw [← Option.ne_none_iff_exists', Ne, Node.replace?_eq_none_iff, hid,
        ← Node.replace?_eq_none_iff, h]
      exact nofun
    rw [apply_replace node, h, Option.getD_some, apply_replace, apply_replace,
      Node.replace?_replace h hid, ht'', Option.getD_some, Option.getD_some]

/-- A replacement finds its node exactly if a search for the id does, and changes nothing if it does
not. If it does, the new node is what a search for the id comes to and stands at the first place
where the id was borne; what stands neither above nor below that place stays, and a node above it
has another child in the slot on the way down and is the same otherwise. To put what the search came
to in its own place changes nothing, and a second replacement at the id undoes the first. -/
theorem apply_replace_laws (t node : Node) :
    ((replace node).finds (some t) = true ↔ ∃ m, find? node.id t = some m) ∧
    ((replace node).finds (some t) = false → (replace node).apply (some t) = some t) ∧
    (∀ m, find? node.id t = some m →
      (∃ place t', FirstAt node.id t place m ∧ (replace node).apply (some t) = some t' ∧
        find? node.id t' = some node ∧ DiffersAt place m node t t') ∧
      (replace m).apply (some t) = some t) ∧
    ∀ other, other.id = node.id →
      (replace other).apply ((replace node).apply (some t)) = (replace other).apply (some t) := by
  refine ⟨finds_replace_iff, apply_of_not_finds, fun m hm => ⟨?_, ?_⟩,
    fun other => apply_replace_replace⟩
  · obtain ⟨place, hfirst, hchange⟩ := Node.exists_firstAt_of_find? hm
    have hreplace : replace? node t = some (t.putAt place node) := hchange fun _ => node
    refine ⟨place, _, hfirst, ?_, Node.find?_replace hreplace,
      Node.differsAt_putAt hfirst.nodeAt?_eq node⟩
    rw [apply_replace, hreplace, Option.getD_some]
  · rw [apply_replace, Node.replace?_find hm, Option.getD_some]

/-- A tree with the id 5 in a branch, as a fallback and as a step. -/
private def repeating : Node :=
  .sequence 0 [] []
    [.choice 1 "kind" [("a", .blank .prompt 5)] (some (.blank .chat 5)), .blank .api 5]

theorem apply_replace_laws_repeating :
    let node : Node := .sequence 5 [] [] [.blank .prompt 5]
    (replace node).finds (some repeating) = true ∧
    (∃ t', (replace node).apply (some repeating) = some t' ∧ find? 5 t' = some node) ∧
    (replace (.blank .chat 5)).apply (some repeating) = some repeating ∧
    (replace (.blank .transform 5)).apply ((replace node).apply (some repeating)) =
      (replace (.blank .transform 5)).apply (some repeating) ∧
    (replace (.blank .api 7)).apply (some repeating) = some repeating := by
  intro node
  obtain ⟨hfinds, -, hfound, hlast⟩ := apply_replace_laws repeating node
  obtain ⟨-, hmissing, -, -⟩ := apply_replace_laws repeating (.blank .api 7)
  have hfind : find? node.id repeating = some (.blank .chat 5) := rfl
  obtain ⟨⟨place, t', -, happly, hnew, -⟩, hsame⟩ := hfound (.blank .chat 5) hfind
  exact ⟨hfinds.2 ⟨_, hfind⟩, ⟨t', happly, hnew⟩, hsame, hlast (.blank .transform 5) rfl,
    hmissing rfl⟩

end Edit

end PromptChain
