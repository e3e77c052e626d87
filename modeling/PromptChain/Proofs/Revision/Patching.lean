import PromptChain.Revision
import PromptChain.Proofs.Node.FreshIds
import PromptChain.Proofs.Node.Refreshing
import PromptChain.Proofs.Node.Replacement
import PromptChain.Proofs.Sequencing

/-!
# What a patch gives

A patch finds nothing to replace, or names the first id that the replaced tree repeats, or is made.
Of a revision with distinct ids it is made exactly when the new node fits into the place of the old
one.
-/

set_option autoImplicit false

namespace PromptChain.Revision

theorem patch_of_not_mem {r : Revision} {node : Node} (h : node.id ∉ r.chain.ids) :
    r.patch node = .error (.patchTargetMissing node.id) := by
  have hmissing : Node.replace? node r.chain = none := Node.change?_eq_none_iff.2 h
  rw [patch, hmissing]

theorem patch_of_replacesFirst {r : Revision} {node m chain : Node}
    (h : Node.ReplacesFirst node.id m node r.chain chain) :
    r.patch node = do
      chain.checkIds
      return create r.id chain r.llms := by
  rw [patch, Node.replace?_eq_some_iff.2 ⟨m, h⟩]

theorem exists_replacesFirst {node t : Node} (h : node.id ∈ t.ids) :
    ∃ m t', Node.find? node.id t = some m ∧ Node.ReplacesFirst node.id m node t t' := by
  obtain ⟨t', ht'⟩ : ∃ t', Node.replace? node t = some t' := by
    rw [← Option.ne_none_iff_exists']
    exact fun hnone => Node.change?_eq_none_iff.1 hnone h
  obtain ⟨m, hm⟩ := Node.replace?_eq_some_iff.1 ht'
  exact ⟨m, t', Node.find?_of_replacesFirst hm, hm⟩

theorem patch_of_idsDistinct {r : Revision} {node m chain : Node}
    (h : Node.ReplacesFirst node.id m node r.chain chain) (hdistinct : chain.IdsDistinct) :
    r.patch node = .ok ⟨none, r.id, chain.refresh, r.llms⟩ ∧ chain.refresh.IdsDistinct := by
  rw [patch_of_replacesFirst h, (Node.checkIds_eq_ok_iff chain).2 hdistinct, Node.IdsDistinct,
    Node.ids_refresh]
  exact ⟨rfl, hdistinct⟩

theorem patch_of_not_idsDistinct {r : Revision} {node m chain : Node}
    (h : Node.ReplacesFirst node.id m node r.chain chain) (hrepeated : ¬ chain.IdsDistinct) :
    ∃ before i after, chain.ids = before ++ i :: after ∧ before.Nodup ∧ i ∈ before ∧
      r.patch node = .error (.duplicateId i) := by
  obtain ⟨before, i, after, hids, hnodup, hi, hcheck⟩ := Node.exists_of_not_idsDistinct hrepeated
  refine ⟨before, i, after, hids, hnodup, hi, ?_⟩
  rw [patch_of_replacesFirst h, hcheck]
  rfl

/-- A patch of a revision with distinct ids is made exactly when the new node has the id of one in
the tree, its ids are distinct, and those that the tree uses lie below the node that it replaces. -/
theorem exists_patch_iff {r : Revision} (h : r.chain.IdsDistinct) (node : Node) :
    (∃ r', r.patch node = .ok r') ↔ node.id ∈ r.chain.ids ∧ node.IdsDistinct ∧
      ∀ m ∈ r.chain.nodes, m.id = node.id → ∀ j ∈ node.ids, j ∈ r.chain.ids → j ∈ m.ids := by
  by_cases hid : node.id ∈ r.chain.ids
  · obtain ⟨m, chain, -, hreplaced⟩ := exists_replacesFirst hid
    have hfits : chain.IdsDistinct ↔ node.FitsInto r.chain :=
      Node.idsDistinct_replace_iff h (Node.replace?_eq_some_iff.2 ⟨m, hreplaced⟩)
    rw [Node.fitsInto_iff h, or_iff_right (not_not.2 hid)] at hfits
    rw [← hfits, and_iff_right hid]
    constructor
    · rintro ⟨r', hr'⟩
      by_contra hrepeated
      obtain ⟨-, i, -, -, -, -, herror⟩ := patch_of_not_idsDistinct hreplaced hrepeated
      rw [hr'] at herror
      contradiction
    · intro hdistinct
      exact ⟨_, (patch_of_idsDistinct hreplaced hdistinct).1⟩
  · refine iff_of_false ?_ fun hin => hid hin.1
    rintro ⟨r', hr'⟩
    rw [patch_of_not_mem hid] at hr'
    contradiction

/-- A patch misses its target exactly when no node has the id of the new one. Otherwise it is judged
by the tree in which the first node with that id is replaced: it names the first id that this tree
repeats, or is made of it. Where the ids of the revision are distinct, it is made exactly when the
new node fits in. -/
theorem patch_accepts_fitting (r : Revision) (node : Node) :
    (r.patch node = .error (.patchTargetMissing node.id) ↔ node.id ∉ r.chain.ids) ∧
    (node.id ∈ r.chain.ids → ∃ m chain, Node.find? node.id r.chain = some m ∧
      Node.ReplacesFirst node.id m node r.chain chain ∧
      (¬ chain.IdsDistinct → ∃ before i after, chain.ids = before ++ i :: after ∧ before.Nodup ∧
        i ∈ before ∧ r.patch node = .error (.duplicateId i)) ∧
      (chain.IdsDistinct → ∃ r', r.patch node = .ok r' ∧ r'.id = none ∧ r'.parent = r.id ∧
        r'.llms = r.llms ∧ r'.chain = chain.refresh ∧ r'.chain.IdsDistinct)) ∧
    (r.chain.IdsDistinct → ((∃ r', r.patch node = .ok r') ↔
      node.id ∈ r.chain.ids ∧ node.IdsDistinct ∧
        ∀ m ∈ r.chain.nodes, m.id = node.id → ∀ j ∈ node.ids, j ∈ r.chain.ids → j ∈ m.ids)) := by
  refine ⟨⟨fun hmissing hid => ?_, patch_of_not_mem⟩, fun hid => ?_,
    fun h => exists_patch_iff h node⟩
  · obtain ⟨m, chain, -, hreplaced⟩ := exists_replacesFirst hid
    by_cases hdistinct : chain.IdsDistinct
    · rw [(patch_of_idsDistinct hreplaced hdistinct).1] at hmissing
      contradiction
    · obtain ⟨-, i, -, -, -, -, hrepeated⟩ := patch_of_not_idsDistinct hreplaced hdistinct
      exact Fault.noConfusion (Except.error.inj (hmissing.symm.trans hrepeated))
  · obtain ⟨m, chain, hfind, hreplaced⟩ := exists_replacesFirst hid
    refine ⟨m, chain, hfind, hreplaced, patch_of_not_idsDistinct hreplaced, fun hdistinct => ?_⟩
    obtain ⟨hpatch, hrefreshed⟩ := patch_of_idsDistinct hreplaced hdistinct
    exact ⟨_, hpatch, rfl, rfl, rfl, rfl, hrefreshed⟩

def branched : Revision where
  id := some "r1"
  parent := none
  chain := .choice 0 "kind" [("draft", .sequence 1 [] [] [.blank .prompt 2, .blank .chat 3])]
    (some (.blank .api 4))
  llms := []

theorem patch_accepts_fitting_branched :
    branched.chain.IdsDistinct ∧ (1 : NodeId) ∈ branched.chain.ids ∧
    (∃ r', branched.patch (.sequence 1 [] [] [.blank .chat 3, .blank .prompt 9]) = .ok r') ∧
    ∃ i, branched.patch (.sequence 1 [] [] [.blank .prompt 4]) = .error (.duplicateId i) := by
  have h : branched.chain.IdsDistinct := by decide
  have hid : (1 : NodeId) ∈ branched.chain.ids := by decide
  let fitting : Node := .sequence 1 [] [] [.blank .chat 3, .blank .prompt 9]
  let clashing : Node := .sequence 1 [] [] [.blank .prompt 4]
  have hfits := (patch_accepts_fitting branched fitting).2.2 h
  have hclashes := (patch_accepts_fitting branched clashing).2.2 h
  obtain ⟨m, chain, -, -, hrepeated, hmade⟩ := (patch_accepts_fitting branched clashing).2.1 hid
  refine ⟨h, hid, hfits.2 ⟨hid, by decide, by decide⟩, ?_⟩
  by_cases hdistinct : chain.IdsDistinct
  · obtain ⟨r', hr', -⟩ := hmade hdistinct
    exact absurd (hclashes.1 ⟨r', hr'⟩).2.2 (by decide)
  · obtain ⟨-, i, -, -, -, -, herror⟩ := hrepeated hdistinct
    exact ⟨i, herror⟩

end PromptChain.Revision
