import PromptChain.Proofs.Node.ChangedIds

/-!
# Which node a search comes to

A search for an id comes to a node of the tree that bears it, if there is one. Where ids are
distinct there is only one such node, and the order of the search does not matter.
-/

set_option autoImplicit false

namespace PromptChain.Node

/-- The children of a node in the order in which they are searched: a fallback before the
branches. -/
def searchOrder : Node → List Node
  | leaf _ => []
  | sequence _ _ _ steps => steps
  | choice _ _ branches fallback => fallback.toList ++ branches.map (·.2)

theorem mem_searchOrder {n m : Node} : m ∈ n.searchOrder ↔ m ∈ n.children := by
  cases n with
  | leaf | sequence => rfl
  | choice i key branches fallback =>
    rw [searchOrder, children, List.mem_append, List.mem_append, or_comm]

theorem find?_eq (target : NodeId) (t : Node) : find? target t =
    if t.id = target then some t else t.searchOrder.findSome? (find? target) := by
  cases t with
  | leaf l => rfl
  | sequence i ins outs steps =>
    rw [find?, findInSteps_eq]
    rfl
  | choice i key branches fallback =>
    rw [find?, findInBranches_eq]
    cases fallback with
    | none => rfl
    | some n => cases h : find? target n <;> simp [findInFallback, searchOrder, h, Node.id]

theorem find?_eq_none_iff {target : NodeId} {t : Node} :
    find? target t = none ↔ target ∉ t.ids := by
  induction t using induction_children with
  | step t ih =>
    rw [find?_eq, ids_eq, List.mem_cons, List.mem_flatMap]
    by_cases hroot : t.id = target
    · simp [hroot]
    · rw [if_neg hroot, List.findSome?_eq_none_iff]
      simp only [mem_searchOrder, not_or, not_exists, not_and, Ne.symm hroot, not_false_iff,
        true_and]
      exact forall₂_congr ih

theorem mem_nodes_of_find? {target : NodeId} {t m : Node} (h : find? target t = some m) :
    m ∈ t.nodes ∧ m.id = target := by
  induction t using induction_children with
  | step t ih =>
    rw [find?_eq] at h
    split at h
    · next hroot =>
      obtain rfl := Option.some.inj h
      exact ⟨mem_nodes_iff.2 (.inl rfl), hroot⟩
    · obtain ⟨n, hn, hfind⟩ := List.exists_of_findSome?_eq_some h
      have hchild := mem_searchOrder.1 hn
      obtain ⟨hmem, hid⟩ := ih n hchild hfind
      exact ⟨mem_nodes_iff.2 (.inr ⟨n, hchild, hmem⟩), hid⟩

theorem find?_eq_some_iff {t : Node} (h : t.IdsDistinct) {target : NodeId} {m : Node} :
    find? target t = some m ↔ m ∈ t.nodes ∧ m.id = target := by
  refine ⟨mem_nodes_of_find?, ?_⟩
  rintro ⟨hm, rfl⟩
  obtain ⟨n, hn⟩ : ∃ n, find? m.id t = some n := by
    rw [← Option.ne_none_iff_exists', Ne, find?_eq_none_iff, not_not]
    exact List.mem_map_of_mem hm
  obtain ⟨hmem, hid⟩ := mem_nodes_of_find? hn
  rw [hn, List.inj_on_of_nodup_map h hmem hm hid]

theorem refuses_iff {t : Node} (h : t.IdsDistinct) (parent : NodeId) :
    t.Refuses parent ↔ ∀ m ∈ t.nodes, m.id = parent → m.kind.acceptsChildren = false := by
  simp only [Refuses, find?_eq_some_iff h, and_imp]

/-- A node fits into a tree if the tree has no node with its id; otherwise its ids must be distinct
and, but for those below the node that it replaces, not in the tree. -/
theorem fitsInto_iff {t : Node} (h : t.IdsDistinct) (node : Node) :
    node.FitsInto t ↔ node.id ∉ t.ids ∨ node.IdsDistinct ∧
      ∀ m ∈ t.nodes, m.id = node.id → ∀ j ∈ node.ids, j ∈ t.ids → j ∈ m.ids := by
  by_cases hid : node.id ∈ t.ids
  · obtain ⟨m, hm, hmid⟩ := List.mem_map.1 hid
    have hfind : find? node.id t = some m := (find?_eq_some_iff h).2 ⟨hm, hmid⟩
    rw [or_iff_right (not_not.2 hid), FitsInto]
    constructor
    · intro hfits
      refine ⟨(hfits m hfind).1, fun m' hm' hid' => ?_⟩
      exact (hfits m' ((find?_eq_some_iff h).2 ⟨hm', hid'⟩)).2
    · rintro ⟨hnode, hout⟩ m' hm'
      obtain ⟨hmem, hid'⟩ := mem_nodes_of_find? hm'
      exact ⟨hnode, hout m' hmem hid'⟩
  · refine iff_of_true (fun m hm => ?_) (.inl hid)
    rw [find?_eq_none_iff.2 hid] at hm
    contradiction

end PromptChain.Node
