import PromptChain.Proofs.Node.BranchLabels
import PromptChain.Proofs.Node.Deletion
import PromptChain.Proofs.Node.SearchedPlaces

/-!
# What an insertion adds

An insertion gives one node a new child and changes nothing else; without such a node, or with a
leaf for it, it changes nothing at all. If the id is new to the tree, a search for it comes to the
new node, and deleting it gives the old tree back.
-/

set_option autoImplicit false

namespace PromptChain.Node

/-- The second node is the first one with a new child before the one at `index`, or at the end: a
sequence has it as a step, a choice as a branch under a label of its own. -/
inductive WithChild (child : Node) (index : Nat) : Node → Node → Prop where
  | step {i : NodeId} {ins outs : List String} {before after : List Node} :
      before.length = min index (before ++ after).length →
      WithChild child index (sequence i ins outs (before ++ after))
        (sequence i ins outs (before ++ child :: after))
  | branch {i : NodeId} {key label : String} {before after : List (String × Node)}
      {fallback : Option Node} :
      before.length = min index (before ++ after).length →
      label ∉ Entries.keys (before ++ after) →
      (∀ l ∈ Entries.keys (before ++ after), Entries.get? (before ++ (label, child) :: after) l =
        Entries.get? (before ++ after) l) →
      WithChild child index (choice i key (before ++ after) fallback)
        (choice i key (before ++ (label, child) :: after) fallback)

section Parent

variable {child m m' : Node} {index : Nat}

theorem addChild_of_not_acceptsChildren (h : m.kind.acceptsChildren = false) (child : Node)
    (index : Nat) : addChild child index m = m := by
  cases m with
  | leaf l => rfl
  | sequence | choice => contradiction

private theorem get?_splice_of_ne {label l : String} (h : label ≠ l)
    (before after : List (String × Node)) (child : Node) :
    Entries.get? (before ++ (label, child) :: after) l = Entries.get? (before ++ after) l := by
  induction before with
  | nil => rw [List.nil_append, Entries.get?_cons, if_neg h, List.nil_append]
  | cons b bs ih =>
    rw [List.cons_append, List.cons_append, Entries.get?_cons, Entries.get?_cons, ih]

theorem withChild_addChild (h : m.kind.acceptsChildren = true) (child : Node) (index : Nat) :
    WithChild child index m (addChild child index m) := by
  cases m with
  | leaf l =>
    cases l with
    | prompt | chat | api | vectorSearch | reformat | transform => contradiction
  | sequence i ins outs steps =>
    have hstep : WithChild child index (sequence i ins outs (steps.take index ++ steps.drop index))
        (sequence i ins outs (steps.take index ++ child :: steps.drop index)) := .step (by simp)
    rwa [List.take_append_drop] at hstep
  | choice i key branches fallback =>
    have hlabel : freeLabel branches child.id ∉
        Entries.keys (branches.take index ++ branches.drop index) := by
      rw [List.take_append_drop]
      exact freeLabel_not_mem_keys branches child.id
    have hbranch : WithChild child index
        (choice i key (branches.take index ++ branches.drop index) fallback)
        (choice i key (branches.take index ++ (freeLabel branches child.id, child) ::
          branches.drop index) fallback) :=
      .branch (by simp) hlabel fun l hl =>
        get?_splice_of_ne (ne_of_mem_of_not_mem hl hlabel).symm _ _ child
    rwa [List.take_append_drop] at hbranch

theorem WithChild.bare_eq (h : WithChild child index m m') : m'.bare = m.bare := by
  cases h <;> rfl

theorem WithChild.exists_heads (h : WithChild child index m m') :
    ∃ before after, m.heads = before ++ after ∧ m'.heads = before ++ child.heads ++ after := by
  cases h with
  | @step i ins outs before after _ =>
    refine ⟨sequence i ins outs [] :: before.flatMap heads, after.flatMap heads, ?_, ?_⟩
    · simp [heads_eq (sequence i ins outs _), children, bare]
    · simp [heads_eq (sequence i ins outs _), children, bare]
  | @branch i key label before after fallback _ _ _ =>
    refine ⟨choice i key [] none :: before.flatMap fun b => b.2.heads,
      (after.flatMap fun b => b.2.heads) ++ fallback.toList.flatMap heads, ?_, ?_⟩
    · simp [heads_eq (choice i key _ _), children, bare, List.flatMap_map]
    · simp [heads_eq (choice i key _ _), children, bare, List.flatMap_map]

private theorem WithChild.replacesFirst (h : WithChild child index m m') {x : NodeId}
    (hid : child.id = x) (hnew : x ∉ m.ids) : ReplacesFirst x child child m' m' := by
  cases h with
  | step =>
    obtain ⟨hroot, hsteps⟩ := not_mem_ids_sequence_iff.1 hnew
    exact .step hroot (fun n hn => hsteps n (List.mem_append_left _ hn)) (.root hid)
  | branch =>
    obtain ⟨hroot, hbranches, hfallback⟩ := not_mem_ids_choice_iff.1 hnew
    exact .branch hroot hfallback (fun b hb => hbranches b (List.mem_append_left _ hb)) (.root hid)

private theorem WithChild.delete_eq (h : WithChild child index m m') {x : NodeId}
    (hid : child.id = x) (hnew : x ∉ m.ids) : delete x m' = some m := by
  have hchild : delete x child = none := delete_eq_none_iff.2 hid
  cases h with
  | step =>
    obtain ⟨hroot, hsteps⟩ := not_mem_ids_sequence_iff.1 hnew
    rw [delete_sequence hroot, List.filterMap_append, List.filterMap_cons_none hchild,
      ← List.filterMap_append, filterMap_steps_eq_self fun n hn => delete_of_not_mem (hsteps n hn)]
  | branch =>
    obtain ⟨hroot, hbranches, hfallback⟩ := not_mem_ids_choice_iff.1 hnew
    rw [delete_choice hroot, List.filterMap_append, List.filterMap_cons_none (by simp [hchild]),
      ← List.filterMap_append,
      filterMap_branches_eq_self fun b hb => delete_of_not_mem (hbranches b hb),
      bind_fallback_eq_self fun n hn => delete_of_not_mem (hfallback n hn)]

end Parent

section Around

variable {target x : NodeId} {old new t t' : Node}

private theorem exists_replacesFirst_around (h : ReplacesFirst target old new t t') (hx : x ∉ t.ids)
    {n n' new' : Node} (hnew : ReplacesFirst x n n' new new') :
    ∃ t'', ReplacesFirst x n n' t' t'' := by
  induction h with
  | root => exact ⟨new', hnew⟩
  | step _ _ _ ih =>
    obtain ⟨hroot, hsteps⟩ := not_mem_ids_sequence_iff.1 hx
    obtain ⟨k, hk⟩ := ih (hsteps _ (by simp))
    exact ⟨_, .step hroot (fun m hm => hsteps m (List.mem_append_left _ hm)) hk⟩
  | fallback _ _ ih =>
    obtain ⟨hroot, -, hfallback⟩ := not_mem_ids_choice_iff.1 hx
    obtain ⟨k, hk⟩ := ih (hfallback _ rfl)
    exact ⟨_, .fallback hroot hk⟩
  | branch _ _ _ _ ih =>
    obtain ⟨hroot, hbranches, hfallback⟩ := not_mem_ids_choice_iff.1 hx
    obtain ⟨k, hk⟩ := ih (hbranches (_, _) (List.mem_append_right _ List.mem_cons_self))
    exact ⟨_, .branch hroot hfallback (fun b hb => hbranches b (List.mem_append_left _ hb)) hk⟩

private theorem delete_around (h : ReplacesFirst target old new t t') (hx : x ∉ t.ids)
    (hnew : delete x new = some old) : delete x t' = some t := by
  induction h with
  | root => exact hnew
  | @step i ins outs before after k k' _ _ _ ih =>
    obtain ⟨hroot, hsteps⟩ := not_mem_ids_sequence_iff.1 hx
    have hkept : ∀ n ∈ before ++ k :: after, delete x n = some n :=
      fun n hn => delete_of_not_mem (hsteps n hn)
    have hk : delete x k' = delete x k := by rw [ih (hsteps k (by simp)), hkept k (by simp)]
    rw [delete_sequence hroot, List.filterMap_append, List.filterMap_cons, hk,
      ← List.filterMap_cons, ← List.filterMap_append, filterMap_steps_eq_self hkept]
  | @fallback i key branches k k' _ _ ih =>
    obtain ⟨hroot, hbranches, hfallback⟩ := not_mem_ids_choice_iff.1 hx
    rw [delete_choice hroot, filterMap_branches_eq_self fun b hb =>
      delete_of_not_mem (hbranches b hb), Option.bind_some, ih (hfallback k rfl)]
  | @branch i key label before after k k' fallback _ _ _ _ ih =>
    obtain ⟨hroot, hbranches, hfallback⟩ := not_mem_ids_choice_iff.1 hx
    have hkept : ∀ b ∈ before ++ (label, k) :: after, delete x b.2 = some b.2 :=
      fun b hb => delete_of_not_mem (hbranches b hb)
    have hk : delete x k' = delete x k := by
      rw [ih (hbranches (label, k) (by simp)), hkept (label, k) (by simp)]
    have hbranches' := filterMap_branches_eq_self hkept
    rw [List.filterMap_append, List.filterMap_cons] at hbranches'
    rw [delete_choice hroot, List.filterMap_append, List.filterMap_cons, hk, hbranches',
      bind_fallback_eq_self fun n hn => delete_of_not_mem (hfallback n hn)]

end Around

section Tree

variable {root m w : Node} {newId parent : NodeId}

theorem insert_of_refuses (h : root.Refuses parent) (newId : NodeId) (kind : Kind) (index : Nat) :
    insert (some root) newId kind parent index = root := by
  rw [insert]
  cases hchange : change? parent (addChild (blank kind newId) index) root with
  | none => rfl
  | some t =>
    obtain ⟨m, hreplaced⟩ := change?_eq_some_iff.1 hchange
    have hleaf : m.kind.acceptsChildren = false := h m (find?_of_replacesFirst hreplaced)
    rw [addChild_of_not_acceptsChildren hleaf] at hreplaced
    exact eq_of_replacesFirst_self hreplaced

/-- An insertion below a sequence or a choice gives the node that a search for the parent comes to a
new child. -/
theorem exists_withChild_insert (hfind : find? parent root = some m)
    (hm : m.kind.acceptsChildren = true) (newId : NodeId) (kind : Kind) (index : Nat) :
    ∃ m', WithChild (blank kind newId) index m m' ∧
      ReplacesFirst parent m m' root (insert (some root) newId kind parent index) := by
  obtain ⟨t, ht, hreplaced⟩ :=
    exists_replacesFirst_of_find? hfind (addChild (blank kind newId) index)
  refine ⟨_, withChild_addChild hm (blank kind newId) index, ?_⟩
  rwa [insert, ht, Option.getD_some]

theorem find?_insert (hfind : find? parent root = some m) (hm : m.kind.acceptsChildren = true)
    (hnew : newId ∉ root.ids) (kind : Kind) (index : Nat) :
    find? newId (insert (some root) newId kind parent index) = some (blank kind newId) := by
  obtain ⟨m', hchild, hreplaced⟩ := exists_withChild_insert hfind hm newId kind index
  have hnewBelow : newId ∉ m.ids := fun hmem => hnew (mem_ids_of_find? hfind hmem)
  have hfirst := hchild.replacesFirst (id_blank kind newId) hnewBelow
  obtain ⟨t, ht⟩ := exists_replacesFirst_around hreplaced hnew hfirst
  exact find?_of_replacesFirst ht

theorem find?_insert_eq_none_iff (hnew : newId ∉ root.ids) (kind : Kind) (parent : NodeId)
    (index : Nat) : find? newId (insert (some root) newId kind parent index) = none ↔
      root.Refuses parent := by
  constructor
  · intro hmissing m hfind
    by_contra haccepts
    rw [find?_insert hfind (by simpa using haccepts) hnew] at hmissing
    contradiction
  · intro hrefuses
    rw [insert_of_refuses hrefuses, find?_eq_none_iff]
    exact hnew

theorem exists_heads_insert (hfind : find? parent root = some m)
    (hm : m.kind.acceptsChildren = true) (newId : NodeId) (kind : Kind)
    (index : Nat) : ∃ before after, root.heads = before ++ after ∧
      (insert (some root) newId kind parent index).heads = before ++ blank kind newId :: after := by
  obtain ⟨m', hchild, hreplaced⟩ := exists_withChild_insert hfind hm newId kind index
  obtain ⟨place, hplace, hput⟩ := exists_place_of_replacesFirst hreplaced
  obtain ⟨before, after, hheads, hputHeads⟩ := exists_heads_putAt hplace
  obtain ⟨front, back, hm, hm'⟩ := hchild.exists_heads
  refine ⟨before ++ front, back ++ after, ?_, ?_⟩
  · rw [hheads, hm]
    simp
  · rw [hput, hputHeads, hm', heads_blank]
    simp

theorem perm_heads_insert (h : ¬ root.Refuses parent) (newId : NodeId) (kind : Kind) (index : Nat) :
    (insert (some root) newId kind parent index).heads.Perm (blank kind newId :: root.heads) := by
  obtain ⟨m, hfind, hm⟩ := not_refuses_iff.1 h
  obtain ⟨before, after, hheads, hinserted⟩ := exists_heads_insert hfind hm newId kind index
  rw [hheads, hinserted]
  exact List.perm_middle

/-- An inserted node can be replaced by one with its id: the tree has one node more than it had
before the insertion, and the head of its root is what it was. -/
theorem exists_replaced_insert (hnew : newId ∉ root.ids) (haccepts : ¬ root.Refuses parent)
    (hid : w.id = newId) (kind : Kind) (index : Nat) :
    ∃ t, replace? w (insert (some root) newId kind parent index) = some t ∧ t.bare = root.bare ∧
      t.heads.Perm (w.heads ++ root.heads) := by
  subst hid
  obtain ⟨m, hfind, hm⟩ := not_refuses_iff.1 haccepts
  obtain ⟨m', hchild, hinserted⟩ := exists_withChild_insert hfind hm w.id kind index
  obtain ⟨t, hreplace, hreplaced⟩ :=
    exists_replacesFirst_of_find? (find?_insert hfind hm hnew kind index) fun _ => w
  have hbare : (insert (some root) w.id kind parent index).bare = root.bare :=
    hinserted.bare_eq fun _ => hchild.bare_eq
  refine ⟨t, hreplace, ?_, ?_⟩
  · rw [← hbare]
    refine hreplaced.bare_eq fun hroot => absurd ?_ hnew
    rw [← hroot, ← id_bare, hbare, id_bare]
    exact id_mem_ids root
  · obtain ⟨rest, hbefore, hafter⟩ := hreplaced.exists_rest
    rw [heads_blank, List.singleton_append] at hbefore
    have hrest := (hbefore.symm.trans (perm_heads_insert haccepts w.id kind index)).cons_inv
    exact hafter.trans (hrest.append_left w.heads)

theorem exists_ids_insert (hfind : find? parent root = some m) (hm : m.kind.acceptsChildren = true)
    (newId : NodeId) (kind : Kind) (index : Nat) : ∃ before after, root.ids = before ++ after ∧
      (insert (some root) newId kind parent index).ids = before ++ newId :: after := by
  obtain ⟨before, after, hheads, hinserted⟩ := exists_heads_insert hfind hm newId kind index
  refine ⟨before.map id, after.map id, ?_, ?_⟩
  · rw [← map_id_heads root, hheads, List.map_append]
  · rw [← map_id_heads, hinserted, List.map_append, List.map_cons, id_blank]

theorem perm_ids_insert (h : ¬ root.Refuses parent) (newId : NodeId) (kind : Kind) (index : Nat) :
    (insert (some root) newId kind parent index).ids.Perm (newId :: root.ids) := by
  have hheads := (perm_heads_insert h newId kind index).map id
  rwa [List.map_cons, map_id_heads, map_id_heads, id_blank] at hheads

theorem idsDistinct_insert_iff (h : root.IdsDistinct) (newId : NodeId) (kind : Kind)
    (parent : NodeId) (index : Nat) : (insert (some root) newId kind parent index).IdsDistinct ↔
      newId ∉ root.ids ∨ root.Refuses parent := by
  by_cases hrefuses : root.Refuses parent
  · rw [insert_of_refuses hrefuses]
    exact iff_of_true h (.inr hrefuses)
  · rw [IdsDistinct, (perm_ids_insert hrefuses newId kind index).nodup_iff, List.nodup_cons,
      or_iff_left hrefuses]
    exact and_iff_left h

theorem idsDistinct_insert (h : root.IdsDistinct) (hnew : newId ∉ root.ids) (kind : Kind)
    (parent : NodeId) (index : Nat) : (insert (some root) newId kind parent index).IdsDistinct :=
  (idsDistinct_insert_iff h newId kind parent index).2 (.inl hnew)

/-- An insertion is refused when there is no node with the id of the parent, or a leaf comes first
with it; then the tree stays as it is. Otherwise the node that comes first with that id gets a new
child, and at all other places the tree stays as it is. If the id of the child is new to the tree, a
search for it comes to the child, and the ids of the tree are what they were with this one added in
one place. -/
theorem insert_changes_one_parent (t : Node) (newId : NodeId) (kind : Kind) (parent : NodeId)
    (index : Nat) :
    (t.Refuses parent → insert (some t) newId kind parent index = t) ∧
    ∀ m, find? parent t = some m → m.kind.acceptsChildren = true →
      (∃ place m', WithChild (blank kind newId) index m m' ∧
        ReplacesFirst parent m m' t (insert (some t) newId kind parent index) ∧
        DiffersAt place m m' t (insert (some t) newId kind parent index)) ∧
      (newId ∉ t.ids →
        find? newId (insert (some t) newId kind parent index) = some (blank kind newId) ∧
        ∃ before after, t.ids = before ++ after ∧
          (insert (some t) newId kind parent index).ids = before ++ newId :: after) := by
  refine ⟨fun h => insert_of_refuses h newId kind index, fun m hfind hm => ⟨?_, fun hnew => ?_⟩⟩
  · obtain ⟨m', hchild, hreplaced⟩ := exists_withChild_insert hfind hm newId kind index
    obtain ⟨place, hplace, hput⟩ := exists_place_of_replacesFirst hreplaced
    have hdiffers := differsAt_putAt hplace m'
    rw [← hput] at hdiffers
    exact ⟨place, m', hchild, hreplaced, hdiffers⟩
  · exact ⟨find?_insert hfind hm hnew kind index, exists_ids_insert hfind hm newId kind index⟩

end Tree

private def labelled : Node :=
  .sequence 0 [] [] [.choice 1 "kind" [("case text 9", .blank .prompt 2)] (some (.blank .chat 3))]

theorem insert_changes_one_parent_labelled :
    insert (some labelled) 9 .api 2 0 = labelled ∧
    ∃ place m, WithChild (blank .api 9) 5
        (.choice 1 "kind" [("case text 9", .blank .prompt 2)] (some (.blank .chat 3))) m ∧
      (insert (some labelled) 9 .api 1 5).nodeAt? place = some m ∧
      find? 9 (insert (some labelled) 9 .api 1 5) = some (blank .api 9) := by
  obtain ⟨hrefused, -⟩ := insert_changes_one_parent labelled 9 .api 2 0
  obtain ⟨-, haccepted⟩ := insert_changes_one_parent labelled 9 .api 1 5
  obtain ⟨⟨place, m, hchild, -, hdiffers⟩, hnew⟩ := haccepted _ rfl rfl
  refine ⟨hrefused fun m hm => ?_, place, m, hchild, hdiffers.nodeAt?_new, (hnew (by decide)).1⟩
  obtain rfl : blank .prompt 2 = m := Option.some.inj hm
  rfl

/-- Deleting what was inserted under a new id gives the tree back, or no tree if there was none. -/
theorem delete_insert {tree : Option Node} {newId : NodeId} (hnew : ∀ t ∈ tree, newId ∉ t.ids)
    (kind : Kind) (parent : NodeId) (index : Nat) :
    delete newId (insert tree newId kind parent index) = tree := by
  cases tree with
  | none => exact delete_eq_none_iff.2 (id_blank kind newId)
  | some root =>
    have hroot := hnew root rfl
    by_cases hrefuses : root.Refuses parent
    · rw [insert_of_refuses hrefuses, delete_of_not_mem hroot]
    · obtain ⟨m, hfind, hm⟩ := not_refuses_iff.1 hrefuses
      obtain ⟨m', hchild, hreplaced⟩ := exists_withChild_insert hfind hm newId kind index
      have hnewBelow : newId ∉ m.ids := fun hmem => hroot (mem_ids_of_find? hfind hmem)
      exact delete_around hreplaced hroot (hchild.delete_eq (id_blank kind newId) hnewBelow)

theorem delete_insert_labelled :
    delete 9 (insert (some labelled) 9 .api 1 0) = some labelled ∧
      delete 9 (insert none 9 .api 1 0) = none :=
  ⟨delete_insert (by decide) .api 1 0, delete_insert (by simp) .api 1 0⟩

end PromptChain.Node
