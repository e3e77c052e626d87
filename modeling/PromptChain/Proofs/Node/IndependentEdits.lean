import PromptChain.Proofs.Node.Insertion
import PromptChain.Proofs.Node.ReplacementLaws

/-!
# Edits that can be made in either order

Where an id occurs at most once, to change the first node that bears it is to change every node that
does. Such a change goes down a tree node by node and needs no search, so two of them can be made in
either order if they can at the nodes that they change, and so can a change and a deletion.
`Independent` lists the pairs of edits that keep out of each other's way like this.
-/

set_option autoImplicit false

namespace PromptChain

namespace Node

def mapChildren (g : Node → Node) : Node → Node
  | leaf l => leaf l
  | sequence i ins outs steps => sequence i ins outs (steps.map g)
  | choice i key branches fallback =>
    choice i key (branches.map fun b => (b.1, g b.2)) (fallback.map g)

section MapChildren

variable {g g' : Node → Node} {n : Node}

@[simp] theorem id_mapChildren (g : Node → Node) (n : Node) : (n.mapChildren g).id = n.id := by
  cases n <;> rfl

theorem mapChildren_congr (h : ∀ c ∈ n.children, g c = g' c) :
    n.mapChildren g = n.mapChildren g' := by
  cases n with
  | leaf l => rfl
  | sequence i ins outs steps =>
    have hsteps : steps.map g = steps.map g' := List.map_congr_left h
    rw [mapChildren, mapChildren, hsteps]
  | choice i key branches fallback =>
    obtain ⟨hbranches, hfallback⟩ := List.forall_mem_append.1 h
    rw [List.forall_mem_map] at hbranches
    have hmap : fallback.map g = fallback.map g' :=
      Option.map_congr fun n hn => hfallback n (Option.mem_toList.2 hn)
    rw [mapChildren, mapChildren, hmap, List.map_congr_left fun b hb => by rw [hbranches b hb]]

theorem mapChildren_mapChildren (g g' : Node → Node) (n : Node) :
    (n.mapChildren g).mapChildren g' = n.mapChildren fun c => g' (g c) := by
  cases n <;> simp [mapChildren, Function.comp_def]

theorem mapChildren_id (n : Node) : (n.mapChildren fun c => c) = n := by
  cases n <;> simp [mapChildren]

@[simp] theorem id_addChild (child : Node) (index : Nat) (n : Node) :
    (addChild child index n).id = n.id := by
  cases n <;> rfl

theorem mem_children_addChild {child c : Node} {index : Nat}
    (h : c ∈ (addChild child index n).children) : c = child ∨ c ∈ n.children := by
  cases n with
  | leaf l => exact .inr h
  | sequence i ins outs steps =>
    rcases List.mem_append.1 h with hc | hc
    · exact .inr (List.mem_of_mem_take hc)
    · exact (List.mem_cons.1 hc).imp_right List.mem_of_mem_drop
  | choice i key branches fallback =>
    simp only [addChild, children, List.map_append, List.map_cons, List.mem_append, List.mem_cons]
      at h ⊢
    rcases h with (hc | rfl | hc) | hc
    · exact .inr (.inl (List.map_subset _ (List.take_subset _ _) hc))
    · exact .inl rfl
    · exact .inr (.inl (List.map_subset _ (List.drop_subset _ _) hc))
    · exact .inr (.inr hc)

theorem mapChildren_addChild {child : Node} (h : g child = child) (index : Nat) (n : Node) :
    (addChild child index n).mapChildren g = addChild child index (n.mapChildren g) := by
  cases n with
  | leaf l => rfl
  | sequence i ins outs steps => simp [addChild, mapChildren, h, List.map_take, List.map_drop]
  | choice i key branches fallback =>
    have hlabel : freeLabel (branches.map fun b => (b.1, g b.2)) child.id =
        freeLabel branches child.id :=
      freeLabel_congr (by simp [Entries.keys, Function.comp_def]) child.id
    simp [addChild, mapChildren, h, hlabel, List.map_take, List.map_drop]

end MapChildren

mutual

/-- Change every node that bears an id, and nothing below such a node. -/
def changeAll (target : NodeId) (f : Node → Node) : Node → Node
  | leaf l => if l.id = target then f (leaf l) else leaf l
  | sequence i ins outs steps =>
    if i = target then f (sequence i ins outs steps)
    else sequence i ins outs (changeAllSteps target f steps)
  | choice i key branches fallback =>
    if i = target then f (choice i key branches fallback)
    else choice i key (changeAllBranches target f branches) (changeAllFallback target f fallback)

def changeAllSteps (target : NodeId) (f : Node → Node) : List Node → List Node
  | [] => []
  | n :: ns => changeAll target f n :: changeAllSteps target f ns

def changeAllBranches (target : NodeId) (f : Node → Node) :
    List (String × Node) → List (String × Node)
  | [] => []
  | (k, n) :: bs => (k, changeAll target f n) :: changeAllBranches target f bs

def changeAllFallback (target : NodeId) (f : Node → Node) : Option Node → Option Node
  | none => none
  | some n => some (changeAll target f n)

end

section ChangeAll

variable {target : NodeId} {f : Node → Node} {t t' old new : Node}

private theorem changeAllSteps_eq (steps : List Node) :
    changeAllSteps target f steps = steps.map (changeAll target f) := by
  induction steps with
  | nil => rfl
  | cons n ns ih => rw [changeAllSteps, ih, List.map_cons]

private theorem changeAllBranches_eq (branches : List (String × Node)) :
    changeAllBranches target f branches = branches.map fun b => (b.1, changeAll target f b.2) := by
  induction branches with
  | nil => rfl
  | cons b bs ih => rw [changeAllBranches, ih, List.map_cons]

theorem changeAll_eq (target : NodeId) (f : Node → Node) (t : Node) :
    changeAll target f t = if t.id = target then f t else t.mapChildren (changeAll target f) := by
  cases t with
  | leaf l => rfl
  | sequence i ins outs steps => rw [changeAll, changeAllSteps_eq, mapChildren, Node.id]
  | choice i key branches fallback =>
    rw [changeAll, changeAllBranches_eq, mapChildren, Node.id]
    cases fallback <;> rfl

theorem changeAll_of_id_eq (h : t.id = target) : changeAll target f t = f t := by
  rw [changeAll_eq, if_pos h]

theorem changeAll_of_id_ne (h : t.id ≠ target) :
    changeAll target f t = t.mapChildren (changeAll target f) := by
  rw [changeAll_eq, if_neg h]

theorem changeAll_sequence {i : NodeId} (h : i ≠ target) (ins outs : List String)
    (steps : List Node) :
    changeAll target f (sequence i ins outs steps) =
      sequence i ins outs (steps.map (changeAll target f)) :=
  changeAll_of_id_ne h

theorem changeAll_choice {i : NodeId} (h : i ≠ target) (key : String)
    (branches : List (String × Node)) (fallback : Option Node) :
    changeAll target f (choice i key branches fallback) =
      choice i key (branches.map fun b => (b.1, changeAll target f b.2))
        (fallback.map (changeAll target f)) :=
  changeAll_of_id_ne h

theorem changeAll_of_not_mem (h : target ∉ t.ids) : changeAll target f t = t := by
  induction t using induction_children with
  | step t ih =>
    rw [ids_eq, List.mem_cons, not_or, List.mem_flatMap] at h
    obtain ⟨hroot, hchildren⟩ := h
    have hkept : ∀ c ∈ t.children, changeAll target f c = c :=
      fun c hc => ih c hc fun hmem => hchildren ⟨c, hc, hmem⟩
    rw [changeAll_of_id_ne (Ne.symm hroot), mapChildren_congr hkept, mapChildren_id]

private theorem occurs_inside {before l after : List NodeId}
    (h : (before ++ l ++ after).count target ≤ 1) (hl : target ∈ l) :
    target ∉ before ∧ l.count target ≤ 1 ∧ target ∉ after := by
  have hpos := List.count_pos_iff.2 hl
  rw [List.count_append, List.count_append] at h
  exact ⟨List.count_eq_zero.1 (by omega), by omega, List.count_eq_zero.1 (by omega)⟩

private theorem map_changeAll_eq_self {steps : List Node} (h : ∀ n ∈ steps, target ∉ n.ids) :
    steps.map (changeAll target f) = steps :=
  (List.map_congr_left fun n hn => changeAll_of_not_mem (h n hn)).trans (List.map_id' steps)

private theorem map_changeAll_branches_eq_self {branches : List (String × Node)}
    (h : ∀ b ∈ branches, target ∉ b.2.ids) :
    (branches.map fun b => (b.1, changeAll target f b.2)) = branches :=
  (List.map_congr_left fun b hb => by rw [changeAll_of_not_mem (h b hb)]).trans
    (List.map_id' branches)

private theorem changeAll_of_replacesFirst (h : ReplacesFirst target old new t t')
    (hnew : f old = new) (hcount : t.ids.count target ≤ 1) : changeAll target f t = t' := by
  induction h with
  | root hid => rw [changeAll_of_id_eq hid, hnew]
  | @step i ins outs before after n n' hroot hbefore hinner ih =>
    rw [ids_sequence_eq, List.count_cons_of_ne hroot, List.flatMap_append, List.flatMap_cons,
      ← List.append_assoc] at hcount
    obtain ⟨-, hn, hafter⟩ := occurs_inside hcount hinner.mem_ids
    have hkept : ∀ m ∈ after, target ∉ m.ids := fun m hm hmem =>
      hafter (List.mem_flatMap.2 ⟨m, hm, hmem⟩)
    rw [changeAll_sequence hroot, List.map_append, List.map_cons, ih hn,
      map_changeAll_eq_self hbefore, map_changeAll_eq_self hkept]
  | @fallback i key branches n n' hroot hinner ih =>
    rw [ids_choice_eq, List.count_cons_of_ne hroot, Option.toList_some, List.flatMap_singleton,
      ← List.append_nil (_ ++ n.ids)] at hcount
    obtain ⟨hbranches, hn, -⟩ := occurs_inside hcount hinner.mem_ids
    have hkept : ∀ b ∈ branches, target ∉ b.2.ids := fun b hb hmem =>
      hbranches (List.mem_flatMap.2 ⟨b, hb, hmem⟩)
    rw [changeAll_choice hroot, map_changeAll_branches_eq_self hkept, Option.map_some, ih hn]
  | @branch i key label before after n n' fallback hroot hfallback hbefore hinner ih =>
    rw [ids_choice_eq, List.count_cons_of_ne hroot, List.flatMap_append, List.flatMap_cons,
      ← List.append_assoc, List.append_assoc (_ ++ n.ids)] at hcount
    obtain ⟨-, hn, hafter⟩ := occurs_inside hcount hinner.mem_ids
    have hkept : ∀ b ∈ after, target ∉ b.2.ids := fun b hb hmem =>
      hafter (List.mem_append_left _ (List.mem_flatMap.2 ⟨b, hb, hmem⟩))
    have hmap : fallback.map (changeAll target f) = fallback := by
      cases fallback with
      | none => rfl
      | some k => rw [Option.map_some, changeAll_of_not_mem (hfallback k rfl)]
    rw [changeAll_choice hroot, List.map_append, List.map_cons, ih hn,
      map_changeAll_branches_eq_self hbefore, map_changeAll_branches_eq_self hkept, hmap]

theorem getD_change? (h : t.ids.count target ≤ 1) (f : Node → Node) :
    (change? target f t).getD t = changeAll target f t := by
  cases hchange : change? target f t with
  | none => rw [changeAll_of_not_mem (change?_eq_none_iff.1 hchange), Option.getD_none]
  | some t' =>
    obtain ⟨m, hreplaced⟩ := change?_eq_some_iff.1 hchange
    rw [changeAll_of_replacesFirst hreplaced rfl h, Option.getD_some]

end ChangeAll

section Order

variable {p q d : NodeId} {f g : Node → Node}

/-- Two changes can be made in either order if they can at the nodes that either of them changes. -/
theorem changeAll_comm (hne : p ≠ q)
    (hf : ∀ n : Node, n.id = p → changeAll q g (f n) = f (changeAll q g n))
    (hg : ∀ n : Node, n.id = q → changeAll p f (g n) = g (changeAll p f n)) (t : Node) :
    changeAll q g (changeAll p f t) = changeAll p f (changeAll q g t) := by
  induction t using induction_children with
  | step t ih =>
    by_cases hp : t.id = p
    · have hq : t.id ≠ q := fun hq => hne (hp.symm.trans hq)
      have hid : (changeAll q g t).id = p := by rw [changeAll_of_id_ne hq, id_mapChildren, hp]
      rw [changeAll_of_id_eq hp, hf t hp, changeAll_of_id_eq hid]
    · by_cases hq : t.id = q
      · have hid : (changeAll p f t).id = q := by rw [changeAll_of_id_ne hp, id_mapChildren, hq]
        rw [changeAll_of_id_eq hid, changeAll_of_id_eq hq, hg t hq]
      · have hp' : (t.mapChildren (changeAll q g)).id ≠ p := by rwa [id_mapChildren]
        have hq' : (t.mapChildren (changeAll p f)).id ≠ q := by rwa [id_mapChildren]
        rw [changeAll_of_id_ne hp, changeAll_of_id_ne hq', changeAll_of_id_ne hq,
          changeAll_of_id_ne hp', mapChildren_mapChildren, mapChildren_mapChildren,
          mapChildren_congr ih]

private theorem changeAll_addChild {child n : Node} (hne : n.id ≠ q) (hchild : q ∉ child.ids)
    (index : Nat) :
    changeAll q g (addChild child index n) = addChild child index (changeAll q g n) := by
  have hid : (addChild child index n).id ≠ q := by rwa [id_addChild]
  rw [changeAll_of_id_ne hid, changeAll_of_id_ne hne,
    mapChildren_addChild (changeAll_of_not_mem hchild)]

theorem delete_mapChildren {t : Node}
    (h : ∀ c ∈ t.children, delete d (g c) = (delete d c).map g) :
    delete d (t.mapChildren g) = (delete d t).map (mapChildren g) := by
  by_cases hroot : t.id = d
  · have hroot' : (t.mapChildren g).id = d := by rwa [id_mapChildren]
    rw [delete_eq_none_iff.2 hroot', delete_eq_none_iff.2 hroot, Option.map_none]
  · cases t with
    | leaf l =>
      rw [Node.id] at hroot
      rw [mapChildren, delete, if_neg hroot, Option.map_some, mapChildren]
    | sequence i ins outs steps =>
      rw [Node.id] at hroot
      have hsteps : (steps.map g).filterMap (delete d) = (steps.filterMap (delete d)).map g := by
        rw [List.filterMap_map, List.map_filterMap]
        exact List.filterMap_congr h
      rw [mapChildren, delete_sequence hroot, delete_sequence hroot, hsteps, Option.map_some,
        mapChildren]
    | choice i key branches fallback =>
      rw [Node.id] at hroot
      obtain ⟨hbranches, hfallback⟩ := List.forall_mem_append.1 h
      rw [List.forall_mem_map] at hbranches
      have hb :
          ((branches.map fun b => (b.1, g b.2)).filterMap fun b => (delete d b.2).map (b.1, ·)) =
          (branches.filterMap fun b => (delete d b.2).map (b.1, ·)).map fun b => (b.1, g b.2) := by
        rw [List.filterMap_map, List.map_filterMap]
        refine List.filterMap_congr fun b hb => ?_
        simp only [Function.comp_def, hbranches b hb, Option.map_map]
      have hf : (fallback.map g).bind (delete d) = (fallback.bind (delete d)).map g := by
        cases fallback with
        | none => rfl
        | some n => exact hfallback n (Option.mem_toList.2 rfl)
      rw [mapChildren, delete_choice hroot, delete_choice hroot, hb, hf, Option.map_some,
        mapChildren]

theorem delete_changeAll {t : Node}
    (h : ∀ n ∈ t.nodes, n.id = p → delete d (f n) = (delete d n).map f) :
    delete d (changeAll p f t) = (delete d t).map (changeAll p f) := by
  induction t using induction_children with
  | step t ih =>
    by_cases hp : t.id = p
    · rw [changeAll_of_id_eq hp, h t (mem_nodes_iff.2 (.inl rfl)) hp]
      refine Option.map_congr fun t' ht' => ?_
      have hid : t'.id = p := (id_of_delete ht').trans hp
      rw [changeAll_of_id_eq hid]
    · have hchildren : ∀ c ∈ t.children,
          delete d (changeAll p f c) = (delete d c).map (changeAll p f) :=
        fun c hc => ih c hc fun n hn => h n (mem_nodes_iff.2 (.inr ⟨c, hc, hn⟩))
      rw [changeAll_of_id_ne hp, delete_mapChildren hchildren]
      refine Option.map_congr fun t' ht' => ?_
      have hid : t'.id ≠ p := by rwa [id_of_delete ht']
      rw [changeAll_of_id_ne hid]

private theorem delete_eq_mapChildren {n : Node} (hroot : n.id ≠ d)
    (h : ∀ c ∈ n.children, c.id ≠ d) :
    delete d n = some (n.mapChildren fun c => (delete d c).getD c) := by
  have hkept : ∀ c ∈ n.children, delete d c = some ((delete d c).getD c) := by
    intro c hc
    obtain ⟨c', hc'⟩ := exists_delete (Ne.symm (h c hc))
    rw [hc', Option.getD_some]
  cases n with
  | leaf l => exact if_neg hroot
  | sequence i ins outs steps =>
    rw [Node.id] at hroot
    have hsteps : steps.filterMap (delete d) = steps.map fun c => (delete d c).getD c :=
      (List.filterMap_congr hkept).trans (congrFun List.filterMap_eq_map' steps)
    rw [delete_sequence hroot, hsteps, mapChildren]
  | choice i key branches fallback =>
    rw [Node.id] at hroot
    obtain ⟨hbranches, hfallback⟩ := List.forall_mem_append.1 hkept
    rw [List.forall_mem_map] at hbranches
    have hb : (branches.filterMap fun b => (delete d b.2).map (b.1, ·)) =
        branches.map fun b => (b.1, (delete d b.2).getD b.2) :=
      (List.filterMap_congr fun b hb => congrArg (Option.map (b.1, ·)) (hbranches b hb)).trans
        (congrFun List.filterMap_eq_map' branches)
    have hf : fallback.bind (delete d) = fallback.map fun c => (delete d c).getD c := by
      cases fallback with
      | none => rfl
      | some n => exact hfallback n (Option.mem_toList.2 rfl)
    rw [delete_choice hroot, hb, hf, mapChildren]

private theorem delete_addChild {child n : Node} (hroot : n.id ≠ d) (hchild : d ∉ child.ids)
    (h : ∀ c ∈ n.children, c.id ≠ d) (index : Nat) :
    delete d (addChild child index n) = (delete d n).map (addChild child index) := by
  have hid : (addChild child index n).id ≠ d := by rwa [id_addChild]
  have hkept : ∀ c ∈ (addChild child index n).children, c.id ≠ d := by
    intro c hc
    rcases mem_children_addChild hc with rfl | hc
    · exact fun hcd => hchild (hcd ▸ c.id_mem_ids)
    · exact h c hc
  have hsame : (delete d child).getD child = child := by
    rw [delete_of_not_mem hchild, Option.getD_some]
  rw [delete_eq_mapChildren hid hkept, delete_eq_mapChildren hroot h, Option.map_some]
  exact congrArg some (mapChildren_addChild (g := fun c => (delete d c).getD c) hsame index n)

end Order

section Count

variable {x newId parent : NodeId} {t node : Node}

private theorem count_ids_insert (h : x ≠ newId) (kind : Kind) (parent : NodeId) (index : Nat) :
    (insert (some t) newId kind parent index).ids.count x = t.ids.count x := by
  by_cases hrefuses : t.Refuses parent
  · rw [insert_of_refuses hrefuses]
  · rw [(perm_ids_insert hrefuses newId kind index).count_eq, List.count_cons_of_ne (Ne.symm h)]

theorem count_ids_replace_le (h : x ∉ node.ids) (t : Node) :
    ((replace? node t).getD t).ids.count x ≤ t.ids.count x := by
  cases hr : replace? node t with
  | none => rw [Option.getD_none]
  | some t' =>
    obtain ⟨m, rest, -, hids, hids'⟩ := change?_eq_some hr
    rw [Option.getD_some, hids.count_eq, hids'.count_eq, List.count_append, List.count_append,
      List.count_eq_zero.2 h]
    omega

/-- Where the id of its parent occurs at most once, an insertion goes down the tree without a
search. -/
private theorem insert_eq_changeAll (h : t.ids.count parent ≤ 1) (newId : NodeId) (kind : Kind)
    (index : Nat) : insert (some t) newId kind parent index =
      changeAll parent (addChild (blank kind newId) index) t := by
  rw [insert, getD_change? h]

theorem getD_replace? (h : t.ids.count node.id ≤ 1) :
    (replace? node t).getD t = changeAll node.id (fun _ => node) t := by
  rw [replace?, getD_change? h]

end Count

/-! ## Pairs of edits -/

section Pairs

variable {a b p q d : NodeId} {t : Node}

theorem insert_insert_comm (h : t.IdsDistinct) (hpq : p ≠ q) (hpb : p ≠ b) (hqa : q ≠ a)
    (k k' : Kind) (i j : Nat) :
    insert (some (insert (some t) a k p i)) b k' q j =
      insert (some (insert (some t) b k' q j)) a k p i := by
  have hcount := List.nodup_iff_count_le_one.1 h
  have hq : (insert (some t) a k p i).ids.count q ≤ 1 := by
    rw [count_ids_insert hqa]
    exact hcount q
  have hp : (insert (some t) b k' q j).ids.count p ≤ 1 := by
    rw [count_ids_insert hpb]
    exact hcount p
  rw [insert_eq_changeAll hq, insert_eq_changeAll hp, insert_eq_changeAll (hcount p),
    insert_eq_changeAll (hcount q)]
  refine changeAll_comm hpq (fun n hn => ?_) (fun n hn => ?_) t
  · exact changeAll_addChild (hn.trans_ne hpq) (by simpa using hqa) i
  · exact changeAll_addChild (hn.trans_ne hpq.symm) (by simpa using hpb) j

theorem delete_insert_comm (h : t.IdsDistinct) (hda : d ≠ a) (hdp : d ≠ p) (hroot : d ≠ t.id)
    (hsibling : ∀ m ∈ t.nodes, m.id = p → ∀ c ∈ m.children, c.id ≠ d) (k : Kind) (i : Nat) :
    delete d (insert (some t) a k p i) = some (insert (delete d t) a k p i) := by
  obtain ⟨t', ht'⟩ := exists_delete hroot
  have hleft : t'.IdsDistinct := idsDistinct_delete h ht'
  have hchanged : delete d (changeAll p (addChild (blank k a) i) t) =
      (delete d t).map (changeAll p (addChild (blank k a) i)) :=
    delete_changeAll fun n hn hid =>
      delete_addChild (hid.trans_ne hdp.symm) (by simpa using hda) (hsibling n hn hid) i
  rw [insert_eq_changeAll (List.nodup_iff_count_le_one.1 h p), hchanged, ht', Option.map_some,
    insert_eq_changeAll (List.nodup_iff_count_le_one.1 hleft p)]

end Pairs

end Node

namespace Edit

theorem apply_replace_comm {t x y : Node} (h : t.IdsDistinct) (hxy : x.id ∉ y.ids)
    (hyx : y.id ∉ x.ids) :
    (replace y).apply ((replace x).apply (some t)) =
      (replace x).apply ((replace y).apply (some t)) := by
  have hcount : ∀ i, t.ids.count i ≤ 1 := List.nodup_iff_count_le_one.1 h
  -- A replacement brings no second node with the other id in, so the other one can still do without
  -- a search.
  have hy : ((Node.replace? x t).getD t).ids.count y.id ≤ 1 :=
    (Node.count_ids_replace_le hyx t).trans (hcount y.id)
  have hx : ((Node.replace? y t).getD t).ids.count x.id ≤ 1 :=
    (Node.count_ids_replace_le hxy t).trans (hcount x.id)
  have hne : x.id ≠ y.id := fun he => hxy (he ▸ y.id_mem_ids)
  rw [apply_replace x, apply_replace y, apply_replace y, apply_replace x, Node.getD_replace? hy,
    Node.getD_replace? hx, Node.getD_replace? (hcount x.id), Node.getD_replace? (hcount y.id)]
  exact congrArg some (Node.changeAll_comm hne (fun _ _ => Node.changeAll_of_not_mem hyx)
    (fun _ _ => Node.changeAll_of_not_mem hxy) t)

/-- Two edits that keep out of each other's way. Two insertions have different parents, and neither
has what the other one inserts for its parent. A deletion keeps the root, the new node, its parent
and its siblings. Of two replacements neither puts in the id of the other. -/
inductive Independent (t : Node) : Edit → Edit → Prop where
  | insert_insert {a b p q : NodeId} {k k' : Kind} {i j : Nat} :
      p ≠ q → p ≠ b → q ≠ a → Independent t (insert a k p i) (insert b k' q j)
  | insert_delete {a p d : NodeId} {k : Kind} {i : Nat} :
      d ≠ a → d ≠ p → d ≠ t.id → (∀ m ∈ t.nodes, m.id = p → ∀ c ∈ m.children, c.id ≠ d) →
      Independent t (insert a k p i) (delete d)
  | replace_replace {x y : Node} :
      x.id ∉ y.ids → y.id ∉ x.ids → Independent t (replace x) (replace y)

/-- Two independent edits of a tree with distinct ids lead to the same tree in either order. It is
not asked that an edit finds its place, that an inserted id is new, or that of two nodes that are
replaced neither is below the other. -/
theorem applyAll_swap_of_independent {t : Node} (ht : t.IdsDistinct) {edit edit' : Edit}
    (h : Independent t edit edit') :
    applyAll (some t) [edit, edit'] = applyAll (some t) [edit', edit] := by
  cases h with
  | insert_insert hpq hpb hqa =>
    exact congrArg some (Node.insert_insert_comm ht hpq hpb hqa _ _ _ _)
  | insert_delete hda hdp hroot hsibling =>
    exact Node.delete_insert_comm ht hda hdp hroot hsibling _ _
  | replace_replace hxy hyx => exact apply_replace_comm ht hxy hyx

private def layered : Node :=
  .sequence 0 [] []
    [.choice 1 "kind" [("a", .sequence 2 [] [] [.blank .prompt 3])] (some (.blank .chat 4)),
      .blank .api 5]

theorem applyAll_swap_of_independent_layered : layered.IdsDistinct ∧
    applyAll (some layered) [.insert 8 .api 1 0, .insert 9 .chat 2 7] =
      applyAll (some layered) [.insert 9 .chat 2 7, .insert 8 .api 1 0] ∧
    applyAll (some layered) [.insert 8 .api 2 0, .delete 1] =
      applyAll (some layered) [.delete 1, .insert 8 .api 2 0] ∧
    applyAll (some layered) [.replace (.blank .api 2),
      .replace (.sequence 4 [] [] [.blank .api 4])] = applyAll (some layered)
        [.replace (.sequence 4 [] [] [.blank .api 4]), .replace (.blank .api 2)] := by
  have h : layered.IdsDistinct := by decide
  refine ⟨h, ?_, ?_, ?_⟩
  · exact applyAll_swap_of_independent h (.insert_insert (by decide) (by decide) (by decide))
  · exact applyAll_swap_of_independent h
      (.insert_delete (by decide) (by decide) (by decide) (by decide))
  · exact applyAll_swap_of_independent h (.replace_replace (by decide) (by decide))

end Edit

end PromptChain
