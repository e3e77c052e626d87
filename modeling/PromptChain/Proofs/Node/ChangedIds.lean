import PromptChain.Node.Ids
import PromptChain.Node.Blank
import PromptChain.Proofs.Node.Induction
import Mathlib.Data.List.Perm.Basic
import Mathlib.Data.List.Flatten
import Mathlib.Data.List.Nodup

/-!
# What a change does to the ids of a tree

A change at an id replaces the ids of the node found there and leaves the others alone. So a tree
keeps distinct ids under exactly those replacements whose ids are distinct and occur nowhere else in
the tree.
-/

set_option autoImplicit false

namespace PromptChain.Node

theorem ids_eq (n : Node) : n.ids = n.id :: n.children.flatMap ids := by
  rw [ids, nodes_eq, List.map_cons, List.map_flatMap]
  rfl

theorem ids_sequence_eq (i : NodeId) (ins outs : List String) (steps : List Node) :
    (sequence i ins outs steps).ids = i :: steps.flatMap ids := ids_eq _

theorem ids_choice_eq (i : NodeId) (key : String) (branches : List (String × Node))
    (fallback : Option Node) : (choice i key branches fallback).ids =
      i :: (branches.flatMap (fun b => b.2.ids) ++ fallback.toList.flatMap ids) := by
  rw [ids_eq, children, List.flatMap_append, List.flatMap_map]
  rfl

theorem not_mem_ids_sequence_iff {x i : NodeId} {ins outs : List String} {steps : List Node} :
    x ∉ (sequence i ins outs steps).ids ↔ i ≠ x ∧ ∀ n ∈ steps, x ∉ n.ids := by
  rw [ids_sequence_eq, List.mem_cons, List.mem_flatMap, not_or, ne_comm]
  simp

theorem not_mem_ids_choice_iff {x i : NodeId} {key : String} {branches : List (String × Node)}
    {fallback : Option Node} : x ∉ (choice i key branches fallback).ids ↔
      i ≠ x ∧ (∀ b ∈ branches, x ∉ b.2.ids) ∧ ∀ n ∈ fallback, x ∉ n.ids := by
  rw [ids_choice_eq, List.mem_cons, List.mem_append, List.mem_flatMap, List.mem_flatMap, not_or,
    not_or, ne_comm]
  simp

@[simp] theorem ids_blank (kind : Kind) (id : NodeId) : (blank kind id).ids = [id] := by
  simp [ids]

/-- Search and change agree on a part of a tree: they come to the same node, if to any, and the
change puts the ids of the new node in the place of the old ones, up to their order. -/
def Replaces {κ : Type} (ids : κ → List NodeId) (part : κ) (found : Option Node)
    (changed : (Node → Node) → Option κ) : Prop :=
  match found with
  | none => ∀ f, changed f = none
  | some m => ∃ rest, (ids part).Perm (m.ids ++ rest) ∧
      ∀ f, ∃ part', changed f = some part' ∧ (ids part').Perm ((f m).ids ++ rest)

section Replaces

variable {κ κ' : Type} {ids : κ → List NodeId} {part : κ}
  {found : Option Node} {changed : (Node → Node) → Option κ} {target : NodeId}

private theorem Replaces.inside (h : Replaces ids part found changed) (ids' : κ' → List NodeId)
    (wrap : κ → κ') (around : List NodeId) (hwrap : ∀ p, (ids' (wrap p)).Perm (ids p ++ around)) :
    Replaces ids' (wrap part) found fun f => (changed f).map wrap := by
  cases found with
  | none =>
    intro f
    simp only [h f, Option.map_none]
  | some m =>
    obtain ⟨rest, hpart, hchanged⟩ := h
    refine ⟨rest ++ around, ?_, fun f => ?_⟩
    · rw [← List.append_assoc]
      exact (hwrap part).trans (hpart.append_right around)
    · obtain ⟨p, hp, hids⟩ := hchanged f
      refine ⟨wrap p, by simp only [hp, Option.map_some], ?_⟩
      rw [← List.append_assoc]
      exact (hwrap p).trans (hids.append_right around)

private theorem replaces_root (n : Node) : Replaces Node.ids n (some n) fun f => some (f n) :=
  ⟨[], by simp, fun f => ⟨f n, rfl, by simp⟩⟩

private theorem replaces_steps (steps : List Node)
    (h : ∀ n ∈ steps, Replaces Node.ids n (find? target n) fun f => change? target f n) :
    Replaces (List.flatMap Node.ids) steps (findInSteps target steps)
      fun f => changeInSteps target f steps := by
  induction steps with
  | nil => exact fun f => rfl
  | cons n ns ih =>
    have hn := h n List.mem_cons_self
    have hns := ih fun m hm => h m (List.mem_cons_of_mem n hm)
    cases hfind : find? target n with
    | none =>
      rw [hfind] at hn
      simp only [findInSteps, hfind, changeInSteps, hn _]
      exact hns.inside _ (n :: ·) n.ids fun p => by simpa using List.perm_append_comm
    | some m =>
      rw [hfind] at hn
      obtain ⟨rest, hids, hchanged⟩ := hn
      simp only [findInSteps, hfind]
      refine ⟨rest ++ ns.flatMap Node.ids, by simpa using hids.append_right _, fun f => ?_⟩
      obtain ⟨n', hn', hids'⟩ := hchanged f
      exact ⟨n' :: ns, by simp only [changeInSteps, hn'], by simpa using hids'.append_right _⟩

private theorem replaces_branches (branches : List (String × Node))
    (h : ∀ b ∈ branches, Replaces Node.ids b.2 (find? target b.2) fun f => change? target f b.2) :
    Replaces (List.flatMap fun b => b.2.ids) branches (findInBranches target branches)
      fun f => changeInBranches target f branches := by
  induction branches with
  | nil => exact fun f => rfl
  | cons b bs ih =>
    obtain ⟨k, n⟩ := b
    have hn : Replaces Node.ids n (find? target n) fun f => change? target f n :=
      h (k, n) List.mem_cons_self
    have hbs := ih fun c hc => h c (List.mem_cons_of_mem _ hc)
    cases hfind : find? target n with
    | none =>
      rw [hfind] at hn
      simp only [findInBranches, hfind, changeInBranches, hn _]
      exact hbs.inside _ ((k, n) :: ·) n.ids fun p => by simpa using List.perm_append_comm
    | some m =>
      rw [hfind] at hn
      obtain ⟨rest, hids, hchanged⟩ := hn
      simp only [findInBranches, hfind]
      refine ⟨rest ++ bs.flatMap fun b => b.2.ids, by simpa using hids.append_right _, fun f => ?_⟩
      obtain ⟨n', hn', hids'⟩ := hchanged f
      exact ⟨(k, n') :: bs, by simp only [changeInBranches, hn'], by
        simpa using hids'.append_right _⟩

private theorem replaces_fallback (fallback : Option Node)
    (h : ∀ n ∈ fallback, Replaces Node.ids n (find? target n) fun f => change? target f n) :
    match fallback with
    | none => findInFallback target fallback = none ∧ ∀ f, changeInFallback target f fallback = none
    | some n => Replaces Node.ids n (findInFallback target fallback)
        fun f => changeInFallback target f fallback := by
  cases fallback with
  | none => exact ⟨rfl, fun f => rfl⟩
  | some n => exact h n rfl

end Replaces

/-- A change at an id replaces the ids of the first node with it, and does nothing if there is
none. -/
theorem replaces_change (target : NodeId) (t : Node) :
    Replaces ids t (find? target t) fun f => change? target f t := by
  induction t with
  | leaf l =>
    by_cases h : l.id = target
    · simpa only [find?, change?, h, if_true] using replaces_root (leaf l)
    · simp only [find?, change?, h, if_false]
      exact fun f => rfl
  | sequence i ins outs steps ih =>
    by_cases h : i = target
    · simpa only [find?, change?, h, if_true] using replaces_root (sequence i ins outs steps)
    · simp only [find?, change?, h, if_false]
      refine (replaces_steps steps ih).inside _ (sequence i ins outs) [i] fun p => ?_
      rw [ids_sequence_eq]
      exact (List.perm_append_singleton i _).symm
  | choice i key branches fallback ihb ihf =>
    by_cases h : i = target
    · simpa only [find?, change?, h, if_true] using replaces_root (choice i key branches fallback)
    · simp only [find?, change?, h, if_false]
      have hb := (replaces_branches branches ihb).inside ids
        (fun bs => choice i key bs fallback) (i :: fallback.toList.flatMap ids) fun p => by
          rw [ids_choice_eq]
          exact List.perm_middle.symm
      have hf := replaces_fallback fallback ihf
      cases fallback with
      | none => simpa only [hf.1, hf.2] using hb
      | some n =>
        cases hfind : findInFallback target (some n) with
        | none =>
          rw [hfind] at hf
          simpa only [hf _] using hb
        | some m =>
          rw [hfind] at hf
          have hin := hf.inside ids (fun n => choice i key branches (some n))
            (i :: branches.flatMap fun b => b.2.ids) fun p => by
              rw [ids_choice_eq]
              simpa using (List.perm_append_comm.cons i).trans List.perm_middle.symm
          obtain ⟨rest, hids, hchanged⟩ := hin
          refine ⟨rest, hids, fun f => ?_⟩
          obtain ⟨t', ht', hids'⟩ := hchanged f
          obtain ⟨n', hn', rfl⟩ := Option.map_eq_some_iff.1 ht'
          exact ⟨_, by simp only [hn'], hids'⟩

theorem exists_ids_of_find? {target : NodeId} {t m : Node} (h : find? target t = some m) :
    ∃ rest, t.ids.Perm (m.ids ++ rest) ∧
      ∀ f, ∃ t', change? target f t = some t' ∧ t'.ids.Perm ((f m).ids ++ rest) := by
  have := replaces_change target t
  rwa [h] at this

theorem mem_ids_of_find? {target x : NodeId} {t m : Node} (h : find? target t = some m)
    (hx : x ∈ m.ids) : x ∈ t.ids := by
  obtain ⟨rest, hids, -⟩ := exists_ids_of_find? h
  exact hids.mem_iff.2 (List.mem_append_left rest hx)

theorem change?_of_find?_eq_none {target : NodeId} {t : Node} (h : find? target t = none)
    (f : Node → Node) : change? target f t = none := by
  have := replaces_change target t
  rw [h] at this
  exact this f

theorem change?_eq_some {target : NodeId} {f : Node → Node} {t t' : Node}
    (h : change? target f t = some t') : ∃ m rest, find? target t = some m ∧
      t.ids.Perm (m.ids ++ rest) ∧ t'.ids.Perm ((f m).ids ++ rest) := by
  cases hfind : find? target t with
  | none => simp [change?_of_find?_eq_none hfind f] at h
  | some m =>
    obtain ⟨rest, hids, hchanged⟩ := exists_ids_of_find? hfind
    obtain ⟨t'', ht'', hids''⟩ := hchanged f
    obtain rfl : t' = t'' := Option.some.inj (h.symm.trans ht'')
    exact ⟨m, rest, rfl, hids, hids''⟩

/-- A tree without the parent of an insertion, or with a leaf for one, refuses the insertion. -/
def Refuses (root : Node) (parent : NodeId) : Prop :=
  ∀ m, find? parent root = some m → m.kind.acceptsChildren = false

theorem not_refuses_iff {root : Node} {parent : NodeId} : ¬ root.Refuses parent ↔
    ∃ m, find? parent root = some m ∧ m.kind.acceptsChildren = true := by
  simp [Refuses]

@[simp] theorem ids_refresh (t : Node) : t.refresh.ids = t.ids := by
  induction t with
  | leaf l => rfl
  | sequence i ins outs steps ih =>
    rw [refresh, ids_sequence_eq, ids_sequence_eq, refreshSteps_eq, List.flatMap_map,
      List.flatMap_congr ih]
  | choice i key branches fallback ihb ihf =>
    have hfallback : (fallback.map refresh).toList.flatMap ids = fallback.toList.flatMap ids := by
      cases fallback with
      | none => rfl
      | some n => simpa using ihf n rfl
    rw [refresh, ids_choice_eq, ids_choice_eq, refreshBranches_eq, refreshFallback_eq,
      List.flatMap_map, List.flatMap_congr ihb, hfallback]

/-- A node can take the place of the node with its id: its ids are distinct, and none of them stands
elsewhere in the tree. -/
def FitsInto (node t : Node) : Prop :=
  ∀ m, find? node.id t = some m → node.IdsDistinct ∧ ∀ j ∈ node.ids, j ∈ t.ids → j ∈ m.ids

theorem idsDistinct_replace_iff {node t t' : Node} (h : t.IdsDistinct)
    (hr : replace? node t = some t') : t'.IdsDistinct ↔ node.FitsInto t := by
  obtain ⟨m, rest, hfind, hids, hids'⟩ := change?_eq_some hr
  have hdist : (m.ids ++ rest).Nodup := hids.nodup_iff.1 h
  have hapart : ∀ j, j ∈ rest → j ∉ m.ids :=
    fun j hj hm => (List.disjoint_of_nodup_append hdist) hm hj
  have hrest : ∀ j, j ∈ rest ↔ j ∈ t.ids ∧ j ∉ m.ids := fun j => by
    rw [hids.mem_iff, List.mem_append]
    have := hapart j
    tauto
  rw [IdsDistinct, hids'.nodup_iff, List.nodup_append', FitsInto]
  constructor
  · rintro ⟨hnode, -, hdisj⟩ m' hm'
    obtain rfl : m = m' := Option.some.inj (hfind.symm.trans hm')
    refine ⟨hnode, fun j hj ht => ?_⟩
    by_contra hjm
    exact hdisj hj ((hrest j).2 ⟨ht, hjm⟩)
  · intro hfits
    obtain ⟨hnode, hout⟩ := hfits m hfind
    refine ⟨hnode, (List.nodup_append'.1 hdist).2.1, fun j hj hjr => ?_⟩
    obtain ⟨ht, hjm⟩ := (hrest j).1 hjr
    exact hjm (hout j hj ht)

end PromptChain.Node
