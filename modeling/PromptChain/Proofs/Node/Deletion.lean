import PromptChain.Proofs.Node.ChangedIds
import Mathlib.Data.List.Forall2

/-!
# What a deletion leaves

A deletion takes away every node that bears the id, at any depth, with all that is below it, and
nothing else. So it leaves a tree without the id as it is, a second deletion finds nothing to take
away, and two deletions can be made in either order.
-/

set_option autoImplicit false

namespace PromptChain.Node

/-- The second tree is the first one without the children that bear an id, at any depth: each node
keeps its fields and, in their order and under their labels, its other children. -/
inductive Without (target : NodeId) : Node → Node → Prop where
  | leaf (l : Leaf) : Without target (leaf l) (leaf l)
  | sequence {i : NodeId} {ins outs : List String} {steps steps' : List Node} :
      List.Forall₂ (Without target) (steps.filter (·.id ≠ target)) steps' →
      Without target (sequence i ins outs steps) (sequence i ins outs steps')
  | choice {i : NodeId} {key : String} {branches branches' : List (String × Node)}
      {fallback fallback' : Option Node} :
      Entries.keys branches' = Entries.keys (branches.filter (·.2.id ≠ target)) →
      List.Forall₂ (Without target) ((branches.filter (·.2.id ≠ target)).map (·.2))
        (branches'.map (·.2)) →
      Option.Rel (Without target) (fallback.filter (·.id ≠ target)) fallback' →
      Without target (choice i key branches fallback) (choice i key branches' fallback')

section Equations

variable {target i : NodeId}

theorem delete_eq_none_iff {t : Node} : delete target t = none ↔ t.id = target := by
  cases t with
  | leaf l => simp [delete, Node.id]
  | sequence i ins outs steps => simp [delete, Node.id]
  | choice i key branches fallback => simp [delete, Node.id]

theorem exists_delete {t : Node} (h : target ≠ t.id) : ∃ t', delete target t = some t' := by
  rw [← Option.ne_none_iff_exists', Ne, delete_eq_none_iff]
  exact Ne.symm h

theorem delete_sequence (h : i ≠ target) (ins outs : List String) (steps : List Node) :
    delete target (sequence i ins outs steps) =
      some (sequence i ins outs (steps.filterMap (delete target))) := by
  rw [delete, if_neg h, deleteInSteps_eq]

theorem delete_choice (h : i ≠ target) (key : String) (branches : List (String × Node))
    (fallback : Option Node) : delete target (choice i key branches fallback) =
      some (choice i key (branches.filterMap fun b => (delete target b.2).map (b.1, ·))
        (fallback.bind (delete target))) := by
  rw [delete, if_neg h, deleteInBranches_eq, deleteInFallback_eq]

theorem id_of_delete {t t' : Node} (h : delete target t = some t') : t'.id = t.id := by
  cases t with
  | leaf l =>
    rw [delete] at h
    split at h
    · contradiction
    · rw [← Option.some.inj h]
  | sequence i ins outs steps =>
    rw [delete] at h
    split at h
    · contradiction
    · rw [← Option.some.inj h, Node.id, Node.id]
  | choice i key branches fallback =>
    rw [delete] at h
    split at h
    · contradiction
    · rw [← Option.some.inj h, Node.id, Node.id]

end Equations

private theorem filterMap_eq_iff {α β : Type} {g : α → Option β} {keep : α → Bool}
    {R : α → β → Prop} {l : List α} {l' : List β} (hdrop : ∀ a ∈ l, g a = none ↔ keep a = false)
    (hkeep : ∀ a ∈ l, keep a = true → ∀ b, g a = some b ↔ R a b) :
    l.filterMap g = l' ↔ List.Forall₂ R (l.filter keep) l' := by
  induction l generalizing l' with
  | nil => simp [eq_comm]
  | cons a l ih =>
    obtain ⟨hdropa, hdrop⟩ := List.forall_mem_cons.1 hdrop
    obtain ⟨hkeepa, hkeep⟩ := List.forall_mem_cons.1 hkeep
    cases ha : keep a with
    | false => rw [List.filterMap_cons_none (hdropa.2 ha), List.filter_cons_of_neg (by simp [ha]),
        ih hdrop hkeep]
    | true =>
      obtain ⟨b, hb⟩ : ∃ b, g a = some b := by
        rw [← Option.ne_none_iff_exists', Ne, hdropa, ha]
        exact Bool.noConfusion
      have hR : ∀ b', R a b' ↔ b = b' := fun b' => by rw [← hkeepa ha, hb, Option.some.injEq]
      rw [List.filterMap_cons_some hb, List.filter_cons_of_pos ha, List.forall₂_cons_left_iff]
      constructor
      · rintro rfl
        exact ⟨b, _, (hR b).2 rfl, (ih hdrop hkeep).1 rfl, rfl⟩
      · rintro ⟨b', l', hb', hl', rfl⟩
        rw [(hR b').1 hb', (ih hdrop hkeep).2 hl']

private theorem forall₂_entries_iff {R : Node → Node → Prop} {es es' : List (String × Node)} :
    List.Forall₂ (fun b b' => b.1 = b'.1 ∧ R b.2 b'.2) es es' ↔
      Entries.keys es' = Entries.keys es ∧ List.Forall₂ R (es.map (·.2)) (es'.map (·.2)) := by
  induction es generalizing es' with
  | nil => cases es' <;> simp [Entries.keys]
  | cons e es ih =>
    cases es' with
    | nil => simp [Entries.keys]
    | cons e' es' =>
      rw [List.forall₂_cons, ih]
      simp only [Entries.keys, List.map_cons, List.cons.injEq, List.forall₂_cons]
      tauto

section Children

variable {target : NodeId}

private theorem filterMap_steps_iff {steps : List Node}
    (h : ∀ n ∈ steps, ∀ n', delete target n = some n' ↔ n.id ≠ target ∧ Without target n n')
    (steps' : List Node) : steps.filterMap (delete target) = steps' ↔
      List.Forall₂ (Without target) (steps.filter (·.id ≠ target)) steps' := by
  refine filterMap_eq_iff (fun n _ => by simp [delete_eq_none_iff]) fun n hn hid n' => ?_
  rw [h n hn]
  exact and_iff_right (by simpa using hid)

private theorem filterMap_branches_iff {branches : List (String × Node)}
    (h : ∀ b ∈ branches, ∀ n', delete target b.2 = some n' ↔ b.2.id ≠ target ∧
      Without target b.2 n')
    (branches' : List (String × Node)) :
    (branches.filterMap fun b => (delete target b.2).map (b.1, ·)) = branches' ↔
      Entries.keys branches' = Entries.keys (branches.filter (·.2.id ≠ target)) ∧
        List.Forall₂ (Without target) ((branches.filter (·.2.id ≠ target)).map (·.2))
          (branches'.map (·.2)) := by
  rw [← forall₂_entries_iff]
  refine filterMap_eq_iff (fun b _ => by simp [delete_eq_none_iff]) fun b hb hid b' => ?_
  have hid : b.2.id ≠ target := by simpa using hid
  rw [Option.map_eq_some_iff]
  constructor
  · rintro ⟨n', hn', rfl⟩
    exact ⟨rfl, ((h b hb n').1 hn').2⟩
  · rintro ⟨hlabel, hw⟩
    exact ⟨b'.2, (h b hb b'.2).2 ⟨hid, hw⟩, by rw [hlabel]⟩

private theorem bind_fallback_iff {fallback : Option Node}
    (h : ∀ n ∈ fallback, ∀ n', delete target n = some n' ↔ n.id ≠ target ∧ Without target n n')
    (fallback' : Option Node) : fallback.bind (delete target) = fallback' ↔
      Option.Rel (Without target) (fallback.filter (·.id ≠ target)) fallback' := by
  cases fallback with
  | none => cases fallback' <;> simp
  | some n =>
    rw [Option.bind_some]
    by_cases hid : n.id = target
    · rw [delete_eq_none_iff.2 hid, Option.filter_some_neg (by simp [hid])]
      cases fallback' <;> simp
    · obtain ⟨m, hm⟩ := exists_delete (Ne.symm hid)
      have hw : ∀ n', m = n' ↔ Without target n n' := by
        intro n'
        rw [← and_iff_right (b := Without target n n') hid, ← h n rfl, hm, Option.some.injEq]
      rw [hm, Option.filter_some_pos (by simp [hid])]
      cases fallback' <;> simp [hw]

end Children

/-- A deletion leaves exactly what the tree is without the children that bear the id. -/
theorem delete_eq_some_iff {target : NodeId} {t t' : Node} :
    delete target t = some t' ↔ t.id ≠ target ∧ Without target t t' := by
  induction t generalizing t' with
  | leaf l =>
    rw [delete, Node.id]
    split
    · next h => simp [h]
    · next h =>
      rw [Option.some.injEq, and_iff_right h]
      constructor
      · rintro rfl
        exact .leaf l
      · intro hw
        cases hw
        rfl
  | sequence i ins outs steps ih =>
    rw [Node.id]
    by_cases h : i = target
    · rw [delete, if_pos h]
      exact iff_of_false (Option.some_ne_none t').symm fun hw => hw.1 h
    · have hsteps := filterMap_steps_iff fun n hn _ => ih n hn
      rw [delete_sequence h, Option.some.injEq, and_iff_right h]
      constructor
      · rintro rfl
        exact .sequence ((hsteps _).1 rfl)
      · intro hw
        cases hw with
        | sequence hw => rw [(hsteps _).2 hw]
  | choice i key branches fallback ihb ihf =>
    rw [Node.id]
    by_cases h : i = target
    · rw [delete, if_pos h]
      exact iff_of_false (Option.some_ne_none t').symm fun hw => hw.1 h
    · have hbranches := filterMap_branches_iff fun b hb _ => ihb b hb
      have hfallback := bind_fallback_iff fun n hn _ => ihf n hn
      rw [delete_choice h, Option.some.injEq, and_iff_right h]
      constructor
      · rintro rfl
        obtain ⟨hlabels, hnodes⟩ := (hbranches _).1 rfl
        exact .choice hlabels hnodes ((hfallback _).1 rfl)
      · intro hw
        cases hw with
        | choice hlabels hnodes hwf => rw [(hbranches _).2 ⟨hlabels, hnodes⟩, (hfallback _).2 hwf]

theorem ids_delete (target : NodeId) (t : Node) :
    ((delete target t).toList.flatMap ids).Sublist t.ids := by
  induction t with
  | leaf l => by_cases h : l.id = target <;> simp [delete, h]
  | sequence i ins outs steps ih =>
    by_cases h : i = target
    · simp [delete, h]
    · have hsteps : ((steps.filterMap (delete target)).flatMap ids).Sublist
          (steps.flatMap ids) := by
        rw [List.filterMap_eq_flatMap_toList, List.flatMap_assoc]
        exact .flatMap_right steps ih
      rw [delete_sequence h, Option.toList_some, List.flatMap_singleton, ids_sequence_eq,
        ids_sequence_eq]
      exact hsteps.cons_cons i
  | choice i key branches fallback ihb ihf =>
    by_cases h : i = target
    · simp [delete, h]
    · have hbranches : ((branches.filterMap fun b => (delete target b.2).map (b.1, ·)).flatMap
          fun b => b.2.ids).Sublist (branches.flatMap fun b => b.2.ids) := by
        rw [List.filterMap_eq_flatMap_toList, List.flatMap_assoc]
        refine .flatMap_right branches fun b hb => ?_
        simpa [Option.toList_map, List.flatMap_map] using ihb b hb
      have hfallback : ((fallback.bind (delete target)).toList.flatMap ids).Sublist
          (fallback.toList.flatMap ids) := by
        cases fallback with
        | none => simp
        | some n => simpa using ihf n rfl
      rw [delete_choice h, Option.toList_some, List.flatMap_singleton, ids_choice_eq, ids_choice_eq]
      exact (hbranches.append hfallback).cons_cons i

theorem idsDistinct_delete {target : NodeId} {t t' : Node} (h : t.IdsDistinct)
    (hd : delete target t = some t') : t'.IdsDistinct := by
  have hsub := ids_delete target t
  rw [hd, Option.toList_some, List.flatMap_singleton] at hsub
  exact hsub.nodup h

theorem not_mem_ids_of_delete {target : NodeId} {t t' : Node} (h : delete target t = some t') :
    target ∉ t'.ids := by
  induction t generalizing t' with
  | leaf l =>
    rw [delete] at h
    split at h
    · contradiction
    · next hid =>
      rw [← Option.some.inj h, ids_leaf, List.mem_singleton]
      exact Ne.symm hid
  | sequence i ins outs steps ih =>
    by_cases hid : i = target
    · rw [delete, if_pos hid] at h
      contradiction
    · rw [delete_sequence hid] at h
      rw [← Option.some.inj h, not_mem_ids_sequence_iff, and_iff_right hid]
      intro n' hn'
      obtain ⟨n, hn, hdelete⟩ := List.mem_filterMap.1 hn'
      exact ih n hn hdelete
  | choice i key branches fallback ihb ihf =>
    by_cases hid : i = target
    · rw [delete, if_pos hid] at h
      contradiction
    · rw [delete_choice hid] at h
      rw [← Option.some.inj h, not_mem_ids_choice_iff, and_iff_right hid]
      refine ⟨fun b' hb' => ?_, fun n' hn' => ?_⟩
      · obtain ⟨b, hb, hdelete⟩ := List.mem_filterMap.1 hb'
        obtain ⟨n', hn', rfl⟩ := Option.map_eq_some_iff.1 hdelete
        exact ihb b hb hn'
      · obtain ⟨n, hn, hdelete⟩ := Option.bind_eq_some_iff.1 hn'
        exact ihf n hn hdelete

section Kept

variable {target : NodeId}

theorem filterMap_steps_eq_self {steps : List Node} (h : ∀ n ∈ steps, delete target n = some n) :
    steps.filterMap (delete target) = steps := by
  rw [List.filterMap_congr h, List.filterMap_some]

theorem filterMap_branches_eq_self {branches : List (String × Node)}
    (h : ∀ b ∈ branches, delete target b.2 = some b.2) :
    (branches.filterMap fun b => (delete target b.2).map (b.1, ·)) = branches := by
  rw [List.filterMap_congr (g := some), List.filterMap_some]
  intro b hb
  rw [h b hb, Option.map_some]

theorem bind_fallback_eq_self {fallback : Option Node}
    (h : ∀ n ∈ fallback, delete target n = some n) : fallback.bind (delete target) = fallback := by
  cases fallback with
  | none => rfl
  | some n => exact h n rfl

theorem delete_of_not_mem {t : Node} (h : target ∉ t.ids) : delete target t = some t := by
  induction t with
  | leaf l =>
    rw [ids_leaf, List.mem_singleton] at h
    rw [delete, if_neg (Ne.symm h)]
  | sequence i ins outs steps ih =>
    obtain ⟨hid, hsteps⟩ := not_mem_ids_sequence_iff.1 h
    rw [delete_sequence hid, filterMap_steps_eq_self fun n hn => ih n hn (hsteps n hn)]
  | choice i key branches fallback ihb ihf =>
    obtain ⟨hid, hbranches, hfallback⟩ := not_mem_ids_choice_iff.1 h
    rw [delete_choice hid, filterMap_branches_eq_self fun b hb => ihb b hb (hbranches b hb),
      bind_fallback_eq_self fun n hn => ihf n hn (hfallback n hn)]

end Kept

theorem delete_delete_self (target : NodeId) (t : Node) :
    (delete target t).bind (delete target) = delete target t := by
  cases h : delete target t with
  | none => rfl
  | some t' => exact delete_of_not_mem (not_mem_ids_of_delete h)

private theorem delete_delete_comm_of_root {a b : NodeId} {t : Node} (h : t.id = a ∨ t.id = b) :
    (delete a t).bind (delete b) = (delete b t).bind (delete a) := by
  have hgone : ∀ x y, t.id = y → (delete x t).bind (delete y) = none := by
    intro x y hy
    rw [Option.bind_eq_none_iff]
    intro t' ht'
    rw [delete_eq_none_iff, id_of_delete ht', hy]
  rcases h with ha | hb
  · rw [hgone b a ha, delete_eq_none_iff.2 ha, Option.bind_none]
  · rw [hgone a b hb, delete_eq_none_iff.2 hb, Option.bind_none]

theorem delete_delete_comm (a b : NodeId) (t : Node) :
    (delete a t).bind (delete b) = (delete b t).bind (delete a) := by
  induction t with
  | leaf l =>
    by_cases hroot : l.id = a ∨ l.id = b
    · exact delete_delete_comm_of_root hroot
    · obtain ⟨ha, hb⟩ := not_or.1 hroot
      simp [delete, ha, hb]
  | sequence i ins outs steps ih =>
    by_cases hroot : i = a ∨ i = b
    · exact delete_delete_comm_of_root hroot
    · obtain ⟨ha, hb⟩ := not_or.1 hroot
      rw [delete_sequence ha, delete_sequence hb, Option.bind_some, Option.bind_some,
        delete_sequence ha, delete_sequence hb, List.filterMap_filterMap, List.filterMap_filterMap,
        List.filterMap_congr ih]
  | choice i key branches fallback ihb ihf =>
    by_cases hroot : i = a ∨ i = b
    · exact delete_delete_comm_of_root hroot
    · obtain ⟨ha, hb⟩ := not_or.1 hroot
      have hbranches : (branches.filterMap fun e => ((delete a e.2).map (e.1, ·)).bind
            fun e' => (delete b e'.2).map (e'.1, ·)) =
          branches.filterMap fun e => ((delete b e.2).map (e.1, ·)).bind
            fun e' => (delete a e'.2).map (e'.1, ·) := by
        refine List.filterMap_congr fun e he => ?_
        have hmap := congrArg (Option.map (e.1, ·)) (ihb e he)
        simpa only [Option.map_bind, Option.bind_map, Function.comp_def] using hmap
      have hfallback : (fallback.bind (delete a)).bind (delete b) =
          (fallback.bind (delete b)).bind (delete a) := by
        cases fallback with
        | none => rfl
        | some n => exact ihf n rfl
      rw [delete_choice ha, delete_choice hb, Option.bind_some, Option.bind_some, delete_choice ha,
        delete_choice hb, List.filterMap_filterMap, List.filterMap_filterMap, hbranches, hfallback]

/-- A deletion leaves nothing exactly if the root bears the id. Otherwise it leaves the tree without
the children that bear it, at any depth, so that no node bears it any more, and a tree without the
id as it is. To delete an id again changes nothing, and two ids can be deleted in either order. -/
theorem delete_leaves_rest (t : Node) (target : NodeId) :
    (delete target t = none ↔ t.id = target) ∧
    (∀ t', delete target t = some t' ↔ t.id ≠ target ∧ Without target t t') ∧
    (∀ t', delete target t = some t' → target ∉ t'.ids) ∧
    (target ∉ t.ids → delete target t = some t) ∧
    (delete target t).bind (delete target) = delete target t ∧
    ∀ other, (delete target t).bind (delete other) = (delete other t).bind (delete target) :=
  ⟨delete_eq_none_iff, fun _ => delete_eq_some_iff, fun _ => not_mem_ids_of_delete,
    delete_of_not_mem, delete_delete_self target t, fun other => delete_delete_comm target other t⟩

/-- A choice in which an id occurs in a branch, in a sequence and as the fallback. -/
private def repeating : Node :=
  .choice 0 "kind"
    [("a", .blank .prompt 1), ("b", .sequence 2 [] [] [.blank .chat 1, .blank .api 3])]
    (some (.blank .prompt 1))

theorem delete_leaves_rest_repeating :
    delete 1 repeating = some (.choice 0 "kind" [("b", .sequence 2 [] [] [.blank .api 3])] none) ∧
    delete 4 repeating = some repeating := by
  obtain ⟨-, hleft, -, -, -, -⟩ := delete_leaves_rest repeating 1
  obtain ⟨-, -, -, hmissing, -, -⟩ := delete_leaves_rest repeating 4
  refine ⟨(hleft _).2 ⟨by decide, ?_⟩, hmissing (by decide)⟩
  have hsequence : Without 1 (.sequence 2 [] [] [.blank .chat 1, .blank .api 3])
      (.sequence 2 [] [] [.blank .api 3]) :=
    .sequence (.cons (.leaf _) .nil)
  exact .choice rfl (.cons hsequence .nil) .none

end PromptChain.Node
