import PromptChain.Proofs.Node.BranchLabels
import PromptChain.Proofs.Node.Document
import PromptChain.Proofs.Node.Replacement
import PromptChain.Proofs.Entries

/-!
# Edits keep the maps of a tree in order

No edit makes a map name a key twice: branches keep their labels, and a new branch gets one that is
free.
-/

set_option autoImplicit false

namespace PromptChain.Node

theorem proper_sequence_iff (i : NodeId) (ins outs : List String) (steps : List Node) :
    (sequence i ins outs steps).Proper ↔ ∀ n ∈ steps, n.Proper :=
  ⟨fun h => by cases h; assumption, .sequence⟩

theorem proper_choice_iff (i : NodeId) (key : String) (branches : List (String × Node))
    (fallback : Option Node) : (choice i key branches fallback).Proper ↔
      Entries.Distinct branches ∧ (∀ b ∈ branches, b.2.Proper) ∧ ∀ n ∈ fallback, n.Proper :=
  ⟨fun h => by cases h; exact ⟨‹_›, ‹_›, ‹_›⟩, fun h => .choice h.1 h.2.1 h.2.2⟩

theorem proper_blank (kind : Kind) (id : NodeId) : (blank kind id).Proper := by
  cases kind with
  | sequence => exact .sequence nofun
  | choice => exact .choice List.nodup_nil nofun nofun
  | api =>
    refine .leaf fun headers hheaders => ?_
    obtain rfl := Option.some.inj hheaders
    exact List.nodup_nil
  | vectorSearch => exact .leaf ⟨⟨List.nodup_nil, nofun⟩, List.nodup_nil, nofun⟩
  | reformat => exact .leaf List.nodup_nil
  | prompt => exact .leaf trivial
  | chat => exact .leaf trivial
  | transform => exact .leaf trivial

theorem proper_refresh {t : Node} (h : t.Proper) : t.refresh.Proper := by
  induction t with
  | leaf l => exact h
  | sequence i ins outs steps ih =>
    rw [proper_sequence_iff] at h
    rw [refresh, proper_sequence_iff, refreshSteps_eq]
    intro n hn
    obtain ⟨m, hm, rfl⟩ := List.mem_map.1 hn
    exact ih m hm (h m hm)
  | choice i key branches fallback ihb ihf =>
    obtain ⟨hkeys, hb, hf⟩ := (proper_choice_iff i key branches fallback).1 h
    rw [refresh, proper_choice_iff, refreshBranches_eq, refreshFallback_eq,
      Entries.distinct_map_iff]
    refine ⟨hkeys, fun b hmem => ?_, fun n hn => ?_⟩
    · obtain ⟨c, hc, rfl⟩ := List.mem_map.1 hmem
      exact ihb c hc (hb c hc)
    · obtain ⟨m, hm, rfl⟩ := Option.map_eq_some_iff.1 hn
      exact ihf m hm (hf m hm)

section Change

variable {target : NodeId} {f : Node → Node}

private theorem proper_of_replacesFirst {old new t t' : Node}
    (h : ReplacesFirst target old new t t') (ht : t.Proper)
    (hnew : old.Proper → new.Proper) : t'.Proper := by
  induction h with
  | root => exact hnew ht
  | step _ _ _ ih =>
    rw [proper_sequence_iff, List.forall_mem_append, List.forall_mem_cons] at ht ⊢
    obtain ⟨hbefore, hn, hafter⟩ := ht
    exact ⟨hbefore, ih hn, hafter⟩
  | fallback _ _ ih =>
    obtain ⟨hkeys, hb, hf⟩ := (proper_choice_iff _ _ _ _).1 ht
    refine .choice hkeys hb fun n hn => ?_
    obtain rfl := Option.some.inj hn
    exact ih (hf _ rfl)
  | @branch i key label before after n n' fallback _ _ _ _ ih =>
    obtain ⟨hkeys, hb, hf⟩ := (proper_choice_iff _ _ _ _).1 ht
    have hsame : Entries.keys (before ++ (label, n') :: after) =
        Entries.keys (before ++ (label, n) :: after) := by
      simp [Entries.keys]
    rw [List.forall_mem_append, List.forall_mem_cons] at hb
    obtain ⟨hbefore, hn, hafter⟩ := hb
    refine .choice (by rwa [Entries.Distinct, hsame]) ?_ hf
    rw [List.forall_mem_append, List.forall_mem_cons]
    exact ⟨hbefore, ih hn, hafter⟩

theorem proper_change {t t' : Node} (ht : t.Proper) (hf : ∀ n, n.Proper → (f n).Proper)
    (h : change? target f t = some t') : t'.Proper := by
  obtain ⟨m, hreplaced⟩ := change?_eq_some_iff.1 h
  exact proper_of_replacesFirst hreplaced ht (hf m)

end Change

theorem proper_replace {node t t' : Node} (ht : t.Proper) (hnode : node.Proper)
    (h : replace? node t = some t') : t'.Proper :=
  proper_change ht (fun _ _ => hnode) h

private theorem perm_splice {α : Type} (a : α) (l : List α) (index : Nat) :
    (l.take index ++ a :: l.drop index).Perm (a :: l) :=
  List.perm_middle.trans (.of_eq (by rw [List.take_append_drop]))

theorem proper_addChild {child m : Node} (hchild : child.Proper) (hm : m.Proper) (index : Nat) :
    (addChild child index m).Proper := by
  cases m with
  | leaf l => exact hm
  | sequence i ins outs steps =>
    rw [proper_sequence_iff] at hm
    rw [addChild, proper_sequence_iff]
    intro n hn
    rcases List.mem_append.1 hn with hn | hn
    · exact hm n (List.mem_of_mem_take hn)
    · rcases List.mem_cons.1 hn with rfl | hn
      · exact hchild
      · exact hm n (List.mem_of_mem_drop hn)
  | choice i key branches fallback =>
    obtain ⟨hkeys, hb, hf⟩ := (proper_choice_iff i key branches fallback).1 hm
    have hlabel := freeLabel_not_mem_keys branches child.id
    have hspliced := perm_splice (freeLabel branches child.id, child) branches index
    refine .choice ?_ (fun b hmem => ?_) hf
    · exact ((hspliced.map _).nodup_iff).2 (List.nodup_cons.2 ⟨hlabel, hkeys⟩)
    · rcases List.mem_cons.1 (hspliced.mem_iff.1 hmem) with rfl | hmem
      · exact hchild
      · exact hb b hmem

theorem proper_insert {tree : Option Node} (h : ∀ t ∈ tree, t.Proper) (newId : NodeId) (kind : Kind)
    (parent : NodeId) (index : Nat) : (insert tree newId kind parent index).Proper := by
  cases tree with
  | none => exact proper_blank kind newId
  | some root =>
    have hroot := h root rfl
    rw [insert]
    cases hchange : change? parent (addChild (blank kind newId) index) root with
    | none => exact hroot
    | some t =>
      have hadd : ∀ m : Node, m.Proper → (addChild (blank kind newId) index m).Proper :=
        fun m hm => proper_addChild (proper_blank kind newId) hm index
      exact proper_change hroot hadd hchange

private theorem keys_deleteInBranches (target : NodeId) (branches : List (String × Node)) :
    (Entries.keys (deleteInBranches target branches)).Sublist (Entries.keys branches) := by
  induction branches with
  | nil => exact .slnil
  | cons b bs ih =>
    rw [deleteInBranches]
    cases delete target b.2 with
    | none => exact ih.cons b.1
    | some n => exact ih.cons_cons b.1

theorem proper_delete {target : NodeId} {t t' : Node} (ht : t.Proper)
    (h : delete target t = some t') : t'.Proper := by
  induction t generalizing t' with
  | leaf l =>
    rw [delete] at h
    split at h
    · contradiction
    · exact Option.some.inj h ▸ ht
  | sequence i ins outs steps ih =>
    rw [delete] at h
    split at h
    · contradiction
    · obtain rfl := Option.some.inj h
      rw [proper_sequence_iff] at ht ⊢
      intro m hm
      rw [deleteInSteps_eq] at hm
      obtain ⟨n, hn, hdelete⟩ := List.mem_filterMap.1 hm
      exact ih n hn (ht n hn) hdelete
  | choice i key branches fallback ihb ihf =>
    rw [delete] at h
    split at h
    · contradiction
    · obtain rfl := Option.some.inj h
      obtain ⟨hkeys, hb, hf⟩ := (proper_choice_iff i key branches fallback).1 ht
      refine .choice ?_ (fun b hmem => ?_) fun n hn => ?_
      · exact (keys_deleteInBranches target branches).nodup hkeys
      · rw [deleteInBranches_eq] at hmem
        obtain ⟨c, hc, hdelete⟩ := List.mem_filterMap.1 hmem
        obtain ⟨m, hm, rfl⟩ := Option.map_eq_some_iff.1 hdelete
        exact ihb c hc (hb c hc) hm
      · rw [deleteInFallback_eq] at hn
        obtain ⟨m, hm, hdelete⟩ := Option.bind_eq_some_iff.1 hn
        exact ihf m hm (hf m hm) hdelete

end PromptChain.Node
