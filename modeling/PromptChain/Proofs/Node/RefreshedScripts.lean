import PromptChain.Node.Script
import PromptChain.Proofs.Node.BranchLabels
import PromptChain.Proofs.Node.Refreshing
import PromptChain.Proofs.Node.Replacement

/-!
# Refreshing between edits

No edit looks at the keys of a sequence: an edit of two chains that agree up to keys gives two
chains that do, and finds its node in both or in neither. So it does not matter when a chain is
refreshed between the edits of a script, as long as it is refreshed in the end.
-/

set_option autoImplicit false

namespace PromptChain

namespace Node

section Change

variable {target : NodeId} {f g : Node → Node}

private theorem ids_unkeyed (t : Node) : t.unkeyed.ids = t.ids := by
  rw [← ids_refresh, refresh_unkeyed, ids_refresh]

private theorem replacesFirst_unkeyed {old new t t' : Node}
    (h : ReplacesFirst target old new t t') :
    ReplacesFirst target old.unkeyed new.unkeyed t.unkeyed t'.unkeyed := by
  induction h with
  | root hid => exact .root (by rw [id_unkeyed, hid])
  | step hroot hbefore _ ih =>
    simp only [unkeyed_sequence, List.map_append, List.map_cons]
    refine .step hroot (List.forall_mem_map.2 fun m hm => ?_) ih
    rw [ids_unkeyed]
    exact hbefore m hm
  | fallback hroot _ ih =>
    simp only [unkeyed_choice, Option.map_some]
    exact .fallback hroot ih
  | branch hroot hfallback hbefore _ ih =>
    simp only [unkeyed_choice, List.map_append, List.map_cons]
    refine .branch hroot (fun m hm => ?_) (List.forall_mem_map.2 fun b hb => ?_) ih
    · obtain ⟨n, hn, rfl⟩ := Option.map_eq_some_iff.1 hm
      rw [ids_unkeyed]
      exact hfallback n hn
    · rw [ids_unkeyed]
      exact hbefore b hb

theorem unkeyed_change (hfg : ∀ n, (f n).unkeyed = g n.unkeyed) (t : Node) :
    (change? target f t).map unkeyed = change? target g t.unkeyed := by
  cases h : change? target f t with
  | none =>
    rw [change?_eq_none_iff, ← ids_unkeyed, ← change?_eq_none_iff (f := g)] at h
    rw [h, Option.map_none]
  | some t' =>
    obtain ⟨m, hreplaced⟩ := change?_eq_some_iff.1 h
    have hunkeyed := replacesFirst_unkeyed hreplaced
    rw [hfg] at hunkeyed
    rw [change?_eq_some_iff.2 ⟨m.unkeyed, hunkeyed⟩, Option.map_some]

end Change

theorem unkeyed_addChild (child : Node) (index : Nat) (n : Node) :
    (addChild child index n).unkeyed = addChild child.unkeyed index n.unkeyed := by
  cases n with
  | leaf l => rfl
  | sequence i ins outs steps => simp [addChild, List.map_take, List.map_drop]
  | choice i key branches fallback =>
    have hlabel : freeLabel branches child.id =
        freeLabel (branches.map fun b => (b.1, b.2.unkeyed)) child.id :=
      freeLabel_congr (by simp [Entries.keys, Function.comp_def]) child.id
    simp [addChild, List.map_take, List.map_drop, ← hlabel]

theorem unkeyed_insert (tree : Option Node) (newId : NodeId) (kind : Kind) (parent : NodeId)
    (index : Nat) : (insert tree newId kind parent index).unkeyed =
      insert (tree.map unkeyed) newId kind parent index := by
  cases tree with
  | none => exact unkeyed_blank kind newId
  | some root =>
    have hadd : ∀ n, (addChild (blank kind newId) index n).unkeyed =
        addChild (blank kind newId) index n.unkeyed := fun n => by
      rw [unkeyed_addChild, unkeyed_blank]
    rw [insert, Option.map_some, insert, ← unkeyed_change hadd]
    cases change? parent (addChild (blank kind newId) index) root <;> rfl

theorem unkeyed_replace (node t : Node) :
    (replace? node t).map unkeyed = replace? node.unkeyed t.unkeyed := by
  rw [replace?, replace?, id_unkeyed]
  exact unkeyed_change (f := fun _ => node) (g := fun _ => node.unkeyed) (fun _ => rfl) t

theorem unkeyed_delete (target : NodeId) (t : Node) :
    (delete target t).map unkeyed = delete target t.unkeyed := by
  induction t with
  | leaf l =>
    rw [unkeyed_leaf, delete]
    split <;> rfl
  | sequence i ins outs steps ih =>
    have hsteps : (deleteInSteps target steps).map unkeyed =
        deleteInSteps target (steps.map unkeyed) := by
      rw [deleteInSteps_eq, deleteInSteps_eq, List.map_filterMap, List.filterMap_map]
      exact List.filterMap_congr ih
    rw [unkeyed_sequence, delete, delete, ← hsteps]
    split
    · rfl
    · rw [Option.map_some, unkeyed_sequence]
  | choice i key branches fallback ihb ihf =>
    have hbranches : (deleteInBranches target branches).map (fun b => (b.1, b.2.unkeyed)) =
        deleteInBranches target (branches.map fun b => (b.1, b.2.unkeyed)) := by
      rw [deleteInBranches_eq, deleteInBranches_eq, List.map_filterMap, List.filterMap_map]
      refine List.filterMap_congr fun b hb => ?_
      simp only [Function.comp_def, ← ihb b hb, Option.map_map]
    have hfallback : (deleteInFallback target fallback).map unkeyed =
        deleteInFallback target (fallback.map unkeyed) := by
      cases fallback with
      | none => rfl
      | some n => exact ihf n rfl
    rw [unkeyed_choice, delete, delete, ← hbranches, ← hfallback]
    split
    · rfl
    · rw [Option.map_some, unkeyed_choice]

end Node

namespace Edit

open Node (SameUpToKeys)

def isRefresh : Edit → Bool
  | refresh => true
  | _ => false

def withoutRefreshes (script : List Edit) : List Edit := script.filter fun edit => !edit.isRefresh

/-- What the edits of a script show, refreshes apart: whether each finds its node, and whether it
leaves a chain. -/
def reports : Option Node → List Edit → List (Bool × Bool)
  | _, [] => []
  | tree, edit :: script =>
    let later := reports (edit.apply tree) script
    if edit.isRefresh then later else (edit.finds tree, (edit.apply tree).isSome) :: later

section SameUpToKeys

variable {a b : Option Node}

private theorem isSome_congr (h : SameUpToKeys a b) : a.isSome = b.isSome := by
  have hsome := congrArg Option.isSome h
  simpa using hsome

private theorem unkeyed_bind_replace (a : Option Node) (node : Node) :
    (a.bind (Node.replace? node)).map Node.unkeyed =
      (a.map Node.unkeyed).bind (Node.replace? node.unkeyed) := by
  cases a with
  | none => rfl
  | some t => exact Node.unkeyed_replace node t

private theorem sameUpToKeys_bind_replace (h : SameUpToKeys a b) (node : Node) :
    SameUpToKeys (a.bind (Node.replace? node)) (b.bind (Node.replace? node)) := by
  rw [SameUpToKeys, unkeyed_bind_replace, unkeyed_bind_replace, h]

theorem finds_congr (h : SameUpToKeys a b) (edit : Edit) : edit.finds a = edit.finds b := by
  cases edit with
  | replace node => exact isSome_congr (sameUpToKeys_bind_replace h node)
  | _ => rfl

theorem sameUpToKeys_apply (h : SameUpToKeys a b) (edit : Edit) :
    SameUpToKeys (edit.apply a) (edit.apply b) := by
  cases edit with
  | insert newId kind parent index =>
    rw [apply, apply, SameUpToKeys, Option.map_some, Option.map_some, Node.unkeyed_insert,
      Node.unkeyed_insert, h]
  | delete id =>
    have hdelete : ∀ c : Option Node, (c.bind (Node.delete id)).map Node.unkeyed =
        (c.map Node.unkeyed).bind (Node.delete id) := by
      intro c
      cases c with
      | none => rfl
      | some t => exact Node.unkeyed_delete id t
    rw [apply, apply, SameUpToKeys, hdelete, hdelete, h]
  | replace node =>
    have hreplaced := sameUpToKeys_bind_replace h node
    rw [apply, apply]
    cases ha : a.bind (Node.replace? node) with
    | none =>
      rw [ha] at hreplaced
      have hb : b.bind (Node.replace? node) = none := Option.map_eq_none_iff.1 hreplaced.symm
      rw [hb]
      exact h
    | some t =>
      obtain ⟨u, hb⟩ : ∃ u, b.bind (Node.replace? node) = some u := by
        rw [← Option.isSome_iff_exists, ← isSome_congr hreplaced, ha, Option.isSome_some]
      rw [ha, hb] at hreplaced
      rw [hb]
      exact hreplaced
  | refresh =>
    have hrefresh := Node.sameUpToKeys_refresh
    rw [apply, apply, SameUpToKeys, hrefresh a, hrefresh b, h]

private theorem sameUpToKeys_apply_refresh (h : SameUpToKeys a b) {edit : Edit}
    (hrefresh : edit.isRefresh = true) : SameUpToKeys a (edit.apply b) := by
  cases edit with
  | refresh => exact h.trans (Node.sameUpToKeys_refresh b).symm
  | _ => contradiction

/-- Two runs of a script, one of them without its refreshes, stay the same up to keys. -/
theorem sameUpToKeys_applyAll (h : SameUpToKeys a b) (script : List Edit) :
    SameUpToKeys (applyAll a (withoutRefreshes script)) (applyAll b script) ∧
      reports a (withoutRefreshes script) = reports b script := by
  induction script generalizing a b with
  | nil => exact ⟨h, rfl⟩
  | cons edit script ih =>
    by_cases hrefresh : edit.isRefresh = true
    · have hskip : withoutRefreshes (edit :: script) = withoutRefreshes script := by
        simp [withoutRefreshes, hrefresh]
      obtain ⟨htrees, hreports⟩ := ih (sameUpToKeys_apply_refresh h hrefresh)
      rw [hskip, applyAll_cons, reports, if_pos hrefresh]
      exact ⟨htrees, hreports⟩
    · have hkeep : withoutRefreshes (edit :: script) = edit :: withoutRefreshes script := by
        simp [withoutRefreshes, hrefresh]
      have hnext := sameUpToKeys_apply h edit
      obtain ⟨htrees, hreports⟩ := ih hnext
      rw [hkeep, applyAll_cons, applyAll_cons, reports, reports, if_neg hrefresh, if_neg hrefresh,
        finds_congr h, isSome_congr hnext, hreports]
      exact ⟨htrees, rfl⟩

end SameUpToKeys

/-- It does not matter when a chain is refreshed between the edits of a script: it is refreshed to
the same chain in the end, and the edits show the same on the way. -/
theorem refresh_applyAll_withoutRefreshes (tree : Option Node) (script : List Edit) :
    (applyAll tree (withoutRefreshes script)).map Node.refresh =
        (applyAll tree script).map Node.refresh ∧
      reports tree (withoutRefreshes script) = reports tree script := by
  obtain ⟨htrees, hreports⟩ := sameUpToKeys_applyAll (a := tree) rfl script
  exact ⟨htrees.map_refresh_eq, hreports⟩

end Edit

end PromptChain
