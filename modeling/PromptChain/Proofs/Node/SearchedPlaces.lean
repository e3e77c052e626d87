import PromptChain.Proofs.Node.FreshIds
import PromptChain.Proofs.Node.Places
import PromptChain.Proofs.Node.Replacement

/-!
# Where a search ends

A search looks at a node before those below it, and among these at a fallback before the branches.
This orders the places of a tree, and a search and a change at an id both come to the first place
whose node bears it. The order in which nodes are listed is another one, with the fallback last;
where ids are distinct there is only one place to come to, whatever the order.
-/

set_option autoImplicit false

namespace PromptChain

/-- One slot of a node is searched before another: the steps and the branches from the first on, and
a fallback before all branches. -/
inductive Slot.Before : Slot → Slot → Prop where
  | step {j k : Nat} : j < k → Before (.step j) (.step k)
  | branch {j k : Nat} {label label' : String} : j < k → Before (.branch j label) (.branch k label')
  | fallback {k : Nat} {label : String} : Before .fallback (.branch k label)

theorem Slot.Before.asymm {s s' : Slot} (h : s.Before s') : ¬ s'.Before s := by
  intro h'
  cases h with
  | step hlt =>
    cases h' with
    | step hlt' => omega
  | branch hlt =>
    cases h' with
    | branch hlt' => omega
  | fallback => cases h'

/-- One place of a tree is searched before another: a node before those below it, and these slot by
slot. -/
def Place.Before (place other : Place) : Prop := List.Lex Slot.Before place other

namespace Node

/-- Of the nodes that bear an id, `m` at `place` is the first that a search comes to. -/
structure FirstAt (target : NodeId) (t : Node) (place : Place) (m : Node) : Prop where
  nodeAt?_eq : t.nodeAt? place = some m
  id_eq : m.id = target
  first : ∀ other n, t.nodeAt? other = some n → n.id = target →
    other = place ∨ Place.Before place other

section FirstAt

variable {target : NodeId} {t m n : Node} {place other : Place}

theorem FirstAt.place_eq (h : FirstAt target t place m) (h' : FirstAt target t other n) :
    other = place := by
  by_contra hne
  have hbefore := (h.first other n h'.nodeAt?_eq h'.id_eq).resolve_left hne
  have hafter := (h'.first place m h.nodeAt?_eq h.id_eq).resolve_left (Ne.symm hne)
  exact List.lex_asymm Slot.Before.asymm hbefore hafter

theorem FirstAt.mem_ids (h : FirstAt target t place m) : target ∈ t.ids := by
  rw [← h.id_eq]
  exact id_mem_ids_of_nodeAt? h.nodeAt?_eq

theorem firstAt_root (h : t.id = target) : FirstAt target t [] t where
  nodeAt?_eq := rfl
  id_eq := h
  first := fun other n _ _ => by
    cases other with
    | nil => exact .inl rfl
    | cons => exact .inr .nil

theorem FirstAt.below {c : Node} {s : Slot} (h : FirstAt target c place m) (hroot : t.id ≠ target)
    (hchild : t.child? s = some c)
    (hbefore : ∀ s' c', t.child? s' = some c' → target ∈ c'.ids → s' = s ∨ s.Before s') :
    FirstAt target t (s :: place) m where
  nodeAt?_eq := by rw [nodeAt?, hchild, Option.bind_some, h.nodeAt?_eq]
  id_eq := h.id_eq
  first := fun other n hn hid => by
    cases other with
    | nil =>
      obtain rfl := Option.some.inj hn
      exact absurd hid hroot
    | cons s' other =>
      obtain ⟨c', hc', hother⟩ := Option.bind_eq_some_iff.1 hn
      have hmem : target ∈ c'.ids := hid ▸ id_mem_ids_of_nodeAt? hother
      rcases hbefore s' c' hc' hmem with rfl | hs
      · obtain rfl := Option.some.inj (hchild.symm.trans hc')
        rcases h.first other n hother hid with rfl | hlater
        · exact .inl rfl
        · exact .inr (.cons hlater)
      · exact .inr (.rel hs)

end FirstAt

section Changes

variable {target : NodeId} {old new t t' : Node}

private theorem le_of_getElem?_of_bears {α : Type} {before after : List α} {a b : α} {k : Nat}
    {bears : α → Prop} (hbefore : ∀ c ∈ before, ¬ bears c) (h : (before ++ a :: after)[k]? = some b)
    (hb : bears b) : before.length ≤ k := by
  by_contra hlt
  rw [List.getElem?_append_left (Nat.lt_of_not_le hlt)] at h
  exact hbefore b (List.mem_of_getElem? h) hb

/-- A tree in which the first node with an id is replaced has the new node put at the first place
where a node bears it. -/
theorem ReplacesFirst.exists_firstAt (h : ReplacesFirst target old new t t') :
    ∃ place, FirstAt target t place old ∧ t' = t.putAt place new := by
  induction h with
  | root hid => exact ⟨[], firstAt_root hid, rfl⟩
  | @step i ins outs before after n n' hroot hbefore _ ih =>
    obtain ⟨place, hfirst, rfl⟩ := ih
    have hchild : (sequence i ins outs (before ++ n :: after)).child? (.step before.length) =
        some n := by
      simp [child?]
    refine ⟨.step before.length :: place, hfirst.below hroot hchild fun s c hc hmem => ?_, ?_⟩
    · cases s with
      | step k =>
        have hle : before.length ≤ k := le_of_getElem?_of_bears hbefore hc hmem
        rcases Nat.eq_or_lt_of_le hle with rfl | hlt
        · exact .inl rfl
        · exact .inr (.step hlt)
      | branch | fallback => contradiction
    · rw [putAt, hchild]
      simp [putChild]
  | @fallback i key branches n n' hroot _ ih =>
    obtain ⟨place, hfirst, rfl⟩ := ih
    refine ⟨.fallback :: place, hfirst.below hroot rfl fun s c hc _ => ?_, rfl⟩
    cases s with
    | step => contradiction
    | branch k label => exact .inr .fallback
    | fallback => exact .inl rfl
  | @branch i key label before after n n' fallback hroot hfallback hbefore _ ih =>
    obtain ⟨place, hfirst, rfl⟩ := ih
    have hchild : (choice i key (before ++ (label, n) :: after) fallback).child?
        (.branch before.length label) = some n :=
      child?_branch_eq_some_iff.2 (by simp)
    refine ⟨.branch before.length label :: place, hfirst.below hroot hchild fun s c hc hmem => ?_,
      ?_⟩
    · cases s with
      | step => contradiction
      | branch k label' =>
        have hbranch := child?_branch_eq_some_iff.1 hc
        have hle : before.length ≤ k := le_of_getElem?_of_bears hbefore hbranch hmem
        rcases Nat.eq_or_lt_of_le hle with rfl | hlt
        · obtain ⟨rfl, -⟩ : label = label' ∧ n = c := by simpa using hbranch
          exact .inl rfl
        · exact .inr (.branch hlt)
      | fallback => exact absurd hmem (hfallback c hc)
    · rw [putAt, hchild]
      simp [putChild]

theorem ReplacesFirst.mem_ids (h : ReplacesFirst target old new t t') : target ∈ t.ids := by
  obtain ⟨place, hfirst, -⟩ := h.exists_firstAt
  exact hfirst.mem_ids

theorem exists_place_of_replacesFirst (h : ReplacesFirst target old new t t') :
    ∃ place, t.nodeAt? place = some old ∧ t' = t.putAt place new := by
  obtain ⟨place, hfirst, hput⟩ := h.exists_firstAt
  exact ⟨place, hfirst.nodeAt?_eq, hput⟩

theorem ReplacesFirst.exists_rest (h : ReplacesFirst target old new t t') :
    ∃ rest, t.heads.Perm (old.heads ++ rest) ∧ t'.heads.Perm (new.heads ++ rest) := by
  obtain ⟨place, hplace, rfl⟩ := exists_place_of_replacesFirst h
  obtain ⟨before, after, hheads, hput⟩ := exists_heads_putAt hplace
  refine ⟨before ++ after, ?_, ?_⟩
  · rw [hheads, List.append_assoc]
    exact List.perm_append_comm_assoc before old.heads after
  · rw [hput, List.append_assoc]
    exact List.perm_append_comm_assoc before new.heads after

theorem ReplacesFirst.bare_eq (h : ReplacesFirst target old new t t')
    (hroot : t.id = target → new.bare = old.bare) : t'.bare = t.bare := by
  cases h with
  | root hid => exact hroot hid
  | step | fallback | branch => rfl

end Changes

section Searches

variable {target : NodeId} {t m : Node}

theorem exists_firstAt_of_find? (h : find? target t = some m) :
    ∃ place, FirstAt target t place m ∧ ∀ f, change? target f t = some (t.putAt place (f m)) := by
  obtain ⟨t₀, -, hreplaced⟩ := exists_replacesFirst_of_find? h fun n => n
  obtain ⟨place, hfirst, -⟩ := hreplaced.exists_firstAt
  refine ⟨place, hfirst, fun f => ?_⟩
  obtain ⟨t', ht', hchanged⟩ := exists_replacesFirst_of_find? h f
  obtain ⟨other, hother, rfl⟩ := hchanged.exists_firstAt
  rw [ht', hfirst.place_eq hother]

theorem find?_of_firstAt {place : Place} (h : FirstAt target t place m) :
    find? target t = some m := by
  cases hfind : find? target t with
  | none => exact absurd h.mem_ids (find?_eq_none_iff.1 hfind)
  | some n =>
    obtain ⟨other, hother, -⟩ := exists_firstAt_of_find? hfind
    obtain rfl := h.place_eq hother
    rw [← h.nodeAt?_eq, ← hother.nodeAt?_eq]

theorem find?_eq_some_iff_firstAt :
    find? target t = some m ↔ ∃ place, FirstAt target t place m := by
  constructor
  · intro h
    obtain ⟨place, hfirst, -⟩ := exists_firstAt_of_find? h
    exact ⟨place, hfirst⟩
  · rintro ⟨place, hfirst⟩
    exact find?_of_firstAt hfirst

theorem change?_eq_some_iff_firstAt {f : Node → Node} {t' : Node} :
    change? target f t = some t' ↔
      ∃ place m, FirstAt target t place m ∧ t' = t.putAt place (f m) := by
  constructor
  · intro h
    obtain ⟨m, hreplaced⟩ := change?_eq_some_iff.1 h
    obtain ⟨place, hfirst, hput⟩ := hreplaced.exists_firstAt
    exact ⟨place, m, hfirst, hput⟩
  · rintro ⟨place, m, hfirst, rfl⟩
    obtain ⟨other, hother, hchange⟩ := exists_firstAt_of_find? (find?_of_firstAt hfirst)
    rw [hchange f, hfirst.place_eq hother]

theorem exists_find?_iff : (∃ m, find? target t = some m) ↔ target ∈ t.ids := by
  rw [← Option.ne_none_iff_exists', Ne, find?_eq_none_iff, not_not]

end Searches

section Listing

variable {target : NodeId} {t m : Node}

theorem mem_children_iff {n c : Node} : c ∈ n.children ↔ ∃ s, n.child? s = some c := by
  constructor
  · intro h
    cases n with
    | leaf l => contradiction
    | sequence i ins outs steps =>
      obtain ⟨k, hk⟩ := List.mem_iff_getElem?.1 h
      exact ⟨.step k, hk⟩
    | choice i key branches fallback =>
      rcases List.mem_append.1 h with hbranch | hfallback
      · obtain ⟨⟨label, c⟩, hb, rfl⟩ := List.mem_map.1 hbranch
        obtain ⟨k, hk⟩ := List.mem_iff_getElem?.1 hb
        exact ⟨.branch k label, child?_branch_eq_some_iff.2 hk⟩
      · exact ⟨.fallback, Option.mem_toList.1 hfallback⟩
  · rintro ⟨s, hs⟩
    obtain ⟨before, after, hchildren, -⟩ := exists_children_of_child? hs
    rw [hchildren]
    simp

theorem mem_nodes_iff_exists_place : m ∈ t.nodes ↔ ∃ place, t.nodeAt? place = some m := by
  constructor
  · intro h
    induction t using induction_children with
    | step t ih =>
      rcases mem_nodes_iff.1 h with rfl | ⟨c, hc, hm⟩
      · exact ⟨[], rfl⟩
      · obtain ⟨s, hs⟩ := mem_children_iff.1 hc
        obtain ⟨place, hplace⟩ := ih c hc hm
        exact ⟨s :: place, by rw [nodeAt?, hs, Option.bind_some, hplace]⟩
  · rintro ⟨place, h⟩
    induction place generalizing t with
    | nil =>
      obtain rfl := Option.some.inj h
      exact mem_nodes_iff.2 (.inl rfl)
    | cons s place ih =>
      obtain ⟨c, hc, hplace⟩ := Option.bind_eq_some_iff.1 h
      exact mem_nodes_iff.2 (.inr ⟨c, mem_children_iff.2 ⟨s, hc⟩, ih hplace⟩)

theorem filter_nodes_eq_singleton_iff (h : t.IdsDistinct) :
    t.nodes.filter (·.id = target) = [m] ↔ find? target t = some m := by
  rw [find?_eq_some_iff h]
  constructor
  · intro hfilter
    have hmem : m ∈ t.nodes.filter (·.id = target) := by
      rw [hfilter]
      exact List.mem_singleton_self m
    simpa using hmem
  · rintro ⟨hm, rfl⟩
    obtain ⟨before, after, hnodes⟩ := List.append_of_mem hm
    rw [IdsDistinct, ids, hnodes, List.map_append, List.map_cons, List.nodup_append,
      List.nodup_cons] at h
    obtain ⟨-, ⟨hafter, -⟩, hbefore⟩ := h
    refine List.filter_eq_cons_iff.2 ⟨before, after, hnodes, fun n hn hid => ?_, by simp, ?_⟩
    · exact hbefore n.id (List.mem_map_of_mem hn) m.id List.mem_cons_self (by simpa using hid)
    · refine List.filter_eq_nil_iff.2 fun n hn hid => hafter ?_
      rw [← of_decide_eq_true hid]
      exact List.mem_map_of_mem hn

/-- A search comes to a node exactly if the id is listed, and then to the first place, in the order
of the search, where a node bears it; so does a change, and there is only one such place. The nodes
listed are those that stand at the places of the tree. Where ids are distinct, the node that a
search comes to is the only one listed with its id. The ids listed are as many as there are nodes,
that of the root first. -/
theorem walks_agree (t : Node) (target : NodeId) :
    ((∃ m, find? target t = some m) ↔ target ∈ t.ids) ∧
    (∀ m, find? target t = some m ↔ ∃ place, FirstAt target t place m) ∧
    (∀ f t', change? target f t = some t' ↔
      ∃ place m, FirstAt target t place m ∧ t' = t.putAt place (f m)) ∧
    (∀ place m other n, FirstAt target t place m → FirstAt target t other n → other = place) ∧
    (∀ m, m ∈ t.nodes ↔ ∃ place, t.nodeAt? place = some m) ∧
    (t.IdsDistinct → ∀ m, find? target t = some m ↔ t.nodes.filter (·.id = target) = [m]) ∧
    t.ids.length = t.size ∧ t.ids.head? = some t.id := by
  refine ⟨exists_find?_iff, fun m => find?_eq_some_iff_firstAt,
    fun f t' => change?_eq_some_iff_firstAt, fun place m other n h h' => h.place_eq h', fun m =>
    mem_nodes_iff_exists_place, fun h m => (filter_nodes_eq_singleton_iff h).symm, length_ids t, ?_⟩
  rw [ids_eq, List.head?_cons]

end Listing

/-- A choice with a prompt 2 in its branch and another node in its fallback. -/
private def forked (other : NodeId) : Node :=
  .choice 0 "kind" [("a", .sequence 1 [] [] [.blank .prompt 2])]
    (some (.sequence 3 [] [] [.blank .chat other]))

theorem walks_agree_forked :
    (∃ place, FirstAt 2 (forked 2) place (.blank .chat 2) ∧
      change? 2 (fun _ => .blank .api 2) (forked 2) =
        some ((forked 2).putAt place (.blank .api 2))) ∧
    (forked 4).IdsDistinct ∧ (forked 4).nodes.filter (·.id = 2) = [.blank .prompt 2] := by
  obtain ⟨-, hfind, hchange, -⟩ := walks_agree (forked 2) 2
  obtain ⟨-, -, -, -, -, honly, -⟩ := walks_agree (forked 4) 2
  have hdistinct : (forked 4).IdsDistinct := by decide
  obtain ⟨place, hfirst⟩ := (hfind (.blank .chat 2)).1 rfl
  exact ⟨⟨place, hfirst, (hchange _ _).2 ⟨place, _, hfirst, rfl⟩⟩, hdistinct,
    (honly hdistinct _).1 rfl⟩

end Node

end PromptChain
