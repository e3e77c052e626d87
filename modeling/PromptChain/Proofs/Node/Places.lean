import PromptChain.Proofs.Node.ChangedIds

/-!
# Places in a tree

A child stands in a slot of its parent, and a node at a place in a tree: the slots on the way down
to it. `putAt` puts a node at a place. What stands elsewhere stays, but for the nodes on the way,
each of which holds another child in one slot. Where ids are distinct no two places hold nodes with
one id.
-/

set_option autoImplicit false

namespace PromptChain

inductive Slot where
  | step (index : Nat)
  | branch (index : Nat) (label : String)
  | fallback
deriving DecidableEq

/-- Where a node stands in a tree: the slots on the way down to it. -/
abbrev Place := List Slot

namespace Node

def child? : Node → Slot → Option Node
  | sequence _ _ _ steps, .step k => steps[k]?
  | choice _ _ branches _, .branch k label => (branches[k]?.filter (·.1 = label)).map (·.2)
  | choice _ _ _ fallback, .fallback => fallback
  | _, _ => none

def putChild : Node → Slot → Node → Node
  | sequence i ins outs steps, .step k, c => sequence i ins outs (steps.set k c)
  | choice i key branches fallback, .branch k label, c =>
    choice i key (branches.set k (label, c)) fallback
  | choice i key branches _, .fallback, c => choice i key branches (some c)
  | n, _, _ => n

def nodeAt? : Node → Place → Option Node
  | n, [] => some n
  | n, s :: place => (n.child? s).bind fun c => nodeAt? c place

/-- Put a node at a place, instead of what stands there; at a place where nothing stands nothing
changes. -/
def putAt : Node → Place → Node → Node
  | _, [], m => m
  | n, s :: place, m => match n.child? s with
    | some c => n.putChild s (putAt c place m)
    | none => n

def bare : Node → Node
  | leaf l => leaf l
  | sequence i ins outs _ => sequence i ins outs []
  | choice i key _ _ => choice i key [] none

def heads (n : Node) : List Node := n.nodes.map bare

@[simp] theorem id_bare (n : Node) : n.bare.id = n.id := by
  cases n <;> rfl

@[simp] theorem kind_bare (n : Node) : n.bare.kind = n.kind := by
  cases n <;> rfl

theorem heads_eq (n : Node) : n.heads = n.bare :: n.children.flatMap heads := by
  rw [heads, nodes_eq, List.map_cons, List.map_flatMap]
  rfl

@[simp] theorem heads_blank (kind : Kind) (id : NodeId) :
    (blank kind id).heads = [blank kind id] := by
  cases kind <;> rfl

theorem map_id_heads (n : Node) : n.heads.map id = n.ids := by
  rw [heads, List.map_map, ids]
  exact List.map_congr_left fun m _ => id_bare m

section Slots

variable {n c : Node} {s : Slot}

theorem child?_branch_eq_some_iff {i : NodeId} {key label : String}
    {branches : List (String × Node)} {fallback : Option Node} {k : Nat} :
    (choice i key branches fallback).child? (.branch k label) = some c ↔
      branches[k]? = some (label, c) := by
  simp [child?, Option.filter_eq_some_iff]

theorem child?_putChild_self (h : n.child? s = some c) (m : Node) :
    (n.putChild s m).child? s = some m := by
  cases n with
  | leaf l => contradiction
  | sequence i ins outs steps =>
    cases s with
    | step k =>
      obtain ⟨hk, -⟩ := List.getElem?_eq_some_iff.1 h
      exact List.getElem?_set_self hk
    | branch | fallback => contradiction
  | choice i key branches fallback =>
    cases s with
    | step => contradiction
    | branch k label =>
      obtain ⟨hk, -⟩ := List.getElem?_eq_some_iff.1 (child?_branch_eq_some_iff.1 h)
      exact child?_branch_eq_some_iff.2 (List.getElem?_set_self hk)
    | fallback => rfl

theorem child?_putChild_of_ne (h : n.child? s = some c) {s' : Slot} (hs : s' ≠ s) (m : Node) :
    (n.putChild s m).child? s' = n.child? s' := by
  cases n with
  | leaf l => contradiction
  | sequence i ins outs steps =>
    cases s with
    | step k =>
      cases s' with
      | step k' =>
        have hk : k ≠ k' := fun hk => hs (by rw [hk])
        exact List.getElem?_set_ne hk
      | branch | fallback => rfl
    | branch | fallback => contradiction
  | choice i key branches fallback =>
    cases s with
    | step => contradiction
    | branch k label =>
      cases s' with
      | step | fallback => rfl
      | branch k' label' =>
        by_cases hk : k = k'
        · subst hk
          -- One position holds one label, so the other one is missing before and after.
          have hlabel : label ≠ label' := fun hlabel => hs (by rw [hlabel])
          have hbranch := child?_branch_eq_some_iff.1 h
          obtain ⟨hlt, -⟩ := List.getElem?_eq_some_iff.1 hbranch
          simp [putChild, child?, hbranch, List.getElem?_set_self hlt, Option.filter, hlabel]
        · simp [putChild, child?, List.getElem?_set_ne hk]
    | fallback =>
      cases s' with
      | step | branch => rfl
      | fallback => contradiction

@[simp] theorem bare_putChild (n : Node) (s : Slot) (m : Node) :
    (n.putChild s m).bare = n.bare := by
  cases n <;> cases s <;> rfl

theorem exists_children_of_child? (h : n.child? s = some c) :
    ∃ before after, n.children = before ++ c :: after ∧
      ∀ m, (n.putChild s m).children = before ++ m :: after := by
  cases n with
  | leaf l => contradiction
  | sequence i ins outs steps =>
    cases s with
    | step k =>
      obtain ⟨hk, rfl⟩ := List.getElem?_eq_some_iff.1 h
      refine ⟨steps.take k, steps.drop (k + 1), ?_, fun m => ?_⟩
      · rw [← List.drop_eq_getElem_cons hk, List.take_append_drop, children]
      · rw [putChild, children, List.set_eq_take_append_cons_drop, if_pos hk]
    | branch | fallback => contradiction
  | choice i key branches fallback =>
    cases s with
    | step => contradiction
    | branch k label =>
      obtain ⟨hk, hbranch⟩ := List.getElem?_eq_some_iff.1 (child?_branch_eq_some_iff.1 h)
      refine ⟨(branches.take k).map (·.2), (branches.drop (k + 1)).map (·.2) ++ fallback.toList, ?_,
        fun m => ?_⟩
      · have hsplit : branches = branches.take k ++ (label, c) :: branches.drop (k + 1) := by
          rw [← hbranch, ← List.drop_eq_getElem_cons hk, List.take_append_drop]
        rw [children]
        conv_lhs => rw [hsplit]
        simp
      · rw [putChild, children, List.set_eq_take_append_cons_drop, if_pos hk]
        simp
    | fallback =>
      obtain rfl : fallback = some c := h
      exact ⟨branches.map (·.2), [], rfl, fun m => rfl⟩

end Slots

section Places

variable {t old : Node} {place : Place}

theorem nodeAt?_append (t : Node) (place below : Place) :
    t.nodeAt? (place ++ below) = (t.nodeAt? place).bind (·.nodeAt? below) := by
  induction place generalizing t with
  | nil => rfl
  | cons s place ih =>
    rw [List.cons_append, nodeAt?, nodeAt?]
    cases t.child? s with
    | none => rfl
    | some c => exact ih c

theorem nodeAt?_putAt (h : t.nodeAt? place = some old) (m : Node) :
    (t.putAt place m).nodeAt? place = some m := by
  induction place generalizing t with
  | nil => rfl
  | cons s place ih =>
    obtain ⟨c, hc, hplace⟩ := Option.bind_eq_some_iff.1 h
    rw [putAt, hc, nodeAt?, child?_putChild_self hc, Option.bind_some]
    exact ih hplace

theorem nodeAt?_putAt_elsewhere {other : Place} (hbelow : ¬ place <+: other)
    (habove : ¬ other <+: place) (t m : Node) :
    (t.putAt place m).nodeAt? other = t.nodeAt? other := by
  induction place generalizing t other with
  | nil => exact absurd List.nil_prefix hbelow
  | cons s place ih =>
    cases other with
    | nil => exact absurd List.nil_prefix habove
    | cons s' other =>
      rw [putAt]
      cases hc : t.child? s with
      | none => rfl
      | some c =>
        rw [nodeAt?, nodeAt?]
        by_cases hs : s' = s
        · subst hs
          rw [child?_putChild_self hc, hc]
          have hbelow' : ¬ place <+: other := fun h => hbelow (List.cons_prefix_cons.2 ⟨rfl, h⟩)
          have habove' : ¬ other <+: place := fun h => habove (List.cons_prefix_cons.2 ⟨rfl, h⟩)
          exact ih hbelow' habove' c
        · rw [child?_putChild_of_ne hc hs]

theorem nodeAt?_putAt_above {a : Node} (h : t.nodeAt? place = some a) (rest : Place) (m : Node) :
    (t.putAt (place ++ rest) m).nodeAt? place = some (a.putAt rest m) := by
  induction place generalizing t with
  | nil =>
    obtain rfl := Option.some.inj h
    rfl
  | cons s place ih =>
    obtain ⟨c, hc, hplace⟩ := Option.bind_eq_some_iff.1 h
    rw [List.cons_append, putAt, hc, nodeAt?, child?_putChild_self hc, Option.bind_some]
    exact ih hplace

/-- Two trees that differ at one place only: each node above it has another child in the slot on the
way down and is the same otherwise, and all that stands elsewhere is the same. -/
structure DiffersAt (place : Place) (old new t t' : Node) : Prop where
  nodeAt?_old : t.nodeAt? place = some old
  nodeAt?_new : t'.nodeAt? place = some new
  elsewhere : ∀ other, ¬ place <+: other → ¬ other <+: place → t'.nodeAt? other = t.nodeAt? other
  above : ∀ front s rest, place = front ++ s :: rest →
    ∃ a c, t.nodeAt? front = some a ∧ t'.nodeAt? front = some (a.putChild s c)

theorem differsAt_putAt (h : t.nodeAt? place = some old) (m : Node) :
    DiffersAt place old m t (t.putAt place m) where
  nodeAt?_old := h
  nodeAt?_new := nodeAt?_putAt h m
  elsewhere := fun _ hbelow habove => nodeAt?_putAt_elsewhere hbelow habove t m
  above := by
    rintro front s rest rfl
    rw [nodeAt?_append] at h
    obtain ⟨a, ha, hrest⟩ := Option.bind_eq_some_iff.1 h
    obtain ⟨c, hc, -⟩ := Option.bind_eq_some_iff.1 hrest
    refine ⟨a, c.putAt rest m, ha, ?_⟩
    rw [nodeAt?_putAt_above ha, putAt, hc]

/-- Putting a node at a place exchanges the heads of what stood there for its own, between the heads
before and after them. -/
theorem exists_heads_putAt (h : t.nodeAt? place = some old) :
    ∃ before after, t.heads = before ++ old.heads ++ after ∧
      ∀ m, (t.putAt place m).heads = before ++ m.heads ++ after := by
  induction place generalizing t with
  | nil =>
    obtain rfl := Option.some.inj h
    exact ⟨[], [], by simp, fun m => by simp [putAt]⟩
  | cons s place ih =>
    obtain ⟨c, hc, hplace⟩ := Option.bind_eq_some_iff.1 h
    obtain ⟨before, after, hheads, hput⟩ := ih hplace
    obtain ⟨left, right, hchildren, hputChild⟩ := exists_children_of_child? hc
    refine ⟨t.bare :: left.flatMap heads ++ before, after ++ right.flatMap heads, ?_, fun m => ?_⟩
    · rw [heads_eq, hchildren, List.flatMap_append, List.flatMap_cons, hheads]
      simp
    · rw [putAt, hc, heads_eq, hputChild, bare_putChild, List.flatMap_append,
        List.flatMap_cons, hput]
      simp

theorem exists_ids_putAt (h : t.nodeAt? place = some old) :
    ∃ before after, t.ids = before ++ old.ids ++ after ∧
      ∀ m, (t.putAt place m).ids = before ++ m.ids ++ after := by
  obtain ⟨before, after, hheads, hput⟩ := exists_heads_putAt h
  refine ⟨before.map id, after.map id, ?_, fun m => ?_⟩
  · rw [← map_id_heads t, hheads, List.map_append, List.map_append, map_id_heads]
  · rw [← map_id_heads, hput, List.map_append, List.map_append, map_id_heads]

theorem id_mem_ids_of_nodeAt? {n : Node} (h : t.nodeAt? place = some n) : n.id ∈ t.ids := by
  obtain ⟨before, after, hids, -⟩ := exists_ids_putAt h
  rw [hids]
  simp [id_mem_ids]

private theorem id_ne_of_nodeAt?_cons {n : Node} {s : Slot} (hdistinct : t.IdsDistinct)
    (h : t.nodeAt? (s :: place) = some n) : n.id ≠ t.id := by
  obtain ⟨c, hc, hplace⟩ := Option.bind_eq_some_iff.1 h
  obtain ⟨left, right, hchildren, -⟩ := exists_children_of_child? hc
  rw [IdsDistinct, ids_eq, List.nodup_cons, hchildren] at hdistinct
  intro hid
  refine hdistinct.1 (List.mem_flatMap.2 ⟨c, by simp, ?_⟩)
  rw [← hid]
  exact id_mem_ids_of_nodeAt? hplace

private theorem eq_of_below (hdistinct : t.IdsDistinct) {p q : Place} {m n : Node}
    (hp : t.nodeAt? p = some m) (hq : t.nodeAt? q = some n) (hid : n.id = m.id) (hbelow : p <+: q) :
    q = p := by
  obtain ⟨before, after, hids, -⟩ := exists_ids_putAt hp
  rw [IdsDistinct, hids] at hdistinct
  have hm : m.IdsDistinct := (List.nodup_append.1 (List.nodup_append.1 hdistinct).1).2.1
  obtain ⟨rest, rfl⟩ := hbelow
  rw [nodeAt?_append, hp, Option.bind_some] at hq
  cases rest with
  | nil => rw [List.append_nil]
  | cons s rest => exact absurd hid (id_ne_of_nodeAt?_cons hm hq)

/-- Away from a node there is no second one with its id either: it would still be there with the
first one gone. -/
private theorem below_or_above (hdistinct : t.IdsDistinct) {p q : Place} {m n : Node}
    (hp : t.nodeAt? p = some m) (hq : t.nodeAt? q = some n) (hid : n.id = m.id) :
    p <+: q ∨ q <+: p := by
  by_contra haway
  obtain ⟨hbelow, habove⟩ := not_or.1 haway
  obtain ⟨before, after, hids, hput⟩ := exists_ids_putAt hp
  let other : Node := blank .prompt (m.id + 1)
  have hn : n.id ∈ (t.putAt p other).ids := by
    rw [← nodeAt?_putAt_elsewhere hbelow habove t other] at hq
    exact id_mem_ids_of_nodeAt? hq
  have hother : m.id ∉ other.ids := by simp [other]
  have haround : m.id ∈ before ∨ m.id ∈ after := by
    rw [hput, hid, List.append_assoc, List.mem_append, List.mem_append] at hn
    exact hn.imp_right fun h => h.resolve_left hother
  rw [IdsDistinct, hids, List.append_assoc, List.nodup_append', List.nodup_append'] at hdistinct
  obtain ⟨-, ⟨-, -, hafter⟩, hbefore⟩ := hdistinct
  rcases haround with hin | hin
  · exact hbefore hin (List.mem_append_left after m.id_mem_ids)
  · exact hafter m.id_mem_ids hin

theorem place_unique (hdistinct : t.IdsDistinct) {p q : Place} {m n : Node}
    (hp : t.nodeAt? p = some m) (hq : t.nodeAt? q = some n) (hid : n.id = m.id) : q = p := by
  rcases below_or_above hdistinct hp hq hid with hbelow | habove
  · exact eq_of_below hdistinct hp hq hid hbelow
  · exact (eq_of_below hdistinct hq hp hid.symm habove).symm

end Places

end Node

end PromptChain
