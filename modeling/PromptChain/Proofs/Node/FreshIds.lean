import PromptChain.Node.Ids
import Mathlib.Data.List.Basic

/-!
# Fresh ids and repeated ids

The check of the ids of a tree passes exactly when they are distinct. An id that is given out is the
least one, from where the count stands, that is greater than every id of the tree.
-/

set_option autoImplicit false

namespace PromptChain.Node

instance (n : Node) : Decidable n.IdsDistinct := inferInstanceAs (Decidable n.ids.Nodup)

theorem firstRepeated?_eq_none_iff (seen l : List NodeId) :
    firstRepeated? seen l = none ↔ l.Nodup ∧ ∀ i ∈ l, i ∉ seen := by
  induction l generalizing seen with
  | nil => simp [firstRepeated?]
  | cons i is ih =>
    by_cases h : i ∈ seen
    · simp [firstRepeated?, h]
    · rw [firstRepeated?, if_neg h, ih, List.nodup_cons, List.forall_mem_cons]
      constructor
      · rintro ⟨hnodup, hseen⟩
        refine ⟨⟨fun hi => hseen i hi List.mem_cons_self, hnodup⟩, h, fun j hj hjs => ?_⟩
        exact hseen j hj (List.mem_cons_of_mem i hjs)
      · rintro ⟨⟨hi, hnodup⟩, -, hseen⟩
        refine ⟨hnodup, fun j hj hjs => ?_⟩
        rcases List.mem_cons.1 hjs with rfl | hjs
        · exact hi hj
        · exact hseen j hj hjs

theorem exists_of_firstRepeated? {seen l : List NodeId} {i : NodeId}
    (h : firstRepeated? seen l = some i) :
    ∃ before after, l = before ++ i :: after ∧ before.Nodup ∧ (∀ j ∈ before, j ∉ seen) ∧
      (i ∈ before ∨ i ∈ seen) := by
  induction l generalizing seen with
  | nil => contradiction
  | cons j l ih =>
    rw [firstRepeated?] at h
    split at h
    · next hj =>
      obtain rfl := Option.some.inj h
      exact ⟨[], l, rfl, .nil, nofun, .inr hj⟩
    · next hj =>
      -- The head has been seen by the rest, so it is not repeated before what the rest comes to.
      obtain ⟨before, after, rfl, hnodup, hseen, hi⟩ := ih h
      have hbefore : j ∉ before := fun hmem => hseen j hmem List.mem_cons_self
      refine ⟨j :: before, after, rfl, List.nodup_cons.2 ⟨hbefore, hnodup⟩,
        List.forall_mem_cons.2 ⟨hj, fun k hk hks => hseen k hk (List.mem_cons_of_mem j hks)⟩, ?_⟩
      rcases hi with hi | hi
      · exact .inl (List.mem_cons_of_mem j hi)
      · rcases List.mem_cons.1 hi with rfl | hi
        · exact .inl List.mem_cons_self
        · exact .inr hi

theorem firstRepeated?_eq_some_iff {seen l : List NodeId} {i : NodeId} :
    firstRepeated? seen l = some i ↔
      ∃ before after, l = before ++ i :: after ∧ before.Nodup ∧ (∀ j ∈ before, j ∉ seen) ∧
        (i ∈ before ∨ i ∈ seen) := by
  refine ⟨exists_of_firstRepeated?, ?_⟩
  rintro ⟨before, after, rfl, hnodup, hnew, hi⟩
  induction before generalizing seen with
  | nil =>
    have hseen : i ∈ seen := hi.resolve_left nofun
    rw [List.nil_append, firstRepeated?, if_pos hseen]
  | cons j before ih =>
    obtain ⟨hj, hnodup⟩ := List.nodup_cons.1 hnodup
    obtain ⟨hjs, hnew⟩ := List.forall_mem_cons.1 hnew
    rw [List.cons_append, firstRepeated?, if_neg hjs]
    refine ih hnodup (fun k hk hks => ?_) ?_
    · rcases List.mem_cons.1 hks with rfl | hks
      · exact hj hk
      · exact hnew k hk hks
    · rcases hi with hi | hi
      · rcases List.mem_cons.1 hi with rfl | hi
        · exact .inr List.mem_cons_self
        · exact .inl hi
      · exact .inr (List.mem_cons_of_mem j hi)

theorem checkIds_eq_ok_iff (n : Node) : n.checkIds = .ok () ↔ n.IdsDistinct := by
  have h : n.duplicateId? = none ↔ n.IdsDistinct := by
    simp [duplicateId?, firstRepeated?_eq_none_iff, IdsDistinct]
  rw [← h, checkIds]
  cases n.duplicateId? <;> simp

theorem exists_of_not_idsDistinct {n : Node} (h : ¬ n.IdsDistinct) :
    ∃ before i after, n.ids = before ++ i :: after ∧ before.Nodup ∧ i ∈ before ∧
      n.checkIds = .error (.duplicateId i) := by
  cases hi : n.duplicateId? with
  | none =>
    rw [← checkIds_eq_ok_iff, checkIds, hi] at h
    exact absurd rfl h
  | some i =>
    obtain ⟨before, after, hids, hnodup, -, hrepeated⟩ := exists_of_firstRepeated? hi
    have hbefore : i ∈ before := hrepeated.resolve_right nofun
    exact ⟨before, i, after, hids, hnodup, hbefore, by rw [checkIds, hi]⟩

/-- The check complains about one thing only: an id that a node bears although an earlier one does,
the nodes before it having different ids. -/
theorem checkIds_eq_error_iff {n : Node} {cause : Fault} : n.checkIds = .error cause ↔
    ∃ before i after, cause = .duplicateId i ∧ n.ids = before ++ i :: after ∧ before.Nodup ∧
      i ∈ before := by
  constructor
  · intro h
    have hids : ¬ n.IdsDistinct := fun hdistinct => by
      rw [(checkIds_eq_ok_iff n).2 hdistinct] at h
      contradiction
    obtain ⟨before, i, after, hsplit, hnodup, hi, hcheck⟩ := exists_of_not_idsDistinct hids
    exact ⟨before, i, after, Except.error.inj (h.symm.trans hcheck), hsplit, hnodup, hi⟩
  · rintro ⟨before, i, after, rfl, hsplit, hnodup, hi⟩
    have hfirst : n.duplicateId? = some i :=
      firstRepeated?_eq_some_iff.2 ⟨before, after, hsplit, hnodup, nofun, .inl hi⟩
    rw [checkIds, hfirst]

private theorem max_eq (i j : NodeId) : max i j = if i ≤ j then j else i := rfl

theorem max_zero (i : NodeId) : max 0 i = i := by
  rw [max_eq, if_pos (UInt64.le_iff_toNat_le.2 (Nat.zero_le _))]

theorem max_self (i : NodeId) : max i i = i := by
  rw [max_eq]
  split <;> rfl

private theorem toNat_max (i j : NodeId) : (max i j).toNat = max i.toNat j.toNat := by
  rw [max_eq]
  split <;> rw [UInt64.le_iff_toNat_le] at * <;> omega

private theorem toNat_le_foldl_max (l : List NodeId) (m : NodeId) :
    m.toNat ≤ (l.foldl max m).toNat ∧ ∀ i ∈ l, i.toNat ≤ (l.foldl max m).toNat := by
  induction l generalizing m with
  | nil => simp
  | cons j l ih =>
    obtain ⟨hm, hl⟩ := ih (max m j)
    rw [toNat_max] at hm
    rw [List.foldl_cons, List.forall_mem_cons]
    exact ⟨by omega, by omega, hl⟩

private theorem foldl_max_mem (l : List NodeId) (m : NodeId) : l.foldl max m ∈ m :: l := by
  induction l generalizing m with
  | nil => exact List.mem_cons_self
  | cons j l ih =>
    rw [List.foldl_cons]
    rcases List.mem_cons.1 (ih (max m j)) with hmax | hl
    · rw [hmax, max_eq]
      split <;> simp
    · exact List.mem_cons_of_mem m (List.mem_cons_of_mem j hl)

theorem maxId_mem_ids (n : Node) : n.maxId ∈ n.ids := by
  rcases List.mem_cons.1 (foldl_max_mem n.ids n.id) with hroot | hids
  · rw [maxId, hroot]
    exact id_mem_ids n
  · exact hids

theorem toNat_le_maxId {n : Node} {i : NodeId} (h : i ∈ n.ids) : i.toNat ≤ n.maxId.toNat :=
  (toNat_le_foldl_max n.ids n.id).2 i h

theorem maxId_eq_greatestId_iff (n : Node) : n.maxId = greatestId ↔ greatestId ∈ n.ids := by
  constructor
  · intro h
    rw [← h]
    exact maxId_mem_ids n
  · intro h
    have hle := toNat_le_maxId h
    have hlt := n.maxId.toNat_lt
    have hlast : greatestId.toNat = 2 ^ 64 - 1 := rfl
    exact UInt64.toNat.inj (by omega)

theorem nextId_eq_ok_iff {root : Node} {floor newId : NodeId} :
    nextId (some root) floor = .ok newId ↔ greatestId ∉ root.ids ∧
    newId = max floor (root.maxId + 1) := by
  rw [nextId, ← maxId_eq_greatestId_iff]
  split
  · next hmax => simp [hmax]
  · next hmax => simp [hmax, eq_comm]

theorem nextId_eq_error_iff {tree : Option Node} {floor : NodeId} {cause : Fault} :
    nextId tree floor = .error cause ↔
      cause = .idsExhausted greatestId ∧ ∃ t ∈ tree, greatestId ∈ t.ids := by
  cases tree with
  | none => simp [nextId]
  | some root =>
    rw [nextId]
    split
    · next hmax => simp [hmax, ← maxId_eq_greatestId_iff, eq_comm]
    · next hmax => simp [hmax, ← maxId_eq_greatestId_iff]

private theorem toNat_maxId_add_one {root : Node} (hfree : greatestId ∉ root.ids) :
    (root.maxId + 1).toNat = root.maxId.toNat + 1 := by
  have hbound := root.maxId.toNat_lt
  have hlast : root.maxId.toNat ≠ 2 ^ 64 - 1 := fun he =>
    hfree (root.maxId_eq_greatestId_iff.1 (UInt64.toNat.inj he))
  rw [UInt64.toNat_add, UInt64.toNat_one, Nat.mod_eq_of_lt (by omega)]

theorem toNat_lt_of_nextId {root : Node} {floor newId : NodeId}
    (h : nextId (some root) floor = .ok newId) {i : NodeId} (hi : i ∈ root.ids) :
    i.toNat < newId.toNat := by
  obtain ⟨hfree, rfl⟩ := nextId_eq_ok_iff.1 h
  have hle := toNat_le_maxId hi
  rw [toNat_max, toNat_maxId_add_one hfree]
  omega

theorem le_of_nextId {tree : Option Node} {floor newId : NodeId}
    (h : nextId tree floor = .ok newId) : floor ≤ newId := by
  cases tree with
  | none => exact UInt64.le_of_eq (Except.ok.inj h)
  | some root =>
    obtain ⟨-, rfl⟩ := nextId_eq_ok_iff.1 h
    rw [UInt64.le_iff_toNat_le, toNat_max]
    exact Nat.le_max_left _ _

/-- The least id that is at least `floor` and greater than all ids of the tree, if there is a
tree. -/
structure IsNextId (tree : Option Node) (floor newId : NodeId) : Prop where
  floor_le : floor ≤ newId
  above : ∀ t ∈ tree, ∀ i ∈ t.ids, i < newId
  least : ∀ j, floor ≤ j → (∀ t ∈ tree, ∀ i ∈ t.ids, i < j) → newId ≤ j

theorem isNextId_of_nextId {tree : Option Node} {floor newId : NodeId}
    (h : nextId tree floor = .ok newId) : IsNextId tree floor newId := by
  refine ⟨le_of_nextId h, ?_, fun j hfloor habove => ?_⟩
  · rintro root rfl i hi
    exact UInt64.lt_iff_toNat_lt.2 (toNat_lt_of_nextId h hi)
  · cases tree with
    | none =>
      obtain rfl : floor = newId := Except.ok.inj h
      exact hfloor
    | some root =>
      obtain ⟨hfree, rfl⟩ := nextId_eq_ok_iff.1 h
      have hmax := habove root rfl _ (maxId_mem_ids root)
      rw [UInt64.lt_iff_toNat_lt] at hmax
      rw [UInt64.le_iff_toNat_le] at hfloor ⊢
      rw [toNat_max, toNat_maxId_add_one hfree]
      omega

theorem IsNextId.not_mem_ids {tree : Option Node} {floor newId : NodeId}
    (h : IsNextId tree floor newId)
    {t : Node} (ht : t ∈ tree) :
    newId ∉ t.ids := fun hmem => UInt64.lt_irrefl _ (h.above t ht newId hmem)

/-- The id that is given out is the next one, and where there is a next one it is given out. -/
theorem nextId_eq_ok_iff_isNextId {tree : Option Node} {floor newId : NodeId} :
    nextId tree floor = .ok newId ↔ IsNextId tree floor newId := by
  refine ⟨isNextId_of_nextId, fun h => ?_⟩
  cases hnext : nextId tree floor with
  | error cause =>
    -- No id lies above the greatest one.
    obtain ⟨-, t, ht, hgreatest⟩ := nextId_eq_error_iff.1 hnext
    have hlt := UInt64.lt_iff_toNat_lt.1 (h.above t ht _ hgreatest)
    have hbound := newId.toNat_lt
    rw [show greatestId.toNat = 2 ^ 64 - 1 from rfl] at hlt
    omega
  | ok other =>
    have hother := isNextId_of_nextId hnext
    have hle := hother.least newId h.floor_le h.above
    have hge := h.least other hother.floor_le hother.above
    rw [UInt64.le_antisymm hle hge]

theorem exists_nextId {root : Node} (h : ∀ i ∈ root.ids, i < greatestId) (floor : NodeId) :
    ∃ newId, nextId (some root) floor = .ok newId :=
  ⟨_, nextId_eq_ok_iff.2 ⟨fun hmem => UInt64.lt_irrefl _ (h _ hmem), rfl⟩⟩

theorem not_mem_ids_of_nextId {root : Node} {floor newId : NodeId}
    (h : nextId (some root) floor = .ok newId) : newId ∉ root.ids :=
  (isNextId_of_nextId h).not_mem_ids rfl

/-- There is no next id exactly when a node of the tree bears the greatest one, which is then what
the complaint names; otherwise the next id is the least one that is at least `floor` and greater
than all ids of the tree. The check of a tree passes exactly when its ids are distinct; otherwise it
names the id of the first node that bears an id of an earlier one. -/
theorem nextId_and_checkIds_exact :
    (∀ (tree : Option Node) (floor : NodeId),
      (∀ cause, nextId tree floor = .error cause ↔
        cause = .idsExhausted greatestId ∧ ∃ t ∈ tree, greatestId ∈ t.ids) ∧
      ∀ newId, nextId tree floor = .ok newId ↔ IsNextId tree floor newId) ∧
    ∀ tree : Node,
      (tree.checkIds = .ok () ↔ tree.ids.Nodup) ∧
      ∀ cause, tree.checkIds = .error cause ↔
        ∃ before i after, cause = .duplicateId i ∧ tree.ids = before ++ i :: after ∧ before.Nodup ∧
          i ∈ before := by
  refine ⟨fun tree floor => ⟨fun cause => ?_, fun newId => ?_⟩, fun tree => ⟨?_, fun cause => ?_⟩⟩
  · exact nextId_eq_error_iff
  · exact nextId_eq_ok_iff_isNextId
  · exact checkIds_eq_ok_iff tree
  · exact checkIds_eq_error_iff

end PromptChain.Node
