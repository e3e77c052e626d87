import PromptChain.Proofs.Node.FreshIds
import PromptChain.Proofs.Node.Insertion
import PromptChain.Proofs.Session.Outcomes

/-!
# What an insertion into a session reports

An insertion does not ask whether the tree has taken the new node: it looks for the new id
afterwards. As that id is greater than all ids of the working tree, it is missing exactly when the
tree refuses the node.
-/

set_option autoImplicit false

namespace PromptChain

namespace Node

variable {tree : Option Node} {floor newId parent : NodeId}

theorem find?_insert_of_isNextId (hnext : IsNextId tree floor newId)
    (h : ∀ t ∈ tree, ¬ t.Refuses parent) (kind : Kind) (index : Nat) :
    find? newId (insert tree newId kind parent index) = some (blank kind newId) := by
  cases tree with
  | none =>
    rw [insert, find?_eq]
    simp
  | some root =>
    obtain ⟨m, hfind, hm⟩ := not_refuses_iff.1 (h root rfl)
    exact find?_insert hfind hm (hnext.not_mem_ids rfl) kind index

theorem size_insert (h : ∀ t ∈ tree, ¬ t.Refuses parent) (newId : NodeId) (kind : Kind)
    (index : Nat) :
    (insert tree newId kind parent index).size = tree.elim 0 size + 1 := by
  cases tree with
  | none => rw [insert, ← length_ids, ids_blank, Option.elim_none, List.length_singleton]
  | some root =>
    rw [Option.elim_some, ← length_ids, ← length_ids root,
      (perm_ids_insert (h root rfl) newId kind index).length_eq, List.length_cons]

end Node

namespace Session

/-- `t` is `s` with a new node of the kind in its working tree, under the next id. -/
structure Inserted (s : Session) (kind : Kind) (parent : NodeId) (index : Nat) (newId : NodeId)
    (t : Session) : Prop where
  isNext : Node.IsNextId s.working s.nextId newId
  session_eq : t = { s with working := some (Node.insert s.working newId kind parent index),
                            nextId := afterId newId }
  found : t.find? newId = some (.blank kind newId)
  size : ∀ tree ∈ t.working, tree.size = s.working.elim 0 Node.size + 1
  alone : s.working = none → t.working = some (.blank kind newId)

variable {s : Session} {kind : Kind} {parent newId : NodeId} {index : Nat}

theorem insert_of_unknown {kindName : String} (h : ∀ k : Kind, k.name ≠ kindName) :
    s.insert kindName parent index = .error (.chain (.unknownKind kindName)) := by
  rw [insert, Kind.ofName_of_unknown h]
  rfl

theorem insert_of_greatestId (h : ∃ t ∈ s.working, Node.greatestId ∈ t.ids) :
    s.insert kind.name parent index = .error (.chain (.idsExhausted Node.greatestId)) := by
  rw [insert, Kind.ofName_name, Node.nextId_eq_error_iff.2 ⟨rfl, h⟩]
  rfl

theorem insert_of_refuses (hnext : Node.nextId s.working s.nextId = .ok newId)
    (h : ∃ t ∈ s.working, t.Refuses parent) :
    s.insert kind.name parent index = .ok (none, s) := by
  obtain ⟨root, hroot, hrefuses⟩ := h
  -- The id is new to the tree, so a tree that stays as it is does not come to hold it.
  have hnew := (Node.isNextId_of_nextId hnext).not_mem_ids hroot
  have hmissing := (Node.find?_insert_eq_none_iff hnew kind parent index).2 hrefuses
  rw [insert, Kind.ofName_name, hnext, Option.mem_def.1 hroot]
  simp [liftFault, hmissing]

theorem exists_inserted (hnext : Node.nextId s.working s.nextId = .ok newId)
    (h : ∀ t ∈ s.working, ¬ t.Refuses parent) :
    ∃ t, s.insert kind.name parent index = .ok (some newId, t) ∧
      s.Inserted kind parent index newId t := by
  have hisNext := Node.isNextId_of_nextId hnext
  have hfound := Node.find?_insert_of_isNextId hisNext h kind index
  refine ⟨_, ?_, hisNext, rfl, hfound, ?_, ?_⟩
  · rw [insert, Kind.ofName_name, hnext]
    simp [liftFault, hfound]
  · intro tree htree
    obtain rfl := Option.some.inj htree
    exact Node.size_insert h newId kind index
  · intro hnone
    rw [hnone]
    rfl

theorem insert_cases (s : Session) (kind : Kind) (parent : NodeId) (index : Nat) :
    (∃ t ∈ s.working, Node.greatestId ∈ t.ids) ∧
        s.insert kind.name parent index = .error (.chain (.idsExhausted Node.greatestId)) ∨
      (¬ ∃ t ∈ s.working, Node.greatestId ∈ t.ids) ∧
        ((∃ t ∈ s.working, t.Refuses parent) ∧ s.insert kind.name parent index = .ok (none, s) ∨
          (¬ ∃ t ∈ s.working, t.Refuses parent) ∧
            ∃ newId t, s.insert kind.name parent index = .ok (some newId, t) ∧
              s.Inserted kind parent index newId t) := by
  cases hnext : Node.nextId s.working s.nextId with
  | error cause =>
    obtain ⟨-, hgreatest⟩ := Node.nextId_eq_error_iff.1 hnext
    exact .inl ⟨hgreatest, insert_of_greatestId hgreatest⟩
  | ok newId =>
    refine .inr ⟨fun hgreatest => ?_, ?_⟩
    · rw [Node.nextId_eq_error_iff.2 ⟨rfl, hgreatest⟩] at hnext
      contradiction
    · by_cases hrefuses : ∃ t ∈ s.working, t.Refuses parent
      · exact .inl ⟨hrefuses, insert_of_refuses hnext hrefuses⟩
      · exact .inr ⟨hrefuses, newId, exists_inserted hnext fun t ht h => hrefuses ⟨t, ht, h⟩⟩

/-- An insertion reports exactly what it did. It fails with the name of the kind if no kind has that
name; otherwise for want of ids if a node of the working tree bears the greatest one; otherwise it
gives no id, and leaves the session as it is, if there is a working tree and the parent is missing
or comes first as a leaf. In all other cases it gives the next id, under which the working tree then
has a new node, and no other field changes than the working tree and the counter. -/
theorem insert_reports_outcome (s : Session) (kindName : String) (parent : NodeId) (index : Nat) :
    (s.insert kindName parent index = .error (.chain (.unknownKind kindName)) ↔
      ∀ k : Kind, k.name ≠ kindName) ∧
    ∀ k : Kind, k.name = kindName →
      (s.insert kindName parent index = .error (.chain (.idsExhausted Node.greatestId)) ↔
        ∃ t ∈ s.working, Node.greatestId ∈ t.ids) ∧
      ((¬ ∃ t ∈ s.working, Node.greatestId ∈ t.ids) →
        (s.insert kindName parent index = .ok (none, s) ↔ ∃ t ∈ s.working, t.Refuses parent) ∧
        ((¬ ∃ t ∈ s.working, t.Refuses parent) → ∃ newId t,
          s.insert kindName parent index = .ok (some newId, t) ∧
          s.Inserted k parent index newId t)) := by
  refine ⟨⟨fun h k hk => ?_, insert_of_unknown⟩, ?_⟩
  · subst hk
    rcases insert_cases s k parent index with ⟨-, he⟩ | ⟨-, ⟨-, he⟩ | ⟨-, newId, t, he, -⟩⟩ <;>
      simp [he] at h
  · rintro k rfl
    rcases insert_cases s k parent index with
      ⟨hgreatest, he⟩ | ⟨hfree, ⟨hrefuses, he⟩ | ⟨htakes, newId, t, he, hinserted⟩⟩
    · exact ⟨iff_of_true he hgreatest, fun hfree => absurd hgreatest hfree⟩
    · exact ⟨iff_of_false (by simp [he]) hfree, fun _ =>
        ⟨iff_of_true he hrefuses, fun htakes => absurd hrefuses htakes⟩⟩
    · exact ⟨iff_of_false (by simp [he]) hfree, fun _ =>
        ⟨iff_of_false (by simp [he]) htakes, fun _ => ⟨newId, t, he, hinserted⟩⟩⟩

/-- A session on a choice in which a sequence and the fallback, a prompt, may have one id. -/
private def choosing (fallbackId counter : NodeId) : Session :=
  { new .standard with
    working :=
      some (.choice 0 "kind" [("a", .sequence 5 [] [] [])] (some (.blank .prompt fallbackId)))
    nextId := counter }

theorem insert_reports_outcome_choosing :
    (choosing 5 7).insert "case" 0 0 = .error (.chain (.unknownKind "case")) ∧
    (choosing Node.greatestId 7).insert "chat_spec" 5 0 =
      .error (.chain (.idsExhausted Node.greatestId)) ∧
    (choosing 5 7).insert "chat_spec" 5 0 = .ok (none, choosing 5 7) ∧
    ∃ t, (choosing 6 Node.greatestId).insert "chat_spec" 5 0 = .ok (some Node.greatestId, t) ∧
      t.nextId = Node.greatestId ∧
      t.find? Node.greatestId = some (.blank .chat Node.greatestId) := by
  obtain ⟨hunknown, -⟩ := insert_reports_outcome (choosing 5 7) "case" 0 0
  obtain ⟨-, hfull⟩ := insert_reports_outcome (choosing Node.greatestId 7) "chat_spec" 5 0
  obtain ⟨-, hrefused⟩ := insert_reports_outcome (choosing 5 7) "chat_spec" 5 0
  obtain ⟨-, htaken⟩ := insert_reports_outcome (choosing 6 Node.greatestId) "chat_spec" 5 0
  have hprompt : ¬ ∃ t ∈ (choosing 5 7).working, Node.greatestId ∈ t.ids := by
    rintro ⟨t, ⟨⟩, hmem⟩
    exact absurd hmem (by decide)
  have hbelow : ∀ t ∈ (choosing 6 Node.greatestId).working, ∀ i ∈ t.ids, i < Node.greatestId := by
    rintro t ⟨⟩
    decide
  have htakes : ¬ ∃ t ∈ (choosing 6 Node.greatestId).working, t.Refuses 5 := by
    rintro ⟨t, ⟨⟩, hrefuses⟩
    exact absurd (hrefuses (.sequence 5 [] [] []) rfl) (by decide)
  obtain ⟨newId, t, he, hinserted⟩ := ((htaken .chat rfl).2 fun ⟨t, ht, hmem⟩ =>
    UInt64.lt_irrefl _ (hbelow t ht _ hmem)).2 htakes
  obtain rfl : newId = Node.greatestId :=
    UInt64.le_antisymm (hinserted.isNext.least _ (UInt64.le_refl _) hbelow)
      hinserted.isNext.floor_le
  refine ⟨hunknown.2 fun k => ?_, (hfull .chat rfl).1.2 ⟨_, rfl, by decide⟩,
    ((hrefused .chat rfl).2 hprompt).1.2 ⟨_, rfl, fun m hm => ?_⟩, t, he, ?_, hinserted.found⟩
  · cases k <;> decide
  · obtain rfl : .blank .prompt 5 = m := Option.some.inj hm
    rfl
  · rw [hinserted.session_eq]
    rfl

end Session

end PromptChain
