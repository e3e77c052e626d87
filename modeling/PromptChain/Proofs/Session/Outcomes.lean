import PromptChain.Session.Basic
import PromptChain.Proofs.Sequencing

/-!
# What the operations of a session give

For every operation that can fail: what the session is like after it has succeeded.
-/

set_option autoImplicit false

namespace PromptChain.Session

theorem liftFault_eq_ok {α : Type} {x : Except PromptChain.Fault α} {a : α} :
    liftFault x = .ok a ↔ x = .ok a := by
  cases x <;> simp [liftFault]

theorem insert_eq_ok {s t : Session} {kind : String} {parent : NodeId} {index : Nat}
    {given : Option NodeId} (h : s.insert kind parent index = .ok (given, t)) :
    (given = none ∧ t = s) ∨ ∃ k newId, Kind.ofName kind = .ok k ∧
      Node.nextId s.working s.nextId = .ok newId ∧ given = some newId ∧
      t = { s with working := some (Node.insert s.working newId k parent index),
                   nextId := afterId newId } := by
  obtain ⟨k, hk, h⟩ := bind_eq_ok.1 h
  obtain ⟨newId, hnew, h⟩ := bind_eq_ok.1 h
  rw [liftFault_eq_ok] at hk hnew
  dsimp only at h
  split at h
  · obtain ⟨rfl, rfl⟩ := ok_pair_inj h
    exact .inl ⟨rfl, rfl⟩
  · obtain ⟨rfl, rfl⟩ := ok_pair_inj h
    exact .inr ⟨k, newId, hk, hnew, rfl, rfl⟩

theorem update_eq_ok {s t : Session} {node : Node} (h : s.update node = .ok t) :
    ∃ root tree, s.working = some root ∧ Node.replace? node root = some tree ∧
      t = { s with working := some tree } := by
  rw [update] at h
  split at h
  · next tree hr =>
    obtain ⟨root, hroot, hrep⟩ := Option.bind_eq_some_iff.1 hr
    exact ⟨root, tree, hroot, hrep, (Except.ok.inj h).symm⟩
  · contradiction

theorem load_eq_ok {s t : Session} {name : String} {r : Revision} (h : s.load name r = .ok t) :
    ∃ nextId, r.chain.checkIds = .ok () ∧ Node.nextId (some r.chain) 0 = .ok nextId ∧
      t = { s with name, nextId, parent := r.id, baseline := some r.chain, working := some r.chain,
                   savedLlms := r.llms, llms := r.llms } := by
  obtain ⟨⟨⟩, hcheck, h⟩ := bind_eq_ok.1 h
  obtain ⟨nextId, hnext, h⟩ := bind_eq_ok.1 h
  rw [liftFault_eq_ok] at hcheck hnext
  exact ⟨nextId, hcheck, hnext, (Except.ok.inj h).symm⟩

theorem build_eq_ok {s : Session} {r : Revision} (h : s.build = .ok r) :
    ∃ tree, s.working = some tree ∧ r = .create s.parent tree s.llms := by
  rw [build] at h
  split at h
  · contradiction
  · split at h
    · contradiction
    · next tree hw => exact ⟨tree, hw, (Except.ok.inj h).symm⟩

end PromptChain.Session
