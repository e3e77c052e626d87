import PromptChain.Proofs.Interface.Membership
import PromptChain.Proofs.Node.Places

/-!
# Interfaces of a tree with another node at a place

The interface of a node depends on the interfaces of its children only. So a relation of interfaces
that goes through sequences and through choices goes from one node to every node above it.
-/

set_option autoImplicit false

namespace PromptChain

/-- A relation of interfaces that holds of two sequences, or of two choices, if it holds of the one
child in which they differ. -/
structure Interface.Congruence (R : Interface → Interface → Prop) : Prop where
  ofSteps : ∀ {i j : Interface} (before after : List Interface), R i j →
    R (.ofSteps (before ++ i :: after)) (.ofSteps (before ++ j :: after))
  ofBranches : ∀ {i j : Interface} (before after : List Interface), R i j →
    R (.ofBranches (before ++ i :: after)) (.ofBranches (before ++ j :: after))

theorem Interface.congruence_eq : Congruence Eq where
  ofSteps before after h := by rw [h]
  ofBranches before after h := by rw [h]

namespace Node

variable {R : Interface → Interface → Prop} {t old new : Node} {place : Place}

private theorem related_putChild (hR : Interface.Congruence R) {n c m : Node} {s : Slot}
    (h : n.child? s = some c) (hm : R c.interface m.interface) :
    R n.interface (n.putChild s m).interface := by
  obtain ⟨before, after, hchildren, hput⟩ := exists_children_of_child? h
  have hold : n.children.map interface =
      before.map interface ++ c.interface :: after.map interface := by
    rw [hchildren, List.map_append, List.map_cons]
  have hnew : (n.putChild s m).children.map interface =
      before.map interface ++ m.interface :: after.map interface := by
    rw [hput, List.map_append, List.map_cons]
  cases n with
  | leaf l => contradiction
  | sequence i ins outs steps =>
    cases s with
    | step k =>
      rw [putChild, children] at hnew
      rw [children] at hold
      rw [putChild, interface_sequence, interface_sequence, hold, hnew]
      exact hR.ofSteps _ _ hm
    | branch | fallback => contradiction
  | choice i key branches fallback =>
    cases s with
    | step => contradiction
    | branch k label =>
      rw [putChild] at hnew ⊢
      rw [interface_choice, interface_choice, hold, hnew]
      exact hR.ofBranches _ _ hm
    | fallback =>
      rw [putChild] at hnew ⊢
      rw [interface_choice, interface_choice, hold, hnew]
      exact hR.ofBranches _ _ hm

theorem related_putAt (hR : Interface.Congruence R) (h : t.nodeAt? place = some old)
    (hnew : R old.interface new.interface) : R t.interface (t.putAt place new).interface := by
  induction place generalizing t with
  | nil =>
    obtain rfl := Option.some.inj h
    exact hnew
  | cons s place ih =>
    obtain ⟨c, hc, hplace⟩ := Option.bind_eq_some_iff.1 h
    rw [putAt, hc]
    exact related_putChild hR hc (ih hplace)

theorem related_above (hR : Interface.Congruence R) (h : t.nodeAt? place = some old)
    (hnew : R old.interface new.interface) {above : Place} (habove : above <+: place) :
    ∃ a b, t.nodeAt? above = some a ∧ (t.putAt place new).nodeAt? above = some b ∧
      R a.interface b.interface := by
  obtain ⟨rest, rfl⟩ := habove
  rw [nodeAt?_append] at h
  obtain ⟨a, ha, hrest⟩ := Option.bind_eq_some_iff.1 h
  exact ⟨a, a.putAt rest new, ha, nodeAt?_putAt_above ha rest new, related_putAt hR hrest hnew⟩

end Node

end PromptChain
