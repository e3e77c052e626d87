import PromptChain.Proofs.Node.Refreshing
import Mathlib.Data.List.Forall2

/-!
# Interfaces written back

Refreshing a tree refreshes each of its nodes in its place, and the interface of a node does not
depend on the keys of sequences. So every sequence of a refreshed tree holds its own interface, and
neither the interfaces nor anything but those keys has changed.
-/

set_option autoImplicit false

namespace PromptChain.Node

theorem children_refresh (t : Node) : t.refresh.children = t.children.map refresh := by
  cases t with
  | leaf l => rfl
  | sequence i ins outs steps => rw [refresh_sequence, children, children]
  | choice i key branches fallback =>
    rw [refresh_choice, children, children, List.map_append, List.map_map, List.map_map]
    cases fallback <;> rfl

theorem nodes_refresh (t : Node) : t.refresh.nodes = t.nodes.map refresh := by
  induction t using induction_children with
  | step t ih =>
    rw [nodes_eq t.refresh, nodes_eq t, children_refresh, List.map_cons, List.map_flatMap,
      List.flatMap_map, List.flatMap_congr ih]

@[simp] theorem interface_refresh (t : Node) : t.refresh.interface = t.interface := by
  induction t using induction_children with
  | step t ih =>
    have hchildren : t.refresh.children.map interface = t.children.map interface := by
      rw [children_refresh, List.map_map]
      exact List.map_congr_left ih
    cases t with
    | leaf l => rfl
    | sequence i ins outs steps =>
      rw [refresh_sequence] at hchildren ⊢
      rw [interface_sequence, interface_sequence]
      exact congrArg Interface.ofSteps hchildren
    | choice i key branches fallback =>
      rw [refresh_choice] at hchildren ⊢
      rw [interface_choice, interface_choice, hchildren]

theorem keys_eq_interface_of_refresh {n : Node} {i : NodeId} {ins outs : List String}
    {steps : List Node} (h : n.refresh = sequence i ins outs steps) :
    ins = n.refresh.interface.inputs.items ∧ outs = n.refresh.interface.outputs.items := by
  cases n with
  | leaf l => contradiction
  | choice i key branches fallback => simp [refresh_choice] at h
  | sequence j jins jouts jsteps =>
    rw [refresh_sequence] at h ⊢
    obtain ⟨rfl, rfl, rfl, rfl⟩ := sequence.inj h
    exact ⟨rfl, rfl⟩

/-- In a refreshed tree every sequence holds its own interface, in order and without repetition. But
for these keys the tree is as it was, every node has the interface that it had, and there is nothing
left to refresh. -/
theorem refresh_writes_interfaces (t : Node) :
    (∀ i ins outs steps, sequence i ins outs steps ∈ t.refresh.nodes →
      ins = (sequence i ins outs steps).interface.inputs.items ∧ ins.Nodup ∧
      outs = (sequence i ins outs steps).interface.outputs.items ∧ outs.Nodup) ∧
    t.refresh.unkeyed = t.unkeyed ∧
    List.Forall₂ (fun m n => m.unkeyed = n.unkeyed ∧ m.interface = n.interface)
      t.refresh.nodes t.nodes ∧
    t.refresh.refresh = t.refresh := by
  refine ⟨fun i ins outs steps hmem => ?_, unkeyed_refresh t, ?_, refresh_refresh t⟩
  · rw [nodes_refresh] at hmem
    obtain ⟨n, -, hn⟩ := List.mem_map.1 hmem
    obtain ⟨hins, houts⟩ := keys_eq_interface_of_refresh hn
    rw [hn] at hins houts
    refine ⟨hins, ?_, houts, ?_⟩
    · rw [hins]
      exact OrderedSet.nodup _
    · rw [houts]
      exact OrderedSet.nodup _
  · rw [nodes_refresh, List.forall₂_map_left_iff, List.forall₂_same]
    exact fun n _ => ⟨unkeyed_refresh n, interface_refresh n⟩

end PromptChain.Node
