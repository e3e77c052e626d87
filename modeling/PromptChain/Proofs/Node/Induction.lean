import PromptChain.Interface
import PromptChain.Node.Edit
import Mathlib.Data.List.Forall2

/-!
# Induction on trees

A property holds of every tree if it holds of a node whenever it holds of the nodes right below it.
The operations on steps, branches and fallbacks go over them one by one.
-/

set_option autoImplicit false

namespace PromptChain.Node

@[elab_as_elim, induction_eliminator]
theorem induction {motive : Node → Prop} (leaf : ∀ l, motive (leaf l))
    (sequence : ∀ i ins outs steps, (∀ n ∈ steps, motive n) → motive (sequence i ins outs steps))
    (choice : ∀ i key branches fallback, (∀ b ∈ branches, motive b.2) →
      (∀ n ∈ fallback, motive n) → motive (choice i key branches fallback)) (n : Node) : motive n :=
  @Node.rec motive (fun steps => ∀ n ∈ steps, motive n) (fun branches => ∀ b ∈ branches, motive b.2)
    (fun fallback => ∀ n ∈ fallback, motive n) (fun b => motive b.2) leaf sequence choice
    (by simp) (fun _ _ hn hs => List.forall_mem_cons.2 ⟨hn, hs⟩)
    (by simp) (fun _ _ hb hs => List.forall_mem_cons.2 ⟨hb, hs⟩)
    (by simp) (fun _ hn => by simpa using hn) (fun _ _ hn => hn) n

theorem induction_children {motive : Node → Prop}
    (step : ∀ n : Node, (∀ m ∈ n.children, motive m) → motive n) (n : Node) : motive n := by
  induction n with
  | leaf l => exact step _ nofun
  | sequence i ins outs steps ih => exact step _ ih
  | choice i key branches fallback ihb ihf =>
    refine step _ fun m hm => ?_
    rcases List.mem_append.1 hm with hbranch | hfallback
    · obtain ⟨b, hb, rfl⟩ := List.mem_map.1 hbranch
      exact ihb b hb
    · exact ihf m (Option.mem_toList.1 hfallback)

theorem nodesOfSteps_eq (steps : List Node) : nodesOfSteps steps = steps.flatMap nodes := by
  induction steps with
  | nil => rfl
  | cons n ns ih => rw [nodesOfSteps, ih, List.flatMap_cons]

theorem nodesOfBranches_eq (branches : List (String × Node)) :
    nodesOfBranches branches = branches.flatMap fun b => b.2.nodes := by
  induction branches with
  | nil => rfl
  | cons b bs ih => rw [nodesOfBranches, ih, List.flatMap_cons]

theorem nodesOfFallback_eq (fallback : Option Node) :
    nodesOfFallback fallback = fallback.toList.flatMap nodes := by
  cases fallback <;> simp [nodesOfFallback]

theorem nodes_eq (n : Node) : n.nodes = n :: n.children.flatMap nodes := by
  cases n with
  | leaf l => rfl
  | sequence i ins outs steps => rw [nodes, nodesOfSteps_eq, children]
  | choice i key branches fallback =>
    rw [nodes, nodesOfBranches_eq, nodesOfFallback_eq, children, List.flatMap_append,
      List.flatMap_map]

theorem mem_nodes_iff {n m : Node} : m ∈ n.nodes ↔ m = n ∨ ∃ c ∈ n.children, m ∈ c.nodes := by
  rw [nodes_eq, List.mem_cons, List.mem_flatMap]

theorem interfacesOfSteps_eq (steps : List Node) :
    interfacesOfSteps steps = steps.map interface := by
  induction steps with
  | nil => rfl
  | cons n ns ih => rw [interfacesOfSteps, ih, List.map_cons]

theorem interfacesOfBranches_eq (branches : List (String × Node)) :
    interfacesOfBranches branches = branches.map fun b => b.2.interface := by
  induction branches with
  | nil => rfl
  | cons b bs ih => rw [interfacesOfBranches, ih, List.map_cons]

theorem interfacesOfFallback_eq (fallback : Option Node) :
    interfacesOfFallback fallback = fallback.toList.map interface := by
  cases fallback <;> rfl

theorem interface_sequence (i : NodeId) (ins outs : List String) (steps : List Node) :
    (sequence i ins outs steps).interface = .ofSteps (steps.map interface) := by
  rw [interface, interfacesOfSteps_eq]

theorem interface_choice (i : NodeId) (key : String) (branches : List (String × Node))
    (fallback : Option Node) : (choice i key branches fallback).interface =
      .ofBranches ((choice i key branches fallback).children.map interface) := by
  rw [interface, interfacesOfBranches_eq, interfacesOfFallback_eq, children, List.map_append,
    List.map_map]
  rfl

theorem refreshSteps_eq (steps : List Node) : refreshSteps steps = steps.map refresh := by
  induction steps with
  | nil => rfl
  | cons n ns ih => rw [refreshSteps, ih, List.map_cons]

theorem refreshBranches_eq (branches : List (String × Node)) :
    refreshBranches branches = branches.map fun b => (b.1, b.2.refresh) := by
  induction branches with
  | nil => rfl
  | cons b bs ih => rw [refreshBranches, ih, List.map_cons]

theorem refreshFallback_eq (fallback : Option Node) :
    refreshFallback fallback = fallback.map refresh := by
  cases fallback <;> rfl

theorem findInSteps_eq (target : NodeId) (steps : List Node) :
    findInSteps target steps = steps.findSome? (find? target) := by
  induction steps with
  | nil => rfl
  | cons n ns ih => cases h : find? target n <;> simp [findInSteps, ih, h]

theorem findInBranches_eq (target : NodeId) (branches : List (String × Node)) :
    findInBranches target branches = (branches.map (·.2)).findSome? (find? target) := by
  induction branches with
  | nil => rfl
  | cons b bs ih =>
    obtain ⟨k, n⟩ := b
    cases h : find? target n <;> simp [findInBranches, ih, h]

theorem deleteInSteps_eq (target : NodeId) (steps : List Node) :
    deleteInSteps target steps = steps.filterMap (delete target) := by
  induction steps with
  | nil => rfl
  | cons n ns ih => cases h : delete target n <;> simp [deleteInSteps, ih, h]

theorem deleteInBranches_eq (target : NodeId) (branches : List (String × Node)) :
    deleteInBranches target branches =
      branches.filterMap fun b => (delete target b.2).map (b.1, ·) := by
  induction branches with
  | nil => rfl
  | cons b bs ih =>
    obtain ⟨k, n⟩ := b
    cases h : delete target n <;> simp [deleteInBranches, ih, h]

theorem deleteInFallback_eq (target : NodeId) (fallback : Option Node) :
    deleteInFallback target fallback = fallback.bind (delete target) := by
  cases fallback <;> rfl

theorem forall₂_imp_of_mem {α β : Type} {R S : α → β → Prop} {as : List α} {bs : List β}
    (h : List.Forall₂ R as bs) (himp : ∀ a ∈ as, ∀ b, R a b → S a b) : List.Forall₂ S as bs :=
  ((List.forall₂_and_left as bs).2 ⟨himp, h⟩).imp fun _ b hab => hab.1 b hab.2

theorem exists_right_of_forall₂ {α β : Type} {R : α → β → Prop} {as : List α} {bs : List β}
    (h : List.Forall₂ R as bs) : ∀ a ∈ as, ∃ b ∈ bs, R a b := by
  induction h with
  | nil => simp
  | cons hr _ ih =>
    refine List.forall_mem_cons.2 ⟨⟨_, List.mem_cons_self, hr⟩, fun a ha => ?_⟩
    obtain ⟨b, hb, hab⟩ := ih a ha
    exact ⟨b, List.mem_cons_of_mem _ hb, hab⟩

end PromptChain.Node
