import PromptChain.Proofs.Node.Induction
import PromptChain.Proofs.OrderedSet

/-!
# Which keys an interface holds

A sequence gives what any step gives and needs what a step needs and none gives. A choice with
branches gives what all of them give and needs what any of them needs; without branches it gives
nothing.
-/

set_option autoImplicit false

namespace PromptChain

namespace Interface

variable {key : String}

theorem mem_outputs_ofSteps {steps : List Interface} :
    key ∈ (ofSteps steps).outputs.items ↔ ∃ i ∈ steps, key ∈ i.outputs.items := by
  rw [ofSteps, OrderedSet.mem_unionAll]
  simp

theorem mem_inputs_ofSteps {steps : List Interface} : key ∈ (ofSteps steps).inputs.items ↔
    (∃ i ∈ steps, key ∈ i.inputs.items) ∧ ∀ i ∈ steps, key ∉ i.outputs.items := by
  rw [ofSteps, OrderedSet.mem_difference, OrderedSet.mem_unionAll, OrderedSet.mem_unionAll]
  simp

theorem mem_outputs_ofBranches {branches : List Interface} :
    key ∈ (ofBranches branches).outputs.items ↔
      branches ≠ [] ∧ ∀ i ∈ branches, key ∈ i.outputs.items := by
  rw [ofBranches, OrderedSet.mem_intersectAll]
  simp

theorem mem_inputs_ofBranches {branches : List Interface} :
    key ∈ (ofBranches branches).inputs.items ↔ ∃ i ∈ branches, key ∈ i.inputs.items := by
  rw [ofBranches, OrderedSet.mem_unionAll]
  simp

end Interface

namespace Node

def Gives (n : Node) (key : String) : Prop := key ∈ n.interface.outputs.items

def Needs (n : Node) (key : String) : Prop := key ∈ n.interface.inputs.items

theorem gives_sequence {i : NodeId} {ins outs : List String} {steps : List Node} {key : String} :
    (sequence i ins outs steps).Gives key ↔ ∃ n ∈ steps, n.Gives key := by
  rw [Gives, interface_sequence, Interface.mem_outputs_ofSteps]
  simp [Gives]

theorem needs_sequence {i : NodeId} {ins outs : List String} {steps : List Node} {key : String} :
    (sequence i ins outs steps).Needs key ↔
      (∃ n ∈ steps, n.Needs key) ∧ ∀ n ∈ steps, ¬ n.Gives key := by
  rw [Needs, interface_sequence, Interface.mem_inputs_ofSteps]
  simp [Gives, Needs]

theorem gives_choice {i : NodeId} {label : String} {branches : List (String × Node)}
    {fallback : Option Node} {key : String} : (choice i label branches fallback).Gives key ↔
      (choice i label branches fallback).children ≠ [] ∧
        ∀ n ∈ (choice i label branches fallback).children, n.Gives key := by
  rw [Gives, interface_choice, Interface.mem_outputs_ofBranches]
  simp [Gives]

theorem needs_choice {i : NodeId} {label : String} {branches : List (String × Node)}
    {fallback : Option Node} {key : String} : (choice i label branches fallback).Needs key ↔
      ∃ n ∈ (choice i label branches fallback).children, n.Needs key := by
  rw [Needs, interface_choice, Interface.mem_inputs_ofBranches]
  simp [Needs]

end Node

end PromptChain
