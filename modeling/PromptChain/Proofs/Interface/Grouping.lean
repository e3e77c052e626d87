import PromptChain.Proofs.Interface.Congruence
import PromptChain.Proofs.OrderedSet

/-!
# Sequences inside sequences

A step that is a sequence itself takes away what its own steps give from what they need, and the
sequence around it takes that away once more. So it may as well stand there as its steps, one by
one: nothing changes for the sequence around it or for what is above, in the order of the keys
neither.
-/

set_option autoImplicit false

namespace PromptChain

namespace Interface

private theorem items_outputs_ofSteps (steps : List Interface) :
    (ofSteps steps).outputs.items = firsts (steps.flatMap fun i => i.outputs.items) := by
  rw [ofSteps, OrderedSet.items_unionAll, List.flatMap_map]

private theorem items_inputs_ofSteps (steps : List Interface) :
    (ofSteps steps).inputs.items =
      firsts ((steps.flatMap fun i => i.inputs.items).filter
        (· ∉ (ofSteps steps).outputs.items)) := by
  rw [firsts_filter, ← List.flatMap_map, ← OrderedSet.items_unionAll]
  rfl

private theorem mem_outputs_of_inside {before inside after : List Interface} {key : String}
    (h : key ∈ (ofSteps inside).outputs.items) :
    key ∈ (ofSteps (before ++ inside ++ after)).outputs.items := by
  rw [items_outputs_ofSteps, mem_firsts] at h ⊢
  rw [List.flatMap_append, List.flatMap_append]
  exact List.mem_append_left _ (List.mem_append_right _ h)

private theorem outputs_ofSteps_ungroup (before inside after : List Interface) :
    (ofSteps (before ++ ofSteps inside :: after)).outputs =
      (ofSteps (before ++ inside ++ after)).outputs := by
  ext1
  rw [items_outputs_ofSteps, items_outputs_ofSteps, List.flatMap_append, List.flatMap_cons,
    items_outputs_ofSteps, ← List.append_assoc, firsts_around, List.flatMap_append,
    List.flatMap_append]

private theorem inputs_ofSteps_ungroup (before inside after : List Interface) :
    (ofSteps (before ++ ofSteps inside :: after)).inputs =
      (ofSteps (before ++ inside ++ after)).inputs := by
  ext1
  rw [items_inputs_ofSteps, items_inputs_ofSteps, outputs_ofSteps_ungroup]
  generalize hgiven : (ofSteps (before ++ inside ++ after)).outputs.items = given
  -- What the group has taken away is taken away around it anyway.
  have hinside : (ofSteps inside).inputs.items.filter (· ∉ given) =
      firsts ((inside.flatMap fun i => i.inputs.items).filter (· ∉ given)) := by
    rw [items_inputs_ofSteps, firsts_filter, firsts_filter, List.filter_filter]
    apply List.filter_congr
    intro key _
    have hsubset : key ∈ (ofSteps inside).outputs.items → key ∈ given := by
      intro h
      rw [← hgiven]
      exact mem_outputs_of_inside h
    by_cases hkey : key ∈ given
    · simp [hkey]
    · have hout : key ∉ (ofSteps inside).outputs.items := fun h => hkey (hsubset h)
      simp [hkey, hout]
  rw [List.flatMap_append, List.flatMap_cons, List.filter_append, List.filter_append, hinside,
    ← List.append_assoc, firsts_around, List.flatMap_append, List.flatMap_append,
    List.filter_append, List.filter_append]

theorem ofSteps_ungroup (before inside after : List Interface) :
    ofSteps (before ++ ofSteps inside :: after) = ofSteps (before ++ inside ++ after) := by
  have hinputs := inputs_ofSteps_ungroup before inside after
  have houtputs := outputs_ofSteps_ungroup before inside after
  generalize ofSteps (before ++ ofSteps inside :: after) = grouped at hinputs houtputs ⊢
  generalize ofSteps (before ++ inside ++ after) = ungrouped at hinputs houtputs ⊢
  cases grouped
  cases ungrouped
  exact congrArg₂ Interface.mk hinputs houtputs

end Interface

namespace Node

variable {i j : NodeId} {ins outs groupIns groupOuts : List String}
  {before inside after : List Node}

private theorem interface_sequence_ungroup :
    (sequence i ins outs (before ++ sequence j groupIns groupOuts inside :: after)).interface =
      (sequence i ins outs (before ++ inside ++ after)).interface := by
  rw [interface_sequence, interface_sequence, List.map_append, List.map_cons, interface_sequence,
    Interface.ofSteps_ungroup, List.map_append, List.map_append]

/-- Wherever in a tree a step of a sequence is a sequence itself, it may give way to its own steps,
in its place and in their order. The sequence around it and every node above keep their interfaces,
in the order of the keys too. -/
theorem interface_ungroup {t : Node} {place : Place} (h : t.nodeAt? place =
      some (sequence i ins outs (before ++ sequence j groupIns groupOuts inside :: after))) :
    let t' := t.putAt place (sequence i ins outs (before ++ inside ++ after))
    DiffersAt place (sequence i ins outs (before ++ sequence j groupIns groupOuts inside :: after))
        (sequence i ins outs (before ++ inside ++ after)) t t' ∧
      ∀ above, above <+: place → ∃ a b, t.nodeAt? above = some a ∧ t'.nodeAt? above = some b ∧
        b.interface = a.interface := by
  intro t'
  refine ⟨differsAt_putAt h _, fun above habove => ?_⟩
  obtain ⟨a, b, ha, hb, hab⟩ :=
    related_above Interface.congruence_eq h interface_sequence_ungroup habove
  exact ⟨a, b, ha, hb, hab.symm⟩

private def asking (id : NodeId) (inputKeys : List String) (outputKey : String) : Node :=
  leaf (.prompt ⟨id, inputKeys, outputKey, "", "llm"⟩)

/-- A branch with a group that gives a key which the branch needs before it. -/
private def grouped : Node :=
  choice 0 "mood"
    [("sad", sequence 1 [] [] [asking 2 ["b", "a"] "c",
      sequence 3 [] [] [asking 4 ["d", "c"] "e", asking 5 ["e", "a"] "b"],
      asking 6 ["f", "d"] "g"])]
    (some (asking 7 ["z", "d"] "g"))

theorem interface_ungroup_grouped :
    ∃ i ins outs before j groupIns groupOuts inside after,
      grouped.nodeAt? [.branch 0 "sad"] =
        some (sequence i ins outs (before ++ sequence j groupIns groupOuts inside :: after)) ∧
      ∃ b, (grouped.putAt [.branch 0 "sad"]
          (sequence i ins outs (before ++ inside ++ after))).nodeAt? [] = some b ∧
        b.interface = grouped.interface ∧ b.interface.inputs.items = ["a", "d", "f", "z"] := by
  have h : grouped.nodeAt? [.branch 0 "sad"] = some (sequence 1 [] []
      ([asking 2 ["b", "a"] "c"] ++
        sequence 3 [] [] [asking 4 ["d", "c"] "e", asking 5 ["e", "a"] "b"] ::
        [asking 6 ["f", "d"] "g"])) := rfl
  obtain ⟨-, habove⟩ := interface_ungroup h
  obtain ⟨a, b, ha, hb, hab⟩ := habove [] List.nil_prefix
  obtain rfl := Option.some.inj ha
  refine ⟨_, _, _, _, _, _, _, _, _, h, b, hb, hab, ?_⟩
  rw [hab]
  decide

end Node

end PromptChain
