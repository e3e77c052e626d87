import PromptChain.Proofs.Interface.Congruence
import PromptChain.Proofs.OrderedSet

/-!
# Interfaces whatever the order of the children

The keys that a sequence or a choice gives and needs are those that some or all of its children give
or need, in whatever order the children stand. So the children of any nodes of a tree may be put in
another order, and a fallback may change places with a branch: only the order of the keys depends on
it.
-/

set_option autoImplicit false

namespace PromptChain

namespace Interface

structure SameKeys (i j : Interface) : Prop where
  inputs : ∀ key, key ∈ i.inputs.items ↔ key ∈ j.inputs.items
  outputs : ∀ key, key ∈ i.outputs.items ↔ key ∈ j.outputs.items

theorem SameKeys.refl (i : Interface) : SameKeys i i := ⟨fun _ => Iff.rfl, fun _ => Iff.rfl⟩

theorem SameKeys.trans {i j k : Interface} (hij : SameKeys i j) (hjk : SameKeys j k) :
    SameKeys i k :=
  ⟨fun key => (hij.inputs key).trans (hjk.inputs key),
    fun key => (hij.outputs key).trans (hjk.outputs key)⟩

private theorem exists_mem_around {P : Interface → Prop} (before after : List Interface)
    (i : Interface) : (∃ k ∈ before ++ i :: after, P k) ↔
      (∃ k ∈ before, P k) ∨ P i ∨ ∃ k ∈ after, P k := by
  simp only [List.mem_append, List.mem_cons, or_and_right, exists_or, exists_eq_left]

private theorem forall_mem_around {P : Interface → Prop} (before after : List Interface)
    (i : Interface) : (∀ k ∈ before ++ i :: after, P k) ↔
      (∀ k ∈ before, P k) ∧ P i ∧ ∀ k ∈ after, P k := by
  rw [List.forall_mem_append, List.forall_mem_cons]

/-- Whether a list of steps or branches has a key is asked of each of them, so one of them may be
exchanged for another with the same keys. -/
theorem congruence_sameKeys : Congruence SameKeys where
  ofSteps before after h := by
    constructor
    · intro key
      rw [mem_inputs_ofSteps, mem_inputs_ofSteps, exists_mem_around, exists_mem_around,
        forall_mem_around, forall_mem_around, h.inputs key, h.outputs key]
    · intro key
      rw [mem_outputs_ofSteps, mem_outputs_ofSteps, exists_mem_around, exists_mem_around,
        h.outputs key]
  ofBranches before after h := by
    constructor
    · intro key
      rw [mem_inputs_ofBranches, mem_inputs_ofBranches, exists_mem_around, exists_mem_around,
        h.inputs key]
    · intro key
      rw [mem_outputs_ofBranches, mem_outputs_ofBranches, forall_mem_around, forall_mem_around,
        h.outputs key]
      simp

theorem sameKeys_ofSteps {steps steps' : List Interface} (h : steps.Perm steps') :
    SameKeys (ofSteps steps) (ofSteps steps') := by
  constructor
  · intro key
    simp only [mem_inputs_ofSteps, h.mem_iff]
  · intro key
    simp only [mem_outputs_ofSteps, h.mem_iff]

theorem sameKeys_ofBranches {branches branches' : List Interface} (h : branches.Perm branches') :
    SameKeys (ofBranches branches) (ofBranches branches') := by
  have hempty : branches = [] ↔ branches' = [] := by
    rw [← List.length_eq_zero_iff, h.length_eq, List.length_eq_zero_iff]
  constructor
  · intro key
    simp only [mem_inputs_ofBranches, h.mem_iff]
  · intro key
    simp only [mem_outputs_ofBranches, h.mem_iff, ne_eq, hempty]

end Interface

namespace Node

/-- A node with its children in another order: the steps of a sequence, the branches of a choice, or
a branch and the fallback in each other's place. -/
inductive Reorders : Node → Node → Prop where
  | steps {i : NodeId} {ins outs : List String} {steps steps' : List Node} :
      steps.Perm steps' → Reorders (sequence i ins outs steps) (sequence i ins outs steps')
  | branches {i : NodeId} {key : String} {branches branches' : List (String × Node)}
      {fallback : Option Node} : branches.Perm branches' →
      Reorders (choice i key branches fallback) (choice i key branches' fallback)
  | fallback {i : NodeId} {key label : String} (before after : List (String × Node)) (n m : Node) :
      Reorders (choice i key (before ++ (label, n) :: after) (some m))
        (choice i key (before ++ (label, m) :: after) (some n))

/-- A tree in which nodes at any places, one after the other, have had their children reordered. -/
inductive Reordered (t : Node) : Node → Prop where
  | refl : Reordered t t
  | tail {u m n : Node} (place : Place) : Reordered t u → u.nodeAt? place = some m → Reorders m n →
      Reordered t (u.putAt place n)

private theorem sameKeys_of_reorders {m n : Node} (h : Reorders m n) :
    Interface.SameKeys m.interface n.interface := by
  cases h with
  | steps hperm =>
    rw [interface_sequence, interface_sequence]
    exact Interface.sameKeys_ofSteps (hperm.map interface)
  | @branches i key branches branches' fallback hperm =>
    have hchildren : (choice i key branches fallback).children.Perm
        (choice i key branches' fallback).children := (hperm.map Prod.snd).append_right _
    rw [interface_choice, interface_choice]
    exact Interface.sameKeys_ofBranches (hchildren.map interface)
  | fallback before after n m =>
    have hswap : ∀ l : List Node, (n :: (l ++ [m])).Perm (m :: (l ++ [n])) := fun l => calc
      (n :: (l ++ [m])).Perm (n :: m :: l) := (List.perm_append_singleton m l).cons n
      List.Perm _ (m :: n :: l) := .swap m n l
      List.Perm _ (m :: (l ++ [n])) := (List.perm_append_singleton n l).symm.cons m
    rw [interface_choice, interface_choice]
    refine Interface.sameKeys_ofBranches (List.Perm.map interface ?_)
    simp only [children, List.map_append, List.map_cons, Option.toList_some, List.append_assoc,
      List.cons_append]
    exact (hswap (after.map Prod.snd)).append_left (before.map Prod.snd)

private theorem sameKeys_of_reordered {t t' : Node} (h : Reordered t t') :
    Interface.SameKeys t.interface t'.interface := by
  induction h with
  | refl => exact Interface.SameKeys.refl _
  | tail place _ hplace hreorders ih =>
    have hstep :=
      related_putAt Interface.congruence_sameKeys hplace (sameKeys_of_reorders hreorders)
    exact ih.trans hstep

/-- A tree needs the same keys and gives the same keys when the children of nodes in it are put in
another order, whichever nodes these are and however often it is done. -/
theorem interface_reordered {t t' : Node} (h : Reordered t t') :
    t.interface.inputs.sameElements t'.interface.inputs = true ∧
      t.interface.outputs.sameElements t'.interface.outputs = true := by
  have hsame := sameKeys_of_reordered h
  rw [OrderedSet.sameElements_iff, OrderedSet.sameElements_iff]
  exact ⟨hsame.inputs, hsame.outputs⟩

private def prompting (id : NodeId) (inputKeys : List String) (outputKey : String) : Node :=
  leaf (.prompt ⟨id, inputKeys, outputKey, "", "llm"⟩)

/-- A choice behind a step, with a sequence in one of its branches. -/
private def moods : Node :=
  sequence 0 [] [] [prompting 1 ["a"] "b", choice 2 "mood"
    [("sad", sequence 3 [] [] [prompting 4 ["b", "c"] "d", prompting 5 ["d", "e"] "f"]),
      ("glad", prompting 6 ["g"] "f")] (some (prompting 7 ["h"] "f"))]

/-- The choice before the step, the sequence as its fallback, and the steps of that the other way
round. -/
private def reorderedMoods : Node :=
  sequence 0 [] []
    [choice 2 "mood" [("sad", prompting 7 ["h"] "f"), ("glad", prompting 6 ["g"] "f")]
      (some (sequence 3 [] [] [prompting 5 ["d", "e"] "f", prompting 4 ["b", "c"] "d"])),
    prompting 1 ["a"] "b"]

private theorem reordered_moods : Reordered moods reorderedMoods := by
  have hroot : Reordered moods _ := .tail [] .refl rfl (.steps (.swap _ _ []))
  have hchoice : Reordered moods _ := hroot.tail [.step 0] rfl
    (.fallback [] [("glad", prompting 6 ["g"] "f")] _ _)
  exact hchoice.tail [.step 0, .fallback] rfl (.steps (.swap _ _ []))

theorem interface_reordered_moods : Reordered moods reorderedMoods ∧
    moods.interface.inputs.items = ["a", "c", "e", "g", "h"] ∧
    reorderedMoods.interface.inputs.items = ["h", "g", "e", "c", "a"] ∧
    moods.interface.inputs.sameElements reorderedMoods.interface.inputs = true ∧
    moods.interface.outputs.sameElements reorderedMoods.interface.outputs = true := by
  obtain ⟨hinputs, houtputs⟩ := interface_reordered reordered_moods
  exact ⟨reordered_moods, by decide, by decide, hinputs, houtputs⟩

end Node

end PromptChain
