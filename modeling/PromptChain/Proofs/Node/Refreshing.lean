import PromptChain.Proofs.Node.Induction

/-!
# What refreshing a tree changes

Refreshing a tree sets the keys of its sequences and nothing else, and what they become does not
depend on what they were. `unkeyed` is a tree without those keys; two trees that agree without them
are refreshed to one and the same tree.
-/

set_option autoImplicit false

namespace PromptChain.Node

mutual

def unkeyed : Node → Node
  | leaf l => leaf l
  | sequence i _ _ steps => sequence i [] [] (unkeyedSteps steps)
  | choice i key branches fallback =>
    choice i key (unkeyedBranches branches) (unkeyedFallback fallback)

def unkeyedSteps : List Node → List Node
  | [] => []
  | n :: ns => unkeyed n :: unkeyedSteps ns

def unkeyedBranches : List (String × Node) → List (String × Node)
  | [] => []
  | (k, n) :: bs => (k, unkeyed n) :: unkeyedBranches bs

def unkeyedFallback : Option Node → Option Node
  | none => none
  | some n => some (unkeyed n)

end

/-- Two chains, either of which may be missing, that differ at most in the keys of their
sequences. -/
def SameUpToKeys (a b : Option Node) : Prop := a.map unkeyed = b.map unkeyed

private theorem unkeyedSteps_eq (steps : List Node) : unkeyedSteps steps = steps.map unkeyed := by
  induction steps with
  | nil => rfl
  | cons n ns ih => rw [unkeyedSteps, ih, List.map_cons]

private theorem unkeyedBranches_eq (branches : List (String × Node)) :
    unkeyedBranches branches = branches.map fun b => (b.1, b.2.unkeyed) := by
  induction branches with
  | nil => rfl
  | cons b bs ih => rw [unkeyedBranches, ih, List.map_cons]

private theorem unkeyedFallback_eq (fallback : Option Node) :
    unkeyedFallback fallback = fallback.map unkeyed := by
  cases fallback <;> rfl

@[simp] theorem unkeyed_leaf (l : Leaf) : (leaf l).unkeyed = leaf l := rfl

@[simp] theorem unkeyed_sequence (i : NodeId) (ins outs : List String) (steps : List Node) :
    (sequence i ins outs steps).unkeyed = sequence i [] [] (steps.map unkeyed) := by
  rw [unkeyed, unkeyedSteps_eq]

@[simp] theorem unkeyed_choice (i : NodeId) (key : String) (branches : List (String × Node))
    (fallback : Option Node) : (choice i key branches fallback).unkeyed =
      choice i key (branches.map fun b => (b.1, b.2.unkeyed)) (fallback.map unkeyed) := by
  rw [unkeyed, unkeyedBranches_eq, unkeyedFallback_eq]

@[simp] theorem id_unkeyed (t : Node) : t.unkeyed.id = t.id := by
  cases t <;> simp [Node.id]

@[simp] theorem unkeyed_blank (kind : Kind) (id : NodeId) :
    (blank kind id).unkeyed = blank kind id := by
  cases kind <;> rfl

theorem refresh_sequence (i : NodeId) (ins outs : List String) (steps : List Node) :
    (sequence i ins outs steps).refresh =
      sequence i (Interface.ofSteps (interfacesOfSteps (steps.map refresh))).inputs.items
        (Interface.ofSteps (interfacesOfSteps (steps.map refresh))).outputs.items
        (steps.map refresh) := by
  rw [refresh, refreshSteps_eq]

theorem refresh_choice (i : NodeId) (key : String) (branches : List (String × Node))
    (fallback : Option Node) : (choice i key branches fallback).refresh =
      choice i key (branches.map fun b => (b.1, b.2.refresh)) (fallback.map refresh) := by
  rw [refresh, refreshBranches_eq, refreshFallback_eq]

@[simp] theorem id_refresh (t : Node) : t.refresh.id = t.id := by
  cases t <;> rfl

@[simp] theorem kind_refresh (t : Node) : t.refresh.kind = t.kind := by
  cases t <;> rfl

private theorem choice_congr {f g : Node → Node} {branches : List (String × Node)}
    {fallback : Option Node} (hb : ∀ b ∈ branches, f b.2 = g b.2) (hf : ∀ n ∈ fallback, f n = g n)
    (i : NodeId) (key : String) :
    choice i key (branches.map fun b => (b.1, f b.2)) (fallback.map f) =
      choice i key (branches.map fun b => (b.1, g b.2)) (fallback.map g) := by
  have hbranches : (branches.map fun b => (b.1, f b.2)) = branches.map fun b => (b.1, g b.2) :=
    List.map_congr_left fun b hb' => by rw [hb b hb']
  rw [hbranches, Option.map_congr hf]

@[simp] theorem unkeyed_refresh (t : Node) : t.refresh.unkeyed = t.unkeyed := by
  induction t with
  | leaf l => rfl
  | sequence i ins outs steps ih =>
    rw [refresh_sequence, unkeyed_sequence, unkeyed_sequence, List.map_map]
    exact congrArg _ (List.map_congr_left ih)
  | choice i key branches fallback ihb ihf =>
    simp only [refresh_choice, unkeyed_choice, List.map_map, Option.map_map, Function.comp_def]
    exact choice_congr (f := fun n => n.refresh.unkeyed) ihb ihf i key

@[simp] theorem refresh_unkeyed (t : Node) : t.unkeyed.refresh = t.refresh := by
  induction t with
  | leaf l => rfl
  | sequence i ins outs steps ih =>
    have hsteps : (steps.map unkeyed).map refresh = steps.map refresh := by
      rw [List.map_map]
      exact List.map_congr_left ih
    rw [unkeyed_sequence, refresh_sequence, refresh_sequence, hsteps]
  | choice i key branches fallback ihb ihf =>
    simp only [refresh_choice, unkeyed_choice, List.map_map, Option.map_map, Function.comp_def]
    exact choice_congr (f := fun n => n.unkeyed.refresh) ihb ihf i key

theorem refresh_eq_refresh_iff (m n : Node) : m.refresh = n.refresh ↔ m.unkeyed = n.unkeyed := by
  constructor
  · intro h
    rw [← unkeyed_refresh m, h, unkeyed_refresh]
  · intro h
    rw [← refresh_unkeyed m, h, refresh_unkeyed]

@[simp] theorem refresh_refresh (t : Node) : t.refresh.refresh = t.refresh := by
  rw [refresh_eq_refresh_iff, unkeyed_refresh]

theorem sameUpToKeys_refresh (a : Option Node) : SameUpToKeys (a.map refresh) a := by
  cases a <;> simp [SameUpToKeys]

theorem SameUpToKeys.map_refresh_eq {a b : Option Node} (h : SameUpToKeys a b) :
    a.map refresh = b.map refresh := by
  have hunkeyed : ∀ c : Option Node, (c.map unkeyed).map refresh = c.map refresh := fun c => by
    cases c <;> simp
  rw [← hunkeyed a, ← hunkeyed b, h]

end PromptChain.Node
