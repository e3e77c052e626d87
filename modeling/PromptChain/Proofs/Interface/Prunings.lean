import PromptChain.Proofs.Interface.Membership
import Mathlib.Data.List.Forall2

/-!
# What a chain gives whichever branches run

A run takes one branch of every choice it comes to. `Pruning t p` says that `p` is `t` with one
branch left of every choice that has any. What a tree is said to give is exactly what all its
prunings give, and it is said to need whatever a pruning needs.
-/

set_option autoImplicit false

namespace PromptChain.Node

/-- A tree in which every choice that has branches is reduced to one of them. The branch is taken
anew at every choice; a choice without branches stays as it is. -/
inductive Pruning : Node → Node → Prop where
  | leaf (l : Leaf) : Pruning (leaf l) (leaf l)
  | sequence {i : NodeId} {ins outs : List String} {steps kept : List Node} :
      List.Forall₂ Pruning steps kept →
        Pruning (sequence i ins outs steps) (sequence i ins outs kept)
  | bare (i : NodeId) (key : String) : Pruning (choice i key [] none) (choice i key [] none)
  | branch {i : NodeId} {key label : String} {branches : List (String × Node)}
      {fallback : Option Node} {n p : Node} : (label, n) ∈ branches → Pruning n p →
      Pruning (choice i key branches fallback) (choice i key [(label, p)] none)
  | fallback {i : NodeId} {key : String} {branches : List (String × Node)} {n p : Node} :
      Pruning n p → Pruning (choice i key branches (some n)) (choice i key [] (some p))

private theorem Pruning.of_child {i : NodeId} {key : String} {branches : List (String × Node)}
    {fallback : Option Node} {n p : Node} (hn : n ∈ (choice i key branches fallback).children)
    (hp : Pruning n p) : ∃ q, Pruning (choice i key branches fallback) q ∧ q.children = [p] := by
  simp only [children, List.mem_append, List.mem_map, Option.mem_toList] at hn
  rcases hn with ⟨⟨label, m⟩, hm, rfl⟩ | hn
  · exact ⟨_, .branch hm hp, rfl⟩
  · cases hn
    exact ⟨_, .fallback hp, rfl⟩

private theorem Pruning.choice_cases {i : NodeId} {key : String} {branches : List (String × Node)}
    {fallback : Option Node} {q : Node} (h : Pruning (choice i key branches fallback) q) :
    q = choice i key branches fallback ∨ ∃ bs fb n p, q = choice i key bs fb ∧
      (choice i key bs fb).children = [p] ∧ n ∈ (choice i key branches fallback).children ∧
      Pruning n p := by
  cases h with
  | bare => exact .inl rfl
  | @branch _ _ label _ _ n p hmem hp =>
    refine .inr ⟨[(label, p)], none, n, p, rfl, rfl, ?_, hp⟩
    simp only [children, List.mem_append, List.mem_map]
    exact .inl ⟨(label, n), hmem, rfl⟩
  | @fallback _ _ _ n p hp =>
    exact .inr ⟨[], some p, n, p, rfl, rfl, by simp [children], hp⟩

private theorem exists_forall₂_of_forall_exists {R : Node → Node → Prop} {steps : List Node}
    (h : ∀ n ∈ steps, ∃ p, R n p) : ∃ kept, List.Forall₂ R steps kept := by
  induction steps with
  | nil => exact ⟨[], .nil⟩
  | cons n ns ih =>
    obtain ⟨p, hp⟩ := h n List.mem_cons_self
    obtain ⟨ps, hps⟩ := ih fun m hm => h m (List.mem_cons_of_mem n hm)
    exact ⟨p :: ps, .cons hp hps⟩

private theorem exists_left_of_forall₂ {R : Node → Node → Prop} {ns ps : List Node}
    (h : List.Forall₂ R ns ps) : ∀ p ∈ ps, ∃ n ∈ ns, R n p :=
  exists_right_of_forall₂ h.flip

/-- A pruning gives what the tree gives, and needs nothing that the tree does not need: the more is
given, the less is needed, so both go by one induction. -/
theorem Pruning.gives_needs (t : Node) :
    ∀ p, Pruning t p → ∀ key, (t.Gives key → p.Gives key) ∧ (p.Needs key → t.Needs key) := by
  induction t with
  | leaf l =>
    intro p h key
    cases h
    exact ⟨fun hg => hg, fun hn => hn⟩
  | sequence i ins outs steps ih =>
    intro p h key
    cases h with
    | @sequence _ _ _ _ kept hk =>
      have hgives : (Node.sequence i ins outs steps).Gives key →
          (Node.sequence i ins outs kept).Gives key := by
        intro hg
        obtain ⟨n, hn, hng⟩ := gives_sequence.1 hg
        obtain ⟨q, hq, hnq⟩ := exists_right_of_forall₂ hk n hn
        exact gives_sequence.2 ⟨q, hq, (ih n hn q hnq key).1 hng⟩
      refine ⟨hgives, fun hneeds => ?_⟩
      obtain ⟨⟨q, hq, hqn⟩, hnone⟩ := needs_sequence.1 hneeds
      obtain ⟨n, hn, hnq⟩ := exists_left_of_forall₂ hk q hq
      refine needs_sequence.2 ⟨⟨n, hn, (ih n hn q hnq key).2 hqn⟩, fun m hm hmg => ?_⟩
      obtain ⟨r, hr, hrg⟩ := gives_sequence.1 (hgives (gives_sequence.2 ⟨m, hm, hmg⟩))
      exact hnone r hr hrg
  | choice i label branches fallback ihb ihf =>
    intro p h key
    rcases h.choice_cases with rfl | ⟨bs, fb, n, q, rfl, hq, hn, hnq⟩
    · exact ⟨fun hg => hg, fun hn => hn⟩
    · have ih : (n.Gives key → q.Gives key) ∧ (q.Needs key → n.Needs key) := by
        simp only [children, List.mem_append, List.mem_map, Option.mem_toList] at hn
        rcases hn with ⟨b, hb, rfl⟩ | hn
        · exact ihb b hb q hnq key
        · exact ihf n hn q hnq key
      refine ⟨fun hg => ?_, fun hneeds => ?_⟩
      · rw [gives_choice, hq]
        refine ⟨by simp, ?_⟩
        simpa using ih.1 ((gives_choice.1 hg).2 n hn)
      · rw [needs_choice, hq] at hneeds
        exact needs_choice.2 ⟨n, hn, ih.2 (by simpa using hneeds)⟩

/-- What a tree is not sure to give is missing from one of its prunings. In a sequence the choices
of the steps are free of each other, so one pruning misses the key in every step at once. -/
theorem Pruning.exists_not_gives (t : Node) (key : String) :
    ¬ t.Gives key → ∃ p, Pruning t p ∧ ¬ p.Gives key := by
  induction t with
  | leaf l => exact fun h => ⟨.leaf l, .leaf l, h⟩
  | sequence i ins outs steps ih =>
    intro h
    have hsteps : ∀ n ∈ steps, ∃ p, Pruning n p ∧ ¬ p.Gives key :=
      fun n hn => ih n hn fun hg => h (gives_sequence.2 ⟨n, hn, hg⟩)
    obtain ⟨kept, hk⟩ := exists_forall₂_of_forall_exists hsteps
    refine ⟨.sequence i ins outs kept, .sequence (hk.imp fun _ _ h => h.1), fun hg => ?_⟩
    obtain ⟨p, hp, hpg⟩ := gives_sequence.1 hg
    obtain ⟨n, -, hnp⟩ := exists_left_of_forall₂ hk p hp
    exact hnp.2 hpg
  | choice i label branches fallback ihb ihf =>
    intro h
    by_cases hbare : (choice i label branches fallback).children = []
    · obtain ⟨rfl, rfl⟩ : branches = [] ∧ fallback = none := by simpa [children] using hbare
      exact ⟨_, .bare i label, h⟩
    · obtain ⟨n, hn, hng⟩ : ∃ n ∈ (choice i label branches fallback).children, ¬ n.Gives key := by
        simpa [gives_choice, hbare] using h
      have ih : ∃ p, Pruning n p ∧ ¬ p.Gives key := by
        simp only [children, List.mem_append, List.mem_map, Option.mem_toList] at hn
        rcases hn with ⟨b, hb, rfl⟩ | hn
        · exact ihb b hb hng
        · exact ihf n hn hng
      obtain ⟨p, hp, hpg⟩ := ih
      obtain ⟨q, hq, hqc⟩ := Pruning.of_child hn hp
      refine ⟨q, hq, fun hg => hpg ?_⟩
      rcases hq.choice_cases with rfl | ⟨bs, fb, -, -, rfl, -, -, -⟩ <;>
        exact (gives_choice.1 hg).2 p (hqc ▸ List.mem_cons_self)

/-- The outputs of a chain are exactly the keys that every pruning of it gives, and its inputs hold
every key that a pruning needs. -/
theorem interface_covers_prunings (t : Node) :
    (∀ key, key ∈ t.interface.outputs.items ↔
      ∀ p, Pruning t p → key ∈ p.interface.outputs.items) ∧
    ∀ p, Pruning t p → ∀ key ∈ p.interface.inputs.items, key ∈ t.interface.inputs.items := by
  refine ⟨fun key => ⟨fun h p hp => (Pruning.gives_needs t p hp key).1 h, fun h => ?_⟩,
    fun p hp key => (Pruning.gives_needs t p hp key).2⟩
  by_contra hg
  obtain ⟨p, hp, hpg⟩ := Pruning.exists_not_gives t key hg
  exact hpg (h p hp)

end PromptChain.Node
