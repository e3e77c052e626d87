import PromptChain.Node.Script
import PromptChain.Proofs.Node.FreshIds
import PromptChain.Proofs.Node.Insertion

/-!
# Which edits keep ids distinct

A deletion always does, an insertion exactly when its id is new or it is refused, a replacement
exactly when its node repeats no id, neither its own nor one that stays. So a tree that is grown
from nothing, by insertions of the next id and by deletions, never repeats an id.
-/

set_option autoImplicit false

namespace PromptChain

/-- A step in the growth of a tree: an insertion of the next id from a floor on, or a deletion. -/
inductive Growth where
  | insert (floor : NodeId) (kind : Kind) (parent : NodeId) (index : Nat)
  | delete (id : NodeId)

namespace Growth

/-- The tree after a step; an insertion for which no id is left changes nothing. -/
def apply (tree : Option Node) : Growth → Option Node
  | insert floor kind parent index =>
    match Node.nextId tree floor with
    | .ok newId => (Edit.insert newId kind parent index).apply tree
    | .error _ => tree
  | delete id => (Edit.delete id).apply tree

def grow (steps : List Growth) : Option Node := steps.foldl apply none

theorem idsDistinct_apply {tree : Option Node} (h : ∀ t ∈ tree, t.IdsDistinct) (step : Growth) :
    ∀ t ∈ step.apply tree, t.IdsDistinct := by
  cases step with
  | insert floor kind parent index =>
    rw [apply]
    split
    · next newId hnext =>
      intro t ht
      obtain rfl := Option.some.inj ht
      cases tree with
      | none => simp [Node.insert, Node.IdsDistinct]
      | some root =>
        have hnew := Node.not_mem_ids_of_nextId hnext
        exact Node.idsDistinct_insert (h root rfl) hnew kind parent index
    · exact h
  | delete id =>
    intro t ht
    obtain ⟨root, hroot, hdelete⟩ := Option.bind_eq_some_iff.1 ht
    exact Node.idsDistinct_delete (h root hroot) hdelete

private theorem idsDistinct_foldl_apply (steps : List Growth) {tree : Option Node}
    (h : ∀ t ∈ tree, t.IdsDistinct) : ∀ t ∈ steps.foldl apply tree, t.IdsDistinct := by
  induction steps generalizing tree with
  | nil => exact h
  | cons step steps ih => exact ih (idsDistinct_apply h step)

theorem idsDistinct_grow (steps : List Growth) : ∀ t ∈ grow steps, t.IdsDistinct :=
  idsDistinct_foldl_apply steps nofun

end Growth

namespace Node

theorem idsDistinct_apply_replace_iff {t : Node} (h : t.IdsDistinct) (node : Node) :
    ∃ t', (Edit.replace node).apply (some t) = some t' ∧ (t'.IdsDistinct ↔ node.FitsInto t) := by
  rw [Edit.apply, Option.bind_some]
  cases hreplace : replace? node t with
  | some t' => exact ⟨t', rfl, idsDistinct_replace_iff h hreplace⟩
  | none =>
    -- There is nothing to fit into: a search that came to a node would have replaced it.
    refine ⟨t, rfl, iff_of_true h fun m hm => ?_⟩
    obtain ⟨rest, -, hchanged⟩ := exists_ids_of_find? hm
    obtain ⟨t', ht', -⟩ := hchanged fun _ => node
    rw [replace?, ht'] at hreplace
    contradiction

/-- Which edits of a tree with distinct ids leave them distinct: every deletion; an insertion when
its id is new to the tree, or when the parent is missing or a leaf; a replacement when no node has
its id, or when the ids of the new node are distinct and none of them stands outside the node that
it replaces. Every tree that grows by insertions of next ids and by deletions passes the check of
its ids. -/
theorem idsDistinct_edits_iff :
    (∀ t : Node, t.IdsDistinct →
      (∀ id, ∀ t' ∈ delete id t, t'.IdsDistinct) ∧
      (∀ newId kind parent index,
        (insert (some t) newId kind parent index).IdsDistinct ↔
          newId ∉ t.ids ∨ ∀ m ∈ t.nodes, m.id = parent → m.kind.acceptsChildren = false) ∧
      ∀ node, ∃ t', (Edit.replace node).apply (some t) = some t' ∧
        (t'.IdsDistinct ↔ node.id ∉ t.ids ∨ node.IdsDistinct ∧
          ∀ m ∈ t.nodes, m.id = node.id → ∀ j ∈ node.ids, j ∈ t.ids → j ∈ m.ids)) ∧
    ∀ steps, ∀ t ∈ Growth.grow steps, t.checkIds = .ok () := by
  refine ⟨fun t h => ⟨fun id t' ht' => ?_, fun newId kind parent index => ?_, fun node => ?_⟩, ?_⟩
  · exact idsDistinct_delete h ht'
  · rw [idsDistinct_insert_iff h, refuses_iff h]
  · obtain ⟨t', ht', hiff⟩ := idsDistinct_apply_replace_iff h node
    exact ⟨t', ht', by rw [hiff, fitsInto_iff h]⟩
  · intro steps t ht
    exact (checkIds_eq_ok_iff t).2 (Growth.idsDistinct_grow steps t ht)

private def nested : Node :=
  .sequence 0 [] [] [.choice 1 "" [("a", .blank .prompt 2)] (some (.blank .chat 3)), .blank .api 4]

-- Along a list, a condition on its ids is decided without a look at all ids there are.
private instance (l : List NodeId) (P : NodeId → Prop) [DecidablePred P] :
    Decidable (∀ j ∈ l, P j) :=
  List.decidableBAll P l

theorem idsDistinct_edits_nested : nested.IdsDistinct ∧
    (insert (some nested) 4 .prompt 3 0).IdsDistinct ∧
    ¬ (insert (some nested) 4 .prompt 1 0).IdsDistinct ∧
    (∀ t ∈ (Edit.replace (.sequence 1 [] [] [.blank .chat 3])).apply (some nested), t.IdsDistinct) ∧
    ∀ t ∈ (Edit.replace (.sequence 1 [] [] [.blank .chat 4])).apply (some nested),
      ¬ t.IdsDistinct := by
  have h : nested.IdsDistinct := by decide
  obtain ⟨-, hinsert, hreplace⟩ := idsDistinct_edits_iff.1 nested h
  refine ⟨h, (hinsert 4 .prompt 3 0).2 (.inr (by decide)), ?_, fun t ht => ?_, fun t ht => ?_⟩
  · rw [hinsert]
    decide
  · obtain ⟨t', ht', hiff⟩ := hreplace (.sequence 1 [] [] [.blank .chat 3])
    obtain rfl := Option.some.inj (ht'.symm.trans ht)
    rw [hiff]
    decide
  · obtain ⟨t', ht', hiff⟩ := hreplace (.sequence 1 [] [] [.blank .chat 4])
    obtain rfl := Option.some.inj (ht'.symm.trans ht)
    rw [hiff]
    decide

end Node

end PromptChain
