import PromptChain.Node.Edit
import PromptChain.Interface

/-!
# Scripts of edits

An `Edit` is one operation on a chain that may be missing; a script is a list of edits. Only a
replacement can miss its node, in which case it changes nothing.
-/

set_option autoImplicit false

namespace PromptChain

inductive Edit where
  | insert (newId : NodeId) (kind : Kind) (parent : NodeId) (index : Nat)
  | delete (id : NodeId)
  | replace (node : Node)
  | refresh

namespace Edit

def apply (tree : Option Node) : Edit → Option Node
  | insert newId kind parent index => some (Node.insert tree newId kind parent index)
  | delete id => tree.bind (Node.delete id)
  | replace node =>
    match tree.bind (Node.replace? node) with
    | some t => some t
    | none => tree
  | refresh => tree.map Node.refresh

/-- Whether an edit finds the node that it replaces, if it replaces one. -/
def finds (tree : Option Node) : Edit → Bool
  | replace node => (tree.bind (Node.replace? node)).isSome
  | _ => true

def applyAll (tree : Option Node) (script : List Edit) : Option Node := script.foldl apply tree

@[simp] theorem applyAll_nil (tree : Option Node) : applyAll tree [] = tree := rfl

@[simp] theorem applyAll_cons (tree : Option Node) (edit : Edit) (script : List Edit) :
    applyAll tree (edit :: script) = applyAll (apply tree edit) script := rfl

theorem apply_of_not_finds {tree : Option Node} {edit : Edit} (h : edit.finds tree = false) :
    edit.apply tree = tree := by
  cases edit with
  | replace node =>
    rw [finds, Option.isSome_eq_false_iff, Option.isNone_iff_eq_none] at h
    rw [apply, h]
  | _ => simp [finds] at h

end Edit

end PromptChain
