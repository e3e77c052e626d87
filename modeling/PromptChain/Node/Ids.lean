import PromptChain.Node.Basic
import PromptChain.Fault

/-!
# Ids

The next free id lies above every id of the tree, until the greatest id is taken. `duplicateId?`
names the first node, in the order of the tree, whose id an earlier node bears.
-/

set_option autoImplicit false

namespace PromptChain.Node

def greatestId : NodeId := 0xFFFFFFFFFFFFFFFF

def maxId (n : Node) : NodeId := n.ids.foldl max n.id

/-- The least id that is at least `floor` and greater than all ids of the tree. -/
def nextId (tree : Option Node) (floor : NodeId) : Except Fault NodeId :=
  match tree with
  | none => .ok floor
  | some root =>
    if root.maxId = greatestId then .error (.idsExhausted root.maxId)
    else .ok (max floor (root.maxId + 1))

/-- The first element of a list that stands among those before it or in `seen`. -/
def firstRepeated? (seen : List NodeId) : List NodeId → Option NodeId
  | [] => none
  | i :: is => if i ∈ seen then some i else firstRepeated? (i :: seen) is

/-- The first id, in the order of the tree, that an earlier node bears. -/
def duplicateId? (n : Node) : Option NodeId := firstRepeated? [] n.ids

def checkIds (n : Node) : Except Fault Unit :=
  match n.duplicateId? with
  | some i => .error (.duplicateId i)
  | none => .ok ()

end PromptChain.Node
