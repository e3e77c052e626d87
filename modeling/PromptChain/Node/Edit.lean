import PromptChain.Node.Blank
import PromptChain.Decimal.Layout

/-!
# Editing a chain

A node is addressed by its id. Of several nodes with one id the first counts, and a fallback is
searched before the branches. Every operation gives a new tree.
-/

set_option autoImplicit false

namespace PromptChain.Node

mutual

def find? (target : NodeId) : Node → Option Node
  | leaf l => if l.id = target then some (leaf l) else none
  | sequence i ins outs steps =>
    if i = target then some (sequence i ins outs steps) else findInSteps target steps
  | choice i key branches fallback =>
    if i = target then some (choice i key branches fallback)
    else match findInFallback target fallback with
      | some n => some n
      | none => findInBranches target branches

def findInSteps (target : NodeId) : List Node → Option Node
  | [] => none
  | n :: ns => match find? target n with
    | some m => some m
    | none => findInSteps target ns

def findInBranches (target : NodeId) : List (String × Node) → Option Node
  | [] => none
  | (_, n) :: bs => match find? target n with
    | some m => some m
    | none => findInBranches target bs

def findInFallback (target : NodeId) : Option Node → Option Node
  | none => none
  | some n => find? target n

end

mutual

/-- Change the first node with an id; nothing if there is none. -/
def change? (target : NodeId) (f : Node → Node) : Node → Option Node
  | leaf l => if l.id = target then some (f (leaf l)) else none
  | sequence i ins outs steps =>
    if i = target then some (f (sequence i ins outs steps))
    else (changeInSteps target f steps).map (sequence i ins outs)
  | choice i key branches fallback =>
    if i = target then some (f (choice i key branches fallback))
    else match changeInFallback target f fallback with
      | some n => some (choice i key branches (some n))
      | none => (changeInBranches target f branches).map fun bs => choice i key bs fallback

def changeInSteps (target : NodeId) (f : Node → Node) : List Node → Option (List Node)
  | [] => none
  | n :: ns => match change? target f n with
    | some m => some (m :: ns)
    | none => (changeInSteps target f ns).map (n :: ·)

def changeInBranches (target : NodeId) (f : Node → Node) :
    List (String × Node) → Option (List (String × Node))
  | [] => none
  | (k, n) :: bs => match change? target f n with
    | some m => some ((k, m) :: bs)
    | none => (changeInBranches target f bs).map ((k, n) :: ·)

def changeInFallback (target : NodeId) (f : Node → Node) : Option Node → Option Node
  | none => none
  | some n => change? target f n

end

/-- The `n`-th label for a branch with this id: `case text 7`, `case text 7 (2)`,
`case text 7 (3)`. -/
def branchLabel (id : NodeId) (n : Nat) : String :=
  let base := "case text " ++ String.ofList (Decimal.naturalText id.toNat)
  if n = 0 then base else base ++ " (" ++ String.ofList (Decimal.naturalText (n + 1)) ++ ")"

/-- The first label from the `n`-th on that no branch bears. One more try than there are branches is
always enough. -/
def freeLabelFrom (branches : List (String × Node)) (id : NodeId) : (tries n : Nat) → String
  | 0, n => branchLabel id n
  | tries + 1, n =>
    if Entries.has branches (branchLabel id n) then freeLabelFrom branches id tries (n + 1)
    else branchLabel id n

/-- The first label for a branch with this id that no branch bears yet. -/
def freeLabel (branches : List (String × Node)) (id : NodeId) : String :=
  freeLabelFrom branches id branches.length 0

/-- Add a new node below a sequence or a choice, before the child at `index` or at the end; a leaf
stays as it is. -/
def addChild (child : Node) (index : Nat) : Node → Node
  | leaf l => leaf l
  | sequence i ins outs steps => sequence i ins outs (steps.take index ++ child :: steps.drop index)
  | choice i key branches fallback =>
    choice i key
      (branches.take index ++ (freeLabel branches child.id, child) :: branches.drop index) fallback

/-- Insert a new node below `parent`. Without a tree the new node is the tree; with no such parent,
or a leaf for one, the tree stays as it is. -/
def insert (tree : Option Node) (newId : NodeId) (kind : Kind) (parent : NodeId) (index : Nat) :
    Node :=
  match tree with
  | none => blank kind newId
  | some root => (change? parent (addChild (blank kind newId) index) root).getD root

mutual

/-- The tree without the nodes that bear an id, and without what is below them. -/
def delete (target : NodeId) : Node → Option Node
  | leaf l => if l.id = target then none else some (leaf l)
  | sequence i ins outs steps =>
    if i = target then none else some (sequence i ins outs (deleteInSteps target steps))
  | choice i key branches fallback =>
    if i = target then none
    else some (choice i key (deleteInBranches target branches) (deleteInFallback target fallback))

def deleteInSteps (target : NodeId) : List Node → List Node
  | [] => []
  | n :: ns => (delete target n).toList ++ deleteInSteps target ns

def deleteInBranches (target : NodeId) : List (String × Node) → List (String × Node)
  | [] => []
  | (k, n) :: bs => ((delete target n).map ((k, ·))).toList ++ deleteInBranches target bs

def deleteInFallback (target : NodeId) : Option Node → Option Node
  | none => none
  | some n => delete target n

end

/-- Put a node in the place of the first node with its id; nothing if there is none. -/
def replace? (node : Node) (tree : Node) : Option Node := change? node.id (fun _ => node) tree

end PromptChain.Node
