import PromptChain.Kind
import PromptChain.Entries
import PromptChain.Json.Basic

/-!
# Chains as trees

A chain is a tree of nodes, each with an id. Six kinds of node are leaves; a `sequence` runs its
steps in turn, and a `choice` runs one of its labelled branches, or its fallback. `Node.nodes` lists
a tree in order: a node before its children, branches before the fallback.
-/

set_option autoImplicit false

namespace PromptChain

abbrev NodeId := UInt64

structure Prompt where
  id : NodeId
  inputKeys : List String
  outputKey : String
  prompt : String
  llmKey : String
deriving DecidableEq

structure Chat where
  id : NodeId
  inputKeys : List String
  outputKey : String
  prompt : String
  role : String
  llmKey : String
deriving DecidableEq

structure ApiCall where
  id : NodeId
  url : String
  method : String
  headers : Option (List (String × String))
  body : Option String
  inputKeys : List String
  outputKey : String
deriving DecidableEq

structure VectorSearch where
  id : NodeId
  query : String
  embeddingEngine : String
  embeddingParams : List (String × Json)
  database : String
  databaseParams : List (String × Json)
  numResults : UInt32
  minScore : Float
  inputVariables : List String
  outputKey : String

structure Reformat where
  id : NodeId
  formatters : List (String × String)
  inputKeys : List String
deriving DecidableEq

structure Transform where
  id : NodeId
  function : String
  inputKeys : List String
  outputKeys : List String
deriving DecidableEq

inductive Leaf where
  | prompt (p : Prompt)
  | chat (c : Chat)
  | api (a : ApiCall)
  | vectorSearch (v : VectorSearch)
  | reformat (r : Reformat)
  | transform (t : Transform)

namespace Leaf

def id : Leaf → NodeId
  | prompt p => p.id
  | chat c => c.id
  | api a => a.id
  | vectorSearch v => v.id
  | reformat r => r.id
  | transform t => t.id

def kind : Leaf → Kind
  | prompt _ => .prompt
  | chat _ => .chat
  | api _ => .api
  | vectorSearch _ => .vectorSearch
  | reformat _ => .reformat
  | transform _ => .transform

end Leaf

inductive Node where
  | leaf (leaf : Leaf)
  | sequence (id : NodeId) (inputKeys outputKeys : List String) (steps : List Node)
  | choice (id : NodeId) (key : String) (branches : List (String × Node)) (fallback : Option Node)

namespace Node

def id : Node → NodeId
  | leaf l => l.id
  | sequence i _ _ _ => i
  | choice i _ _ _ => i

def kind : Node → Kind
  | leaf l => l.kind
  | sequence _ _ _ _ => .sequence
  | choice _ _ _ _ => .choice

def children : Node → List Node
  | leaf _ => []
  | sequence _ _ _ steps => steps
  | choice _ _ branches fallback => branches.map (·.2) ++ fallback.toList

mutual

/-- A tree as the list of its nodes, each with everything below it. -/
def nodes : Node → List Node
  | leaf l => [leaf l]
  | sequence i ins outs steps => sequence i ins outs steps :: nodesOfSteps steps
  | choice i key branches fallback =>
    choice i key branches fallback :: (nodesOfBranches branches ++ nodesOfFallback fallback)

def nodesOfSteps : List Node → List Node
  | [] => []
  | n :: ns => nodes n ++ nodesOfSteps ns

def nodesOfBranches : List (String × Node) → List Node
  | [] => []
  | (_, n) :: bs => nodes n ++ nodesOfBranches bs

def nodesOfFallback : Option Node → List Node
  | none => []
  | some n => nodes n

end

def ids (n : Node) : List NodeId := n.nodes.map id

@[simp] theorem ids_leaf (l : Leaf) : (leaf l).ids = [l.id] := rfl

@[simp] theorem ids_sequence (i : NodeId) (ins outs : List String) (steps : List Node) :
    (sequence i ins outs steps).ids = i :: (nodesOfSteps steps).map id := rfl

@[simp] theorem ids_choice (i : NodeId) (key : String) (branches : List (String × Node))
    (fallback : Option Node) : (choice i key branches fallback).ids =
      i :: ((nodesOfBranches branches).map id ++ (nodesOfFallback fallback).map id) := by
  simp [ids, nodes, Node.id]

theorem id_mem_ids (n : Node) : n.id ∈ n.ids := by
  cases n <;> simp [Node.id]

def size (n : Node) : Nat := n.nodes.length

@[simp] theorem length_ids (n : Node) : n.ids.length = n.size := List.length_map id

/-- The id of every node is its own. -/
def IdsDistinct (n : Node) : Prop := n.ids.Nodup

end Node

end PromptChain
