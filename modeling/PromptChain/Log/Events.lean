import PromptChain.Log.Basic
import PromptChain.Session.Basic

/-!
# What is reported

An edit of a session reports what came of it, also when it came to nothing; so does a revision that
is opened or saved. A step that fails reports nothing.
-/

set_option autoImplicit false

namespace PromptChain

namespace Log

def targetMissing (parent : NodeId) : Event where
  level := .debug
  target := "chainspec::control::mutate"
  message := "insert target not found, ignoring"
  fields := [("parent_id", .id parent)]

def targetClosed (parent : NodeId) (kind : Kind) : Event where
  level := .debug
  target := "chainspec::control::mutate"
  message := "insert target does not accept children, ignoring"
  fields := [("parent_id", .id parent), ("chain_type", .name kind.name)]

def nodeInserted (newId parent : NodeId) (index : Nat) (kind : Kind) : Event where
  level := .debug
  target := "chainspec::session"
  message := "inserted chain"
  fields := [("new_id", .id newId), ("parent_id", .id parent), ("index", .number index),
    ("chain_type", .name kind.name)]

def nodeDeleted (id : NodeId) : Event where
  level := .debug
  target := "chainspec::session"
  message := "deleted chain"
  fields := [("chain_id", .id id)]

def revisionLoaded (s : Session) : Event where
  level := .info
  target := "chainspec::session"
  message := "loaded revision"
  fields := [("chain", .name s.name), ("next_chain_id", .id s.nextId)]

def revisionSaved (path : String) : Event where
  level := .info
  target := "chainspec::revision"
  message := "saved revision"
  fields := [("path", .text path)]

def bareChainLoaded (path : String) : Event where
  level := .debug
  target := "chainspec_cli"
  message := "loaded bare chain"
  fields := [("path", .text path)]

end Log

open Log (Event)

/-- What an insertion below a node reports of the tree; a first node is inserted without a
parent. -/
def Node.insertLog (tree : Option Node) (parent : NodeId) : List Event :=
  match tree with
  | none => []
  | some t =>
    match t.find? parent with
    | none => [Log.targetMissing parent]
    | some n => if n.kind.acceptsChildren then [] else [Log.targetClosed parent n.kind]

def Session.insertLog (s : Session) (kindName : String) (parent : NodeId) (index : Nat) :
    List Event :=
  match Kind.ofName kindName, Node.nextId s.working s.nextId with
  | .ok kind, .ok newId =>
    Node.insertLog s.working parent ++
      if ((Node.insert s.working newId kind parent index).find? newId).isSome then
        [Log.nodeInserted newId parent index kind]
      else []
  | _, _ => []

end PromptChain
