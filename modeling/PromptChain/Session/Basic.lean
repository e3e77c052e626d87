import PromptChain.Config
import PromptChain.Json.Image

/-!
# Editing sessions

A session holds a chain twice: the baseline, as it was last loaded or saved, and the working tree
that edits replace; and so its language models. `nextId` is a lower bound for the ids still to be
given. An operation that fails leaves the session as it is.
-/

set_option autoImplicit false

namespace PromptChain

structure Session where
  name : String
  parent : Option String
  baseline : Option Node
  working : Option Node
  nextId : NodeId
  savedLlms : Llms
  llms : Llms
  interacting : Bool

namespace Session

inductive Fault where
  | nodeMissing (id : NodeId)
  | noChain
  | noName
  | chain (cause : PromptChain.Fault)
deriving DecidableEq

def Fault.message : Fault → String
  | nodeMissing id =>
    "Chain " ++ idText id ++
      " was not found in the working tree; the editor is out of sync with the model"
  | noChain => "There is no chain to save"
  | noName => "No chain name has been chosen"
  | chain cause => cause.message

def liftFault {α : Type} : Except PromptChain.Fault α → Except Fault α
  | .ok a => .ok a
  | .error cause => .error (.chain cause)

def new (config : Config) : Session where
  name := config.defaultName.getD ""
  parent := none
  baseline := none
  working := none
  nextId := 0
  savedLlms := config.llms
  llms := config.llms
  interacting := false

def afterId (id : NodeId) : NodeId := if id = Node.greatestId then id else id + 1

/-- Insert a new node and give its id; nothing if the parent is missing or a leaf. -/
def insert (s : Session) (kindName : String) (parent : NodeId) (index : Nat) :
    Except Fault (Option NodeId × Session) := do
  let kind ← liftFault (Kind.ofName kindName)
  let newId ← liftFault (Node.nextId s.working s.nextId)
  let tree := Node.insert s.working newId kind parent index
  if (tree.find? newId).isNone then return (none, s)
  return (some newId, { s with working := some tree, nextId := afterId newId })

def delete (s : Session) (id : NodeId) : Session :=
  { s with working := s.working.bind (Node.delete id) }

def update (s : Session) (node : Node) : Except Fault Session :=
  match s.working.bind (Node.replace? node) with
  | some tree => .ok { s with working := some tree }
  | none => .error (.nodeMissing node.id)

def find? (s : Session) (id : NodeId) : Option Node := s.working.bind (Node.find? id)

def interface? (s : Session) : Option Interface := s.working.map Node.interface

def setLlms (s : Session) (llms : Llms) : Session := { s with llms }

def setName (s : Session) (name : String) : Session := { s with name }

def toggle (s : Session) : Session := { s with interacting := !s.interacting }

def isActive (s : Session) : Bool := !s.name.isEmpty

def treeImage (tree : Option Node) : Json := Json.ofOption Node.toJson tree

/-- Whether nothing is left to save, as far as the written forms tell. -/
def isReady (s : Session) : Bool :=
  Json.sameImage (some (treeImage s.baseline)) (some (treeImage s.working)) &&
  Json.sameImage (some s.savedLlms.toJson) (some s.llms.toJson)

def load (s : Session) (name : String) (r : Revision) : Except Fault Session := do
  liftFault r.chain.checkIds
  let nextId ← liftFault (Node.nextId (some r.chain) 0)
  return { s with
    name, nextId, parent := r.id, baseline := some r.chain, working := some r.chain,
    savedLlms := r.llms, llms := r.llms }

/-- The working tree as a revision that derives from the last stored one. -/
def build (s : Session) : Except Fault Revision :=
  if !s.isActive then .error .noName
  else match s.working with
    | none => .error .noChain
    | some tree => .ok (.create s.parent tree s.llms)

def markSaved (s : Session) (id : String) (r : Revision) : Session :=
  { s with
    parent := some id, baseline := some r.chain, working := some r.chain, savedLlms := r.llms,
    llms := r.llms }

def reset (s : Session) : Session := { s with working := s.baseline, llms := s.savedLlms }

end Session

end PromptChain
