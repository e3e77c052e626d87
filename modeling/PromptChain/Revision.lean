import PromptChain.Node.Document
import PromptChain.Node.Edit
import PromptChain.Node.Ids
import PromptChain.Node.Same
import PromptChain.Interface
import PromptChain.Llm

/-!
# Revisions

A revision is a chain with its language models, its own id once it is stored, and the id of the
revision it derives from. A revision is made with the keys of its sequences up to date; one that is
read must have distinct ids.
-/

set_option autoImplicit false

namespace PromptChain

open Json (Decoder Reading Reader TextFields ValueFields required defaulted)

/-- A chain with its language models and its lineage. -/
structure Revision where
  id : Option String
  parent : Option String
  chain : Node
  llms : Llms

namespace Revision

def create (parent : Option String) (chain : Node) (llms : Llms) : Revision :=
  { id := none, parent, chain := chain.refresh, llms }

/-- The revision that replaces one node by another with the same id. -/
def patch (r : Revision) (node : Node) : Except Fault Revision :=
  match Node.replace? node r.chain with
  | none => .error (.patchTargetMissing node.id)
  | some chain => do
    chain.checkIds
    return create r.id chain r.llms

def same (a b : Revision) : Bool :=
  a.id = b.id && a.parent = b.parent && a.chain.same b.chain && Llms.same a.llms b.llms

/-- A revision as it is written; an id that is missing is left out. -/
def toJson (r : Revision) : Json :=
  let id : List (String × Json) := match r.id with
    | some i => [("id", .text i)]
    | none => []
  .object (id ++ [("parent", .ofOption .text r.parent), ("chain", r.chain.toJson),
    ("llms", r.llms.toJson)])

def pretty (r : Revision) : String := r.toJson.toPretty

def recordName : String := "Revision"

def readText : Reader (Option String) := fun cs => do
  match Json.skipBlanks cs with
  | 'n' :: rest => return (none, ← Json.expect ['u', 'l', 'l'] rest)
  | '"' :: rest =>
    let (s, rest) ← Json.readQuotation rest
    return (some s, rest)
  | cs => Json.readMistyped "a string" cs

/-- The fields of a revision of a text, inside which `room` lists and objects may be nested. -/
def textFields (budget room : Nat) : TextFields [Option String, Option String, Node, Llms] :=
  .cons ⟨"id", readText, some none⟩ <| .cons ⟨"parent", readText, some none⟩ <|
  .cons ⟨"chain", Node.read budget room, none⟩ <| .cons ⟨"llms", Llms.read budget room, none⟩ .nil

/-- Read the revision that a text starts with; its ids are not checked. -/
def read (budget : Nat) : Reader Revision := fun cs => do
  let ((id, parent, chain, llms, ()), rest) ←
    TextFields.read recordName (textFields budget (Json.depthLimit - 1)) budget cs
  return ({ id, parent, chain, llms }, rest)

/-- Read the revision of a whole text; its ids must be distinct. -/
def ofText (text : String) : Except Fault Revision :=
  match Json.readWith read text with
  | .error cause => .error (.unreadable cause)
  | .ok r => do
    r.chain.checkIds
    return r

def valueFields : ValueFields [Option String, Option String, Node, Llms] :=
  .cons (defaulted "id" none (.optional .text)) <|
  .cons (defaulted "parent" none (.optional .text)) <|
  .cons (required "chain" Node.ofJson) <| .cons (required "llms" Llms.ofJson) .nil

def ofJson : Decoder Revision := fun v => do
  let (id, parent, chain, llms, ()) ← ValueFields.ofJson recordName valueFields v
  return { id, parent, chain, llms }

end Revision

end PromptChain
