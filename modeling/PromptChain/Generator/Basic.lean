import PromptChain.Generator.Wiring
import PromptChain.Command.Basic

/-!
# Generating chains

`Generator.grow` builds a chain in a session from an empty sequence, one node after the other, each
below a sequence or choice drawn from those there are. `Generator.run` is the program that saves it.
-/

set_option autoImplicit false

namespace PromptChain.Generator

def leafKinds : List Kind := [.prompt, .chat, .api, .vectorSearch, .reformat, .transform]

def composites (tree : Node) : List NodeId :=
  (tree.nodes.filter (·.kind.acceptsChildren)).map Node.id

def drawParent? (s : Session) : Drawing (Option NodeId) :=
  match s.working with
  | none => return none
  | some tree => drawFrom? (composites tree)

/-- A kind: a sequence or a choice one time in ten each, a leaf otherwise. -/
def drawKind : Drawing Kind := do
  match ← drawBelow 10 with
  | 0 => return .sequence
  | 1 => return .choice
  | _ => return (← drawFrom? leafKinds).getD .prompt

def placeCount : Nat := 5

/-- Insert a node at random and wire it. A refused insertion changes nothing. -/
def addNode (keys : Nat) (s : Session) (parent : NodeId) :
    Drawing (Except Session.Fault Session) := do
  let kind ← drawKind
  let index ← drawBelow placeCount
  match s.insert kind.name parent index with
  | .error fault => return .error fault
  | .ok (none, s) => return .ok s
  | .ok (some id, s) =>
    match s.find? id with
    | none => return .ok s
    | some node => return s.update (← wire keys node)

/-- Add nodes until there are enough, or nothing to add them to. -/
def addNodes (keys : Nat) : (count : Nat) → Session → Drawing (Except Session.Fault Session)
  | 0, s => return .ok s
  | count + 1, s => do
    match ← drawParent? s with
    | none => return .ok s
    | some parent =>
      match ← addNode keys s parent with
      | .error fault => return .error fault
      | .ok s => addNodes keys count s

def chainName : String := "generated"

def grow (keys count : Nat) : Drawing (Except Session.Fault Session) := do
  let s := (Session.new .standard).setName chainName
  match s.insert Kind.sequence.name 0 0 with
  | .error fault => return .error fault
  | .ok (_, s) => addNodes keys count s

structure Request where
  output : String
  nodes : Nat
  keys : Nat
deriving DecidableEq

def options : List Command.OptionName :=
  [⟨"output", some 'o'⟩, ⟨"nodes", some 'n'⟩, ⟨"keys", none⟩]

def Request.ofArguments? (arguments : List String) : Option Request := do
  let a ← Command.parse? options false arguments .none
  let nodes ← Command.optionalWord? (a.get? "nodes")
  let keys ← Command.optionalWord? (a.get? "keys")
  if a.words.isEmpty then
    return { output := (a.get? "output").getD "generated_revision.json"
             nodes := (nodes.getD 20).toNat, keys := (keys.getD 8).toNat }
  else none

def countText (n : Nat) : String := String.ofList (Decimal.naturalText n)

def announcement (r : Request) : String :=
  "Generating a chain with " ++ countText r.nodes ++ " node(s) below the root...\n"

/-- What the program prints about the revision that it has saved. -/
def report (output : String) (r : Revision) : String :=
  r.chain.outline ++ "\n" ++ r.chain.interface.text ++ "\n" ++
    "Successfully generated and saved " ++ countText r.chain.size ++ " node(s) to " ++
    Command.named output ++ "\n"

def faultRecord : Fault → String
  | .inaccessible path reason =>
    "FileError \x7b path: " ++ Text.quoted path ++ ", message: " ++ Text.quoted reason ++ " \x7d"
  | fault => fault.message

def failed (printed complaint : String) (files : Directory) : Outcome :=
  ⟨1, printed, "Error: " ++ complaint ++ "\n", files⟩

/-- Generate a chain and save it, with nothing logged. A logger of this program prints on standard
output, between what is printed here. -/
def generate (draws : Draws) (files : Directory) (r : Request) : Outcome :=
  let built := do
    let s ← (grow r.keys r.nodes draws).1
    s.build
  match built with
  | .error fault => failed (announcement r) fault.message files
  | .ok revision =>
    match Command.saveRevision files r.output revision with
    | .error fault => failed (announcement r) (faultRecord fault) files
    | .ok files => ⟨0, announcement r ++ report r.output revision, "", files⟩

/-- Run the program with these arguments and with nothing logged. -/
def run (draws : Draws) (files : Directory) (arguments : List String) : Outcome :=
  match Request.ofArguments? arguments with
  | none => ⟨Command.usageCode, "", "error: the arguments ask for no chain\n", files⟩
  | some r =>
    if r.keys = 0 then failed "" "--keys must be at least 1" files else generate draws files r

end PromptChain.Generator
