import PromptChain.Generator.Draws
import PromptChain.Node.Edit
import PromptChain.Fault

/-!
# Wiring

A generated node gets its keys from a vocabulary `key_0`, `key_1`, … of a given size. `wire` draws
them; `isWired` tells which nodes it can give.
-/

set_option autoImplicit false

namespace PromptChain.Generator

def keyText (i : Nat) : String := "key_" ++ String.ofList (Decimal.naturalText i)

def sampleSize : Nat := 3

def drawKey (keys : Nat) : Drawing String := do return keyText (← drawBelow keys)

def drawSample (keys : Nat) : Drawing (List String) := do
  let count ← drawBelow (min sampleSize keys + 1)
  return (← drawDistinct keys count []).map keyText

def promptText (keys : List String) : String :=
  String.join (keys.map fun k => "\x7b" ++ k ++ "\x7d")

def serviceAddress (id : NodeId) : String := "https://example.com/" ++ idText id

def mostResults : Nat := 5

def wireLeaf (keys : Nat) : Leaf → Drawing Leaf
  | .prompt p => do
    let inputKeys ← drawSample keys
    let outputKey ← drawKey keys
    return .prompt { p with inputKeys, outputKey, prompt := promptText inputKeys }
  | .chat c => do
    let inputKeys ← drawSample keys
    let outputKey ← drawKey keys
    return .chat { c with inputKeys, outputKey }
  | .api a => do
    let inputKeys ← drawSample keys
    return .api { a with inputKeys, url := serviceAddress a.id }
  | .vectorSearch v => do
    let inputVariables ← drawSample keys
    let results ← drawBelow mostResults
    return .vectorSearch { v with inputVariables, numResults := (results + 1).toUInt32 }
  | .reformat r => do
    let inputKeys ← drawSample keys
    let name ← drawKey keys
    return .reformat { r with inputKeys, formatters := Entries.put r.formatters name "" }
  | .transform t => do
    let inputKeys ← drawSample keys
    let outputKeys ← drawSample keys
    return .transform { t with inputKeys, outputKeys }

def wire (keys : Nat) : Node → Drawing Node
  | .leaf l => do return .leaf (← wireLeaf keys l)
  | .sequence i ins outs steps => return .sequence i ins outs steps
  | .choice i _ branches fallback => do return .choice i (← drawKey keys) branches fallback

def isKey (keys : Nat) (s : String) : Bool :=
  let digits := s.toList.drop 4
  let i := digits.foldl (fun n d => n * 10 + (d.toNat - '0'.toNat)) 0
  i < keys && s = keyText i

def isSample (keys : Nat) (l : List String) : Bool :=
  l.length ≤ sampleSize && l.all (isKey keys) && (l.Nodup : Bool)

/-- Whether a leaf is a new one of its kind apart from keys of the vocabulary and what follows from
them. -/
def isWiredLeaf (keys : Nat) : Leaf → Bool
  | .prompt p =>
    isSample keys p.inputKeys && isKey keys p.outputKey &&
    p.prompt = promptText p.inputKeys && p.llmKey = "llm"
  | .chat c =>
    isSample keys c.inputKeys && isKey keys c.outputKey && c.prompt = "" && c.role = "user" &&
    c.llmKey = "llm"
  | .api a =>
    isSample keys a.inputKeys && a.url = serviceAddress a.id && a.method = "GET" &&
    a.headers = some [] && a.body = some "" && a.outputKey = "results"
  | .vectorSearch v =>
    isSample keys v.inputVariables && 1 ≤ v.numResults && v.numResults.toNat ≤ mostResults &&
    v.query = "" && v.embeddingEngine = "openai" && v.embeddingParams.isEmpty &&
    v.database = "pinecone" && v.databaseParams.isEmpty && v.minScore == 0.0 &&
    v.outputKey = "results"
  | .reformat r =>
    isSample keys r.inputKeys &&
    (match r.formatters with
      | [(name, text)] => isKey keys name && text = ""
      | _ => false)
  | .transform t => isSample keys t.inputKeys && isSample keys t.outputKeys && t.function = ""

/-- Whether a node could be generated with a vocabulary: its fields apart from keys are those of a
new node, and every branch of a choice bears the label it was inserted with. -/
def isWired (keys : Nat) : Node → Bool
  | .leaf l => isWiredLeaf keys l
  | .sequence _ _ _ _ => true
  | .choice _ key branches fallback =>
    isKey keys key && fallback.isNone && branches.all fun b => b.1 = Node.branchLabel b.2.id 0

end PromptChain.Generator
