import PromptChain.Node.Basic
import PromptChain.Json.Same

/-!
# Equality of chains

Two chains are the same when they differ at most in the order of their maps: branches, headers,
formatters and free-form parameters. Doubles are compared as the machine compares them.
-/

set_option autoImplicit false

namespace PromptChain

def sameTexts (a b : List (String × String)) : Bool := Entries.sameBy (fun s t => s = t) a b

def ApiCall.same (a b : ApiCall) : Bool :=
  a.id = b.id && a.url = b.url && a.method = b.method && a.body = b.body &&
  a.inputKeys = b.inputKeys && a.outputKey = b.outputKey &&
  (match a.headers, b.headers with
    | none, none => true
    | some x, some y => sameTexts x y
    | _, _ => false)

def VectorSearch.same (a b : VectorSearch) : Bool :=
  a.id = b.id && a.query = b.query && a.embeddingEngine = b.embeddingEngine &&
  Entries.sameBy Json.same a.embeddingParams b.embeddingParams && a.database = b.database &&
  Entries.sameBy Json.same a.databaseParams b.databaseParams && a.numResults = b.numResults &&
  a.minScore == b.minScore && a.inputVariables = b.inputVariables && a.outputKey = b.outputKey

def Reformat.same (a b : Reformat) : Bool :=
  a.id = b.id && sameTexts a.formatters b.formatters && a.inputKeys = b.inputKeys

def Leaf.same : Leaf → Leaf → Bool
  | prompt a, prompt b => a = b
  | chat a, chat b => a = b
  | api a, api b => a.same b
  | vectorSearch a, vectorSearch b => a.same b
  | reformat a, reformat b => a.same b
  | transform a, transform b => a = b
  | _, _ => false

namespace Node

mutual

def same : Node → Node → Bool
  | leaf a, leaf b => a.same b
  | sequence i ins outs steps, sequence j ins' outs' steps' =>
    i = j && ins = ins' && outs = outs' && sameSteps steps steps'
  | choice i key branches fallback, choice j key' branches' fallback' =>
    i = j && key = key' && branches.length = branches'.length &&
    sameBranches branches branches' && sameFallback fallback fallback'
  | _, _ => false

def sameSteps : List Node → List Node → Bool
  | [], [] => true
  | m :: ms, n :: ns => same m n && sameSteps ms ns
  | _, _ => false

/-- Whether every branch stands under its label in another choice. -/
def sameBranches : List (String × Node) → List (String × Node) → Bool
  | [], _ => true
  | (k, n) :: bs, cs =>
    (match Entries.get? cs k with
      | some m => same n m
      | none => false) && sameBranches bs cs

def sameFallback : Option Node → Option Node → Bool
  | none, none => true
  | some m, some n => same m n
  | _, _ => false

end

def sameOption (a b : Option Node) : Bool := sameFallback a b

end Node

end PromptChain
