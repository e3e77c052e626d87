import PromptChain.Node.Basic
import PromptChain.Json.Decode
import PromptChain.Json.Encode
import PromptChain.Json.Writer

/-!
# Chains in documents

A node is written as an object that starts with its kind under `chain_type`, its fields in their
order after it. It is read from an object with the tag anywhere, or from an array with the tag
first.
-/

set_option autoImplicit false

namespace PromptChain

open Json (Decoder Reading ValueFields Variants required defaulted)

def Leaf.entries : Leaf → List (String × Json)
  | .prompt p =>
    [("chain_id", .ofWord64 p.id), ("input_keys", .ofTexts p.inputKeys),
     ("output_key", .text p.outputKey), ("prompt", .text p.prompt), ("llm_key", .text p.llmKey)]
  | .chat c =>
    [("chain_id", .ofWord64 c.id), ("input_keys", .ofTexts c.inputKeys),
     ("output_key", .text c.outputKey), ("prompt", .text c.prompt), ("role", .text c.role),
     ("llm_key", .text c.llmKey)]
  | .api a =>
    [("chain_id", .ofWord64 a.id), ("url", .text a.url), ("method", .text a.method),
     ("headers", .ofOption (.ofMap .text) a.headers), ("body", .ofOption .text a.body),
     ("input_keys", .ofTexts a.inputKeys), ("output_key", .text a.outputKey)]
  | .vectorSearch v =>
    [("chain_id", .ofWord64 v.id), ("query", .text v.query),
     ("embedding_engine", .text v.embeddingEngine), ("embedding_params", .object v.embeddingParams),
     ("database", .text v.database), ("database_params", .object v.databaseParams),
     ("num_results", .ofWord32 v.numResults), ("min_score", .ofDouble v.minScore),
     ("input_variables", .ofTexts v.inputVariables), ("output_key", .text v.outputKey)]
  | .reformat r =>
    [("chain_id", .ofWord64 r.id), ("formatters", .ofMap .text r.formatters),
     ("input_keys", .ofTexts r.inputKeys)]
  | .transform t =>
    [("chain_id", .ofWord64 t.id), ("transform_func", .text t.function),
     ("input_keys", .ofTexts t.inputKeys), ("output_keys", .ofTexts t.outputKeys)]

namespace Node

def kindTag : String := "chain_type"

def tagged (kind : Kind) (entries : List (String × Json)) : Json :=
  .object ((kindTag, .text kind.name) :: entries)

mutual

def toJson : Node → Json
  | leaf l => tagged l.kind l.entries
  | sequence i ins outs steps =>
    tagged .sequence [("chain_id", .ofWord64 i), ("input_keys", .ofTexts ins),
      ("output_keys", .ofTexts outs), ("chains", .array (stepsToJson steps))]
  | choice i key branches fallback =>
    tagged .choice [("chain_id", .ofWord64 i), ("categorization_key", .text key),
      ("cases", .object (branchesToJson branches)), ("default_case", fallbackToJson fallback)]

def stepsToJson : List Node → List Json
  | [] => []
  | n :: ns => toJson n :: stepsToJson ns

def branchesToJson : List (String × Node) → List (String × Json)
  | [] => []
  | (k, n) :: bs => (k, toJson n) :: branchesToJson bs

def fallbackToJson : Option Node → Json
  | none => .null
  | some n => toJson n

end

def promptFields : ValueFields [NodeId, List String, String, String, String] :=
  .cons (required "chain_id" .word64) <| .cons (required "input_keys" (.list .text)) <|
  .cons (required "output_key" .text) <| .cons (required "prompt" .text) <|
  .cons (required "llm_key" .text) .nil

def chatFields : ValueFields [NodeId, List String, String, String, String, String] :=
  .cons (required "chain_id" .word64) <| .cons (required "input_keys" (.list .text)) <|
  .cons (required "output_key" .text) <| .cons (required "prompt" .text) <|
  .cons (required "role" .text) <| .cons (required "llm_key" .text) .nil

def apiFields : ValueFields [NodeId, String, String, Option (List (String × String)), Option String,
    List String, String] :=
  .cons (required "chain_id" .word64) <| .cons (required "url" .text) <|
  .cons (required "method" .text) <| .cons (defaulted "headers" none (.optional (.map .text))) <|
  .cons (defaulted "body" none (.optional .text)) <|
  .cons (required "input_keys" (.list .text)) <| .cons (required "output_key" .text) .nil

def vectorSearchFields : ValueFields [NodeId, String, String, List (String × Json), String,
    List (String × Json), UInt32, Float, List String, String] :=
  .cons (required "chain_id" .word64) <| .cons (required "query" .text) <|
  .cons (required "embedding_engine" .text) <|
  .cons (defaulted "embedding_params" [] (.map .freeForm)) <| .cons (required "database" .text) <|
  .cons (defaulted "database_params" [] (.map .freeForm)) <|
  .cons (required "num_results" .word32) <| .cons (required "min_score" .double) <|
  .cons (required "input_variables" (.list .text)) <| .cons (required "output_key" .text) .nil

def reformatFields : ValueFields [NodeId, List (String × String), List String] :=
  .cons (required "chain_id" .word64) <| .cons (required "formatters" (.map .text)) <|
  .cons (required "input_keys" (.list .text)) .nil

def transformFields : ValueFields [NodeId, String, List String, List String] :=
  .cons (required "chain_id" .word64) <| .cons (required "transform_func" .text) <|
  .cons (required "input_keys" (.list .text)) <| .cons (required "output_keys" (.list .text)) .nil

def sequenceFields (node : Decoder Node) :
    ValueFields [NodeId, List String, List String, List Node] :=
  .cons (required "chain_id" .word64) <| .cons (required "input_keys" (.list .text)) <|
  .cons (required "output_keys" (.list .text)) <| .cons (required "chains" (.list node)) .nil

def choiceFields (node : Decoder Node) :
    ValueFields [NodeId, String, List (String × Node), Option Node] :=
  .cons (required "chain_id" .word64) <| .cons (required "categorization_key" .text) <|
  .cons (required "cases" (.map node)) <|
  .cons (defaulted "default_case" none (.optional node)) .nil

def variants : Variants Kind :=
  ⟨kindTag, "internally tagged enum ChainSpec", Kind.all.map fun k => (k.name, k)⟩

/-- Read the fields of a node of a known kind, given how the nodes below it are read. -/
def ofFields (node : Decoder Node) : Kind → Decoder Node
  | .prompt, v => do
    let (id, inputKeys, outputKey, prompt, llmKey, ()) ← ValueFields.ofJson "LlmChain"
      promptFields v
    return leaf (.prompt { id, inputKeys, outputKey, prompt, llmKey })
  | .chat, v => do
    let (id, inputKeys, outputKey, prompt, role, llmKey, ()) ←
      ValueFields.ofJson "ChatChain" chatFields v
    return leaf (.chat { id, inputKeys, outputKey, prompt, role, llmKey })
  | .api, v => do
    let (id, url, method, headers, body, inputKeys, outputKey, ()) ←
      ValueFields.ofJson "ApiChain" apiFields v
    return leaf (.api { id, url, method, headers, body, inputKeys, outputKey })
  | .vectorSearch, v => do
    let (id, query, embeddingEngine, embeddingParams, database, databaseParams, numResults,
      minScore, inputVariables, outputKey, ()) ← ValueFields.ofJson "VectorSearchChain"
        vectorSearchFields v
    return leaf (.vectorSearch
      { id, query, embeddingEngine, embeddingParams, database, databaseParams, numResults, minScore,
        inputVariables, outputKey })
  | .sequence, v => do
    let (id, inputKeys, outputKeys, steps, ()) ←
      ValueFields.ofJson "SequentialChain" (sequenceFields node) v
    return sequence id inputKeys outputKeys steps
  | .choice, v => do
    let (id, key, branches, fallback, ()) ← ValueFields.ofJson "CaseChain" (choiceFields node) v
    return choice id key branches fallback
  | .reformat, v => do
    let (id, formatters, inputKeys, ()) ← ValueFields.ofJson "ReformatChain" reformatFields v
    return leaf (.reformat { id, formatters, inputKeys })
  | .transform, v => do
    let (id, function, inputKeys, outputKeys, ()) ←
      ValueFields.ofJson "TransformChain" transformFields v
    return leaf (.transform { id, function, inputKeys, outputKeys })

/-- Take a value for a node, down to a number of levels of nodes. -/
def ofJsonWithin : Nat → Decoder Node
  | 0, _ => Json.malformed .tooDeep
  | levels + 1, v => do
    let (kind, fields) ← variants.split v
    ofFields (ofJsonWithin levels) kind fields

/-- Take a value for a node. A value holds no more levels of nodes than it is deep. -/
def ofJson : Decoder Node := fun v => ofJsonWithin (v.depth + 1) v

/-- Read the node that a text starts with, its tag before anything else. -/
def read (budget room : Nat) : Json.Reader Node := fun cs => do
  let ((kind, fields), rest) ← variants.read budget room cs
  return (← ofFields (ofJsonWithin (fields.depth + 1)) kind fields, rest)

def ofText (text : String) : Reading Node :=
  Json.readWith (fun budget => read budget Json.depthLimit) text

def toText (n : Node) : String := n.toJson.toText

end Node

end PromptChain
