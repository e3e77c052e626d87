import PromptChain.Json.Decode
import PromptChain.Json.Encode

/-!
# Language models

The settings of the language models a chain can name: a hosted completion model or a model of a hub.
-/

set_option autoImplicit false

namespace PromptChain

open Json (Decoder Reading Reader ValueFields Variants required defaulted)

structure OpenAi where
  modelName : String
  temperature : Float
  maxTokens : UInt32
  topP : Float
  frequencyPenalty : Float
  presencePenalty : Float
  n : UInt32
  bestOf : UInt32
  requestTimeout : Option UInt64
  logitBias : Option (List (String × Int32))

structure HubSampling where
  temperature : Float
  maxLength : UInt32
  minNewTokens : Option UInt32
  maxTime : Option UInt32

structure HubModel where
  repoId : String
  task : Option String
  sampling : Option HubSampling

inductive Llm where
  | openAi (settings : OpenAi)
  | hub (settings : HubModel)

/-- The language models that a chain can name, each under its name. -/
abbrev Llms := List (String × Llm)

def OpenAi.standard : OpenAi where
  modelName := "text-davinci-003"
  temperature := 0.8
  maxTokens := 256
  topP := 1.0
  frequencyPenalty := 0.0
  presencePenalty := 0.0
  n := 1
  bestOf := 1
  requestTimeout := none
  logitBias := some []

def Llms.standard : Llms := [("llm", .openAi .standard)]

def OpenAi.same (a b : OpenAi) : Bool :=
  a.modelName = b.modelName && a.temperature == b.temperature && a.maxTokens = b.maxTokens &&
  a.topP == b.topP && a.frequencyPenalty == b.frequencyPenalty &&
  a.presencePenalty == b.presencePenalty && a.n = b.n && a.bestOf = b.bestOf &&
  a.requestTimeout = b.requestTimeout &&
  (match a.logitBias, b.logitBias with
    | none, none => true
    | some x, some y => Entries.sameBy (fun i j => i = j) x y
    | _, _ => false)

def HubSampling.same (a b : HubSampling) : Bool :=
  a.temperature == b.temperature && a.maxLength = b.maxLength && a.minNewTokens = b.minNewTokens &&
  a.maxTime = b.maxTime

def HubModel.same (a b : HubModel) : Bool :=
  a.repoId = b.repoId && a.task = b.task &&
  (match a.sampling, b.sampling with
    | none, none => true
    | some x, some y => x.same y
    | _, _ => false)

def Llm.same : Llm → Llm → Bool
  | openAi a, openAi b => a.same b
  | hub a, hub b => a.same b
  | _, _ => false

def Llms.same (a b : Llms) : Bool := Entries.sameBy Llm.same a b

namespace Llm

def variantTag : String := "_type"

def toJson : Llm → Json
  | openAi a => .object
    [(variantTag, .text "openai"), ("model_name", .text a.modelName),
     ("temperature", .ofDouble a.temperature), ("max_tokens", .ofWord32 a.maxTokens),
     ("top_p", .ofDouble a.topP), ("frequency_penalty", .ofDouble a.frequencyPenalty),
     ("presence_penalty", .ofDouble a.presencePenalty), ("n", .ofWord32 a.n),
     ("best_of", .ofWord32 a.bestOf), ("request_timeout", .ofOption .ofWord64 a.requestTimeout),
     ("logit_bias", .ofOption (.ofMap .ofSigned32) a.logitBias)]
  | hub a => .object
    [(variantTag, .text "huggingface_hub"), ("repo_id", .text a.repoId),
     ("task", .ofOption .text a.task), ("model_kwargs", .ofOption sampling a.sampling)]
where
  sampling (s : HubSampling) : Json := .object
    [("temperature", .ofDouble s.temperature), ("max_length", .ofWord32 s.maxLength),
     ("min_new_tokens", .ofOption .ofWord32 s.minNewTokens),
     ("max_time", .ofOption .ofWord32 s.maxTime)]

def openAiFields : ValueFields [String, Float, UInt32, Float, Float, Float, UInt32, UInt32,
    Option UInt64, Option (List (String × Int32))] :=
  .cons (required "model_name" .text) <| .cons (required "temperature" .double) <|
  .cons (required "max_tokens" .word32) <| .cons (required "top_p" .double) <|
  .cons (required "frequency_penalty" .double) <| .cons (required "presence_penalty" .double) <|
  .cons (required "n" .word32) <| .cons (required "best_of" .word32) <|
  .cons (defaulted "request_timeout" none (.optional .word64)) <|
  .cons (defaulted "logit_bias" none (.optional (.map .signed32))) .nil

def samplingFields : ValueFields [Float, UInt32, Option UInt32, Option UInt32] :=
  .cons (required "temperature" .double) <| .cons (required "max_length" .word32) <|
  .cons (defaulted "min_new_tokens" none (.optional .word32)) <|
  .cons (defaulted "max_time" none (.optional .word32)) .nil

def samplingOfJson : Decoder HubSampling := fun v => do
  let (temperature, maxLength, minNewTokens, maxTime, ()) ←
    ValueFields.ofJson "HuggingFaceModelKwargs" samplingFields v
  return { temperature, maxLength, minNewTokens, maxTime }

def hubFields : ValueFields [String, Option String, Option HubSampling] :=
  .cons (required "repo_id" .text) <| .cons (defaulted "task" none (.optional .text)) <|
  .cons (defaulted "model_kwargs" none (.optional samplingOfJson)) .nil

inductive Source where
  | openAi
  | hub
deriving DecidableEq

def variants : Variants Source :=
  ⟨variantTag, "internally tagged enum LlmConfig",
    [("openai", .openAi), ("huggingface_hub", .hub)]⟩

def ofFields : Source → Decoder Llm
  | .openAi, v => do
    let (modelName, temperature, maxTokens, topP, frequencyPenalty, presencePenalty, n, bestOf,
      requestTimeout, logitBias, ()) ← ValueFields.ofJson "OpenAiConfig" openAiFields v
    return openAi { modelName, temperature, maxTokens, topP, frequencyPenalty, presencePenalty, n,
                    bestOf, requestTimeout, logitBias }
  | .hub, v => do
    let (repoId, task, sampling, ()) ← ValueFields.ofJson "HuggingFaceHubConfig" hubFields v
    return hub { repoId, task, sampling }

def ofJson : Decoder Llm := fun v => do
  let (source, fields) ← variants.split v
  ofFields source fields

def read (budget room : Nat) : Reader Llm := fun cs => do
  let ((source, fields), rest) ← variants.read budget room cs
  return (← ofFields source fields, rest)

end Llm

namespace Llms

def toJson (llms : Llms) : Json := .ofMap Llm.toJson llms

def ofJson : Decoder Llms := .map Llm.ofJson

def takeEntry (budget room : Nat) (llms : Llms) (name : String) : Reader Llms := fun cs => do
  let (llm, cs) ← Llm.read budget room (← Json.passColon cs)
  return (Entries.put llms name llm, cs)

/-- Read the named language models that a text starts with, one after the other. -/
def read (budget room : Nat) : Reader Llms := fun cs => do
  match Json.skipBlanks cs with
  | '\x7b' :: rest =>
    if room = 0 then Json.malformed .tooDeep
    Json.foldEntries (takeEntry budget (room - 1)) budget true [] rest
  | cs => Json.readMistyped "a map" cs

end Llms

end PromptChain
