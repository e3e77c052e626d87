import PromptChain.Node.Basic

/-!
# New nodes

`Node.blank` is the node of a kind that an editor starts from.
-/

set_option autoImplicit false

namespace PromptChain

def Node.blank (kind : Kind) (id : NodeId) : Node :=
  match kind with
  | .prompt => leaf (.prompt
      { id, inputKeys := [], outputKey := "text", prompt := "", llmKey := "llm" })
  | .chat => leaf (.chat
      { id, inputKeys := [], outputKey := "text", prompt := "", role := "user", llmKey := "llm" })
  | .api => leaf (.api
      { id, url := "", method := "GET", headers := some [], body := some "", inputKeys := [],
        outputKey := "results" })
  | .vectorSearch => leaf (.vectorSearch
      { id, query := "", embeddingEngine := "openai", embeddingParams := [], database := "pinecone",
        databaseParams := [], numResults := 1, minScore := 0.0, inputVariables := [],
        outputKey := "results" })
  | .sequence => sequence id [] [] []
  | .choice => choice id "" [] none
  | .reformat => leaf (.reformat { id, formatters := [], inputKeys := [] })
  | .transform => leaf (.transform { id, function := "", inputKeys := [], outputKeys := [] })

namespace Node

@[simp] theorem id_blank (kind : Kind) (id : NodeId) : (blank kind id).id = id := by
  cases kind <;> rfl

@[simp] theorem kind_blank (kind : Kind) (id : NodeId) : (blank kind id).kind = kind := by
  cases kind <;> rfl

@[simp] theorem nodes_blank (kind : Kind) (id : NodeId) :
    (blank kind id).nodes = [blank kind id] := by
  cases kind <;> rfl

end Node

end PromptChain
