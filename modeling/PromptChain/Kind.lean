/-!
# The kinds of node

A chain is built from eight kinds of node. Two of them hold other nodes.
-/

set_option autoImplicit false

namespace PromptChain

inductive Kind where
  | prompt
  | chat
  | api
  | vectorSearch
  | sequence
  | choice
  | reformat
  | transform
deriving DecidableEq

namespace Kind

def all : List Kind := [prompt, chat, api, vectorSearch, sequence, choice, reformat, transform]

def name : Kind → String
  | prompt => "llm_spec"
  | chat => "chat_spec"
  | api => "api_spec"
  | vectorSearch => "vector_search_spec"
  | sequence => "sequential_spec"
  | choice => "case_spec"
  | reformat => "reformat_spec"
  | transform => "transform_spec"

def acceptsChildren : Kind → Bool
  | sequence => true
  | choice => true
  | _ => false

def ofName? (name : String) : Option Kind := all.find? (·.name = name)

def position (k : Kind) : Nat := all.idxOf k

theorem mem_all (k : Kind) : k ∈ all := by cases k <;> decide

theorem name_injective {j k : Kind} (h : j.name = k.name) : j = k := by
  cases j <;> cases k <;> simp_all [name]

theorem ofName?_name (k : Kind) : ofName? k.name = some k := by cases k <;> decide +kernel

theorem ofName?_eq_some_iff {name : String} {k : Kind} : ofName? name = some k ↔ k.name = name := by
  constructor
  · intro h
    simpa using List.find?_some h
  · rintro rfl
    exact ofName?_name k

end Kind

end PromptChain
