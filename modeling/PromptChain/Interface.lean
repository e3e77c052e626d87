import PromptChain.Node.Basic
import PromptChain.OrderedSet

/-!
# What a chain needs and gives

The `Interface` of a chain is the set of keys it must be given and the set of keys it gives. A
sequence needs what its steps need and none of them gives; a choice needs what any branch needs and
gives what all of them give. `Node.refresh` writes the interface of every sequence into its lists of
keys.
-/

set_option autoImplicit false

namespace PromptChain

/-- The keys a chain must be given and the keys it gives. -/
structure Interface where
  inputs : OrderedSet String
  outputs : OrderedSet String

namespace Interface

def text (i : Interface) : String :=
  "inputs: [" ++ ", ".intercalate i.inputs.items ++ "] outputs: [" ++
    ", ".intercalate i.outputs.items ++ "]"

def ofKeys (inputs : List String) (output : String) : Interface :=
  ⟨.ofList inputs, .singleton output⟩

/-- The interface of steps that run one after the other, in any order. -/
def ofSteps (steps : List Interface) : Interface :=
  let outputs := OrderedSet.unionAll (steps.map outputs)
  ⟨(OrderedSet.unionAll (steps.map inputs)).difference outputs, outputs⟩

def ofBranches (branches : List Interface) : Interface :=
  ⟨.unionAll (branches.map inputs), .intersectAll (branches.map outputs)⟩

end Interface

def Leaf.interface : Leaf → Interface
  | prompt p => .ofKeys p.inputKeys p.outputKey
  | chat c => .ofKeys c.inputKeys c.outputKey
  | api a => .ofKeys a.inputKeys a.outputKey
  | vectorSearch v => .ofKeys v.inputVariables v.outputKey
  | reformat r => ⟨.ofList r.inputKeys, .ofList (Entries.keys r.formatters)⟩
  | transform t => ⟨.ofList t.inputKeys, .ofList t.outputKeys⟩

namespace Node

mutual

def interface : Node → Interface
  | leaf l => l.interface
  | sequence _ _ _ steps => .ofSteps (interfacesOfSteps steps)
  | choice _ _ branches fallback =>
    .ofBranches (interfacesOfBranches branches ++ interfacesOfFallback fallback)

def interfacesOfSteps : List Node → List Interface
  | [] => []
  | n :: ns => interface n :: interfacesOfSteps ns

def interfacesOfBranches : List (String × Node) → List Interface
  | [] => []
  | (_, n) :: bs => interface n :: interfacesOfBranches bs

def interfacesOfFallback : Option Node → List Interface
  | none => []
  | some n => [interface n]

end

mutual

/-- The tree with the keys of every sequence set to its interface. -/
def refresh : Node → Node
  | leaf l => leaf l
  | sequence i _ _ steps =>
    let steps := refreshSteps steps
    let io := Interface.ofSteps (interfacesOfSteps steps)
    sequence i io.inputs.items io.outputs.items steps
  | choice i key branches fallback =>
    choice i key (refreshBranches branches) (refreshFallback fallback)

def refreshSteps : List Node → List Node
  | [] => []
  | n :: ns => refresh n :: refreshSteps ns

def refreshBranches : List (String × Node) → List (String × Node)
  | [] => []
  | (k, n) :: bs => (k, refresh n) :: refreshBranches bs

def refreshFallback : Option Node → Option Node
  | none => none
  | some n => some (refresh n)

end

end Node

end PromptChain
