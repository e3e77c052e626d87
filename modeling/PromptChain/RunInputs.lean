import PromptChain.Interface

/-!
# The inputs of a run

Before a chain runs, every key it needs gets a value. A key that ends in `_in` carries over the
value that the last run gave under the same stem with `_out`; the first other key takes the user's
message.
-/

set_option autoImplicit false

namespace PromptChain

/-- The values a chain is run with, and the key that takes the message. -/
structure RunInputs where
  primary : Option String
  values : List (String × String)
deriving DecidableEq

namespace RunInputs

def carryIn : String := "_in"

def carryOut : String := "_out"

/-- The value of a key that should be carried over and is not there. -/
def notCarried : String := "replaced but not found"

def stem? (key : String) : Option String :=
  if carryIn.toList.isSuffixOf key.toList then
    some (String.ofList (key.toList.take (key.length - carryIn.length)))
  else none

/-- The key that takes the message: the first that is not carried over. -/
def primaryKey? (keys : List String) : Option String := keys.find? fun k => (stem? k).isNone

/-- The value of a key, given the key that takes the message and the outputs of the last run. -/
def valueOf (primary : Option String) (message : String) (lastOutput : List (String × String))
    (key : String) : String :=
  match stem? key with
  | some stem => (Entries.get? lastOutput (stem ++ carryOut)).getD notCarried
  | none => if primary = some key then message else ""

def forChain (chain : Node) (message : String) (lastOutput : List (String × String)) : RunInputs :=
  let keys := chain.interface.inputs.items
  let primary := primaryKey? keys
  ⟨primary, keys.map fun k => (k, valueOf primary message lastOutput k)⟩

example : stem? "history_in" = some "history" ∧ stem? "_in" = some "" ∧ stem? "in" = none := by
  decide +kernel

end RunInputs

end PromptChain
