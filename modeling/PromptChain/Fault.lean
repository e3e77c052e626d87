import PromptChain.Node.Basic
import PromptChain.Json.Fault

/-!
# What can go wrong with a chain

`Fault` lists the causes, each with what a reader needs to find the place.
-/

set_option autoImplicit false

namespace PromptChain

def idText (id : NodeId) : String := String.ofList (Decimal.naturalText id.toNat)

inductive Fault where
  | unknownKind (name : String)
  | duplicateId (id : NodeId)
  | idsExhausted (greatest : NodeId)
  | patchTargetMissing (id : NodeId)
  | unreadable (cause : Json.Fault)
  | inaccessible (path : String) (reason : String)
deriving DecidableEq

def Fault.message : Fault → String
  | unknownKind name => "Unknown chain type '" ++ name ++ "'"
  | duplicateId id => "Chain id " ++ idText id ++ " appears more than once in the same tree"
  | idsExhausted greatest => "No chain id is left after " ++ idText greatest
  | patchTargetMissing id =>
    "Chain " ++ idText id ++ " does not exist in the revision being patched"
  | unreadable cause => "Failed to parse chain JSON: " ++ cause.message
  | inaccessible path reason => "Could not access file '" ++ path ++ "': " ++ reason

def Kind.ofName (name : String) : Except Fault Kind :=
  match ofName? name with
  | some k => .ok k
  | none => .error (.unknownKind name)

theorem Kind.ofName_name (k : Kind) : ofName k.name = .ok k := by rw [ofName, ofName?_name]

theorem Kind.ofName_of_unknown {name : String} (h : ∀ k : Kind, k.name ≠ name) :
    ofName name = .error (.unknownKind name) := by
  have hnone : ofName? name = none :=
    Option.eq_none_iff_forall_ne_some.2 fun k hk => h k (ofName?_eq_some_iff.1 hk)
  rw [ofName, hnone]

end PromptChain
