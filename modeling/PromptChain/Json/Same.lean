import PromptChain.Json.Basic
import PromptChain.Entries

/-!
# Free-form values

Two values are the `same` when they differ at most in the order of the entries of their objects; an
integer is never the same as a double. `tidied` is a value with every key of its objects once.
-/

set_option autoImplicit false

namespace PromptChain

/-- Equality of numbers as the machine compares them: both zeros are the same. -/
def Number.same : Number → Number → Bool
  | .integer i, .integer j => i = j
  | .double x, .double y => x == y
  | _, _ => false

namespace Json

mutual

def same : Json → Json → Bool
  | .null, .null => true
  | .bool a, .bool b => a = b
  | .number m, .number n => m.same n
  | .text s, .text t => s = t
  | .array vs, .array ws => sameItems vs ws
  | .object es, .object fs => es.length = fs.length && sameEntries es fs
  | _, _ => false

def sameItems : List Json → List Json → Bool
  | [], [] => true
  | v :: vs, w :: ws => same v w && sameItems vs ws
  | _, _ => false

/-- Whether every entry of an object stands in another one with the same value. -/
def sameEntries : List (String × Json) → List (String × Json) → Bool
  | [], _ => true
  | (k, v) :: es, fs =>
    (match Entries.get? fs k with
      | some w => same v w
      | none => false) && sameEntries es fs

end

mutual

/-- The value with every key of its objects once: at its first place, with its last value. -/
def tidied : Json → Json
  | .array vs => .array (tidiedItems vs)
  | .object es => .object (Entries.ofList (tidiedEntries es))
  | v => v

def tidiedItems : List Json → List Json
  | [] => []
  | v :: vs => tidied v :: tidiedItems vs

def tidiedEntries : List (String × Json) → List (String × Json)
  | [] => []
  | (k, v) :: es => (k, tidied v) :: tidiedEntries es

end

mutual

def depth : Json → Nat
  | .array vs => depthItems vs + 1
  | .object es => depthEntries es + 1
  | _ => 0

def depthItems : List Json → Nat
  | [] => 0
  | v :: vs => max (depth v) (depthItems vs)

def depthEntries : List (String × Json) → Nat
  | [] => 0
  | (_, v) :: es => max (depth v) (depthEntries es)

end

end Json

end PromptChain
