import PromptChain.Json.Record
import PromptChain.Json.Tagged
import PromptChain.Json.Same

/-!
# Taking a value for a typed one

A `Decoder` takes a JSON value for a text, a word, a double, a list, a map or a value that may be
missing. A value of another kind is a misfit, and so is an integer out of range.
-/

set_option autoImplicit false

namespace PromptChain.Json

abbrev Decoder (α : Type) := Json → Reading α

namespace Decoder

variable {α : Type}

def text : Decoder String
  | .text s => .ok s
  | v => mistyped "a string" v

def integer (wanted : String) (least greatest : Int) : Decoder Int
  | .number (.integer i) =>
    if least ≤ i && i ≤ greatest then .ok i
    else misfit (.wrongValue (.number (.integer i)) wanted)
  | v => mistyped wanted v

def word64 : Decoder UInt64 := fun v => do
  return (← integer "u64" 0 0xFFFFFFFFFFFFFFFF v).toNat.toUInt64

def word32 : Decoder UInt32 := fun v => do
  return (← integer "u32" 0 0xFFFFFFFF v).toNat.toUInt32

def signed32 : Decoder Int32 := fun v => do
  return (← integer "i32" (-0x80000000) 0x7FFFFFFF v).toInt32

def nearest (i : Int) : Float :=
  if 0 ≤ i then i.toNat.toUInt64.toFloat else -(-i).toNat.toUInt64.toFloat

/-- Take a double; an integer stands for the double nearest to it. -/
def double : Decoder Float
  | .number (.double x) => .ok x
  | .number (.integer i) => .ok (nearest i)
  | v => mistyped "f64" v

def optional (decode : Decoder α) : Decoder (Option α)
  | .null => .ok none
  | v => some <$> decode v

def items (decode : Decoder α) : List Json → Reading (List α)
  | [] => .ok []
  | v :: vs => do
    let a ← decode v
    return a :: (← items decode vs)

def list (decode : Decoder α) : Decoder (List α)
  | .array vs => items decode vs
  | v => mistyped "a sequence" v

def entries (decode : Decoder α) : List (String × Json) → Reading (List (String × α))
  | [] => .ok []
  | (k, v) :: es => do
    let a ← decode v
    return (k, a) :: (← entries decode es)

/-- Take a map: a repeated key keeps its first place and its last value. -/
def map (decode : Decoder α) : Decoder (List (String × α))
  | .object es => do return Entries.ofList (← entries decode es)
  | v => mistyped "a map" v

def freeForm : Decoder Json := fun v => .ok v.tidied

end Decoder

def required {α : Type} (name : String) (decode : Decoder α) : Field Json Unit α :=
  ⟨name, fun v => do return (← decode v, ()), none⟩

/-- A field of a value that stands for a default when left out. -/
def defaulted {α : Type} (name : String) (default : α) (decode : Decoder α) : Field Json Unit α :=
  ⟨name, fun v => do return (← decode v, ()), some default⟩

end PromptChain.Json
