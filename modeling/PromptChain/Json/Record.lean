import PromptChain.Json.Skip

/-!
# Records

A record has named fields in a fixed order. It is written as an object, its fields in any order
among unknown ones, or as an array of its fields in their order. `Fields` describes a record once;
the readers below follow it for either spelling. A misfit is reported where it stands, a missing
field after all others.
-/

set_option autoImplicit false

namespace PromptChain.Json

/-- A field: its name, how its value is read from a source `σ` leaving `τ`, and what it is when left
out, if it may be. -/
structure Field (σ τ α : Type) where
  name : String
  read : σ → Reading (α × τ)
  absent : Option α

inductive Fields (σ τ : Type) : List Type → Type 1 where
  | nil : Fields σ τ []
  | cons {α : Type} {αs : List Type} (field : Field σ τ α) (others : Fields σ τ αs) :
      Fields σ τ (α :: αs)

@[reducible] def Row : List Type → Type
  | [] => Unit
  | α :: αs => α × Row αs

@[reducible] def Slots : List Type → Type
  | [] => Unit
  | α :: αs => Option α × Slots αs

namespace Fields

variable {σ τ : Type}

def vacant : {αs : List Type} → Fields σ τ αs → Slots αs
  | _, nil => ()
  | _, cons _ others => (none, others.vacant)

/-- Read the value of a named field into its slot: nothing for an unknown name, a complaint for a
name that came before. `enter` leads from the name to the value. -/
def fill (enter : σ → Reading σ) : {αs : List Type} → Fields σ τ αs → String → Slots αs → σ →
    Reading (Option (Slots αs × τ))
  | _, nil, _, _, _ => .ok none
  | _, cons field others, name, (slot, slots), source =>
    if field.name = name then
      match slot with
      | some _ => misfit (.duplicateField name)
      | none => do
        let (a, left) ← field.read (← enter source)
        return some ((some a, slots), left)
    else do
      match ← others.fill enter name slots source with
      | some (slots, left) => return some ((slot, slots), left)
      | none => return none

/-- The values of all fields, the first missing one that may not be left out being a complaint. -/
def finish : {αs : List Type} → Fields σ τ αs → Slots αs → Reading (Row αs)
  | _, nil, _ => .ok ()
  | _, cons field others, (slot, slots) =>
    match slot, field.absent with
    | some a, _ => do return (a, ← others.finish slots)
    | none, some a => do return (a, ← others.finish slots)
    | none, none => misfit (.missingField field.name)

end Fields

def recordOfSize (name : String) (size : Nat) : String :=
  "struct " ++ name ++ " with " ++ String.ofList (Decimal.naturalText size) ++
    if size = 1 then " element" else " elements"

def sequenceOfSize (size : Nat) : String :=
  String.ofList (Decimal.naturalText size) ++
    if size = 1 then " element in sequence" else " elements in sequence"

/-- The fields of a record whose values have been read already. -/
abbrev ValueFields := Fields Json Unit

namespace ValueFields

/-- Take the entries of an object in their order; unknown ones do not matter. -/
def fillAll {αs : List Type} (fields : ValueFields αs) :
    Slots αs → List (String × Json) → Reading (Slots αs)
  | slots, [] => .ok slots
  | slots, (k, v) :: es => do
    match ← fields.fill .ok k slots v with
    | some (slots, _) => fillAll fields slots es
    | none => fillAll fields slots es

/-- Take the elements of an array for the fields in their order; `place` counts the fields
before. -/
def inOrder (wanted : String) : {αs : List Type} → ValueFields αs → Nat → List Json →
    Reading (Row αs × List Json)
  | _, .nil, _, vs => .ok ((), vs)
  | _, .cons field others, place, v :: vs => do
    let (a, _) ← field.read v
    let (row, left) ← inOrder wanted others (place + 1) vs
    return ((a, row), left)
  | _, .cons field others, place, [] =>
    match field.absent with
    | some a => do
      let (row, left) ← inOrder wanted others (place + 1) []
      return ((a, row), left)
    | none => misfit (.wrongLength place wanted)

def ofJson {αs : List Type} (name : String) (fields : ValueFields αs) : Json → Reading (Row αs)
  | .object es => do fields.finish (← fillAll fields fields.vacant es)
  | .array vs => do
    let (row, left) ← inOrder (recordOfSize name αs.length) fields 0 vs
    if left.isEmpty then return row
    else misfit (.wrongLength vs.length (sequenceOfSize αs.length))
  | v => mistyped ("struct " ++ name) v

end ValueFields

/-! ## Records of a text -/

abbrev TextFields := Fields (List Char) (List Char)

namespace TextFields

/-- Take an entry of an object: the value of an unknown field is passed over. -/
def takeEntry {αs : List Type} (fields : TextFields αs) (slots : Slots αs) (name : String) :
    Reader (Slots αs) := fun cs => do
  match ← fields.fill passColon name slots cs with
  | some r => return r
  | none => return (slots, ← skipValue (← passColon cs))

/-- Read the elements of an array for the fields in their order; `place` counts the fields
before. -/
def inOrder (wanted : String) : {αs : List Type} → TextFields αs → Nat → Reader (Row αs)
  | _, .nil, _, cs => .ok ((), cs)
  | _, .cons field others, place, cs => do
    match ← nextElement? (place = 0) cs with
    | some cs =>
      let (a, cs) ← field.read cs
      let (row, cs) ← inOrder wanted others (place + 1) cs
      return ((a, row), cs)
    | none =>
      match field.absent with
      | some a =>
        let (row, cs) ← inOrder wanted others (place + 1) cs
        return ((a, row), cs)
      | none => misfit (.wrongLength place wanted)

def read {αs : List Type} (name : String) (fields : TextFields αs) (budget : Nat) :
    Reader (Row αs) := fun cs => do
  match skipBlanks cs with
  | '[' :: rest =>
    let (row, rest) ← inOrder (recordOfSize name αs.length) fields 0 rest
    return (row, ← closeList rest)
  | '\x7b' :: rest =>
    let (slots, rest) ← foldEntries fields.takeEntry budget true fields.vacant rest
    return (← fields.finish slots, rest)
  | cs => readMistyped ("struct " ++ name) cs

end TextFields

end PromptChain.Json
