import PromptChain.Json.Same

/-!
# Comparing values by what they are written as

The image of a value is what it is written as, where a double that is no number counts as null.
Values without an image equal nothing, not even themselves.
-/

set_option autoImplicit false

namespace PromptChain.Json

def imageNumber : Number → Json
  | .integer i => .number (.integer i)
  | .double x => if x.isFinite then .number (.double x) else .null

mutual

/-- A written value with null for every double that is no number. -/
def image : Json → Json
  | .number n => imageNumber n
  | .array vs => .array (imageItems vs)
  | .object es => .object (imageEntries es)
  | v => v

def imageItems : List Json → List Json
  | [] => []
  | v :: vs => image v :: imageItems vs

def imageEntries : List (String × Json) → List (String × Json)
  | [] => []
  | (k, v) :: es => (k, image v) :: imageEntries es

end

def sameImage (a b : Option Json) : Bool :=
  match a, b with
  | some a, some b => a.image.same b.image
  | _, _ => false

/-- The written form of a map whose keys are not texts: there is none, unless it is empty. -/
def ofUntextual? {κ α : Type} (es : List (κ × α)) : Option Json :=
  if es.isEmpty then some (.object []) else none

end PromptChain.Json
