import PromptChain.Json.Reader

/-!
# Tagged values

A value of several variants carries the name of its variant under a tag: as one field among the
others of an object, or as the first element of an array. `split` takes the tag out of a value,
`read` out of a text, where the tag is checked as soon as it is reached.
-/

set_option autoImplicit false

namespace PromptChain.Json

/-- The variants of a type: the field that names them, what to call the type in a complaint, and the
names with what they stand for. -/
structure Variants (κ : Type) where
  tag : String
  wanted : String
  known : List (String × κ)

namespace Variants

variable {κ : Type}

def tagWanted : String := "variant identifier"

def ofName (variants : Variants κ) (name : String) : Reading κ :=
  match variants.known.lookup name with
  | some k => .ok k
  | none => misfit (.unknownVariant name (variants.known.map (·.1)))

def ofIndex (variants : Variants κ) (index : Nat) : Reading κ :=
  match variants.known[index]? with
  | some e => .ok e.2
  | none =>
    misfit (.wrongValue (.number (.integer index)) ("variant index 0 <= i < " ++
      String.ofList (Decimal.naturalText variants.known.length)))

/-- The variant that a tag inside a value names: by its name, or by its position. -/
def ofTag (variants : Variants κ) : Json → Reading κ
  | .text name => variants.ofName name
  | .number (.integer i) =>
    if 0 ≤ i then variants.ofIndex i.toNat else mistyped tagWanted (.number (.integer i))
  | v => mistyped tagWanted v

/-- Take the tag out of the entries of an object; `done` holds the others so far, the last one
first. -/
def splitEntries (variants : Variants κ) : Option κ → List (String × Json) →
    List (String × Json) → Reading (κ × Json)
  | some k, done, [] => .ok (k, .object done.reverse)
  | none, _, [] => misfit (.missingField variants.tag)
  | kind, done, (k, v) :: es =>
    if k = variants.tag then
      match kind with
      | some _ => misfit (.duplicateField k)
      | none => do splitEntries variants (some (← variants.ofTag v)) done es
    else splitEntries variants kind ((k, v) :: done) es

def split (variants : Variants κ) : Json → Reading (κ × Json)
  | .object es => splitEntries variants none [] es
  | .array [] => misfit (.missingField variants.tag)
  | .array (v :: vs) => do return (← variants.ofTag v, .array vs)
  | v => mistyped variants.wanted v

def readTag (variants : Variants κ) : Reader κ := fun cs =>
  match skipBlanks cs with
  | '"' :: rest => do
    let (name, rest) ← readQuotation rest
    return (← variants.ofName name, rest)
  | cs => readMistyped tagWanted cs

/-- Take an entry of a tagged object of a text: the tag, or another field as it stands. -/
def takeEntry (variants : Variants κ) (read : Reader Json) (s : Option κ × List (String × Json))
    (key : String) : Reader (Option κ × List (String × Json)) := fun cs =>
  if key = variants.tag then
    match s.1 with
    | some _ => misfit (.duplicateField key)
    | none => do
      let (k, cs) ← variants.readTag (← passColon cs)
      return ((some k, s.2), cs)
  else do
    let (v, cs) ← read (← passColon cs)
    return ((s.1, (key, v) :: s.2), cs)

/-- Read a tagged value of a text, without its tag, where `room` lists and objects may be nested. -/
def read (variants : Variants κ) (budget room : Nat) : Reader (κ × Json) := fun cs => do
  match skipBlanks cs with
  | '[' :: rest =>
    if room = 0 then malformed .tooDeep
    match ← nextElement? true rest with
    | none => misfit (.missingField variants.tag)
    | some rest =>
      let (k, rest) ← variants.readTag rest
      let (vs, rest) ← readElements (value budget (room - 1)) budget false [] rest
      return ((k, .array vs), rest)
  | '\x7b' :: rest =>
    if room = 0 then malformed .tooDeep
    let ((kind, done), rest) ←
      foldEntries (takeEntry variants (value budget (room - 1))) budget true (none, []) rest
    match kind with
    | some k => return ((k, .object done.reverse), rest)
    | none => misfit (.missingField variants.tag)
  | cs => readMistyped variants.wanted cs

end Variants

end PromptChain.Json
