import PromptChain.Json.Basic

/-!
# Typed values as JSON

What texts, words, lists, maps and missing values are written as.
-/

set_option autoImplicit false

namespace PromptChain.Json

def ofWord64 (n : UInt64) : Json := .number (.integer n.toNat)

def ofWord32 (n : UInt32) : Json := .number (.integer n.toNat)

def ofSigned32 (n : Int32) : Json := .number (.integer n.toInt)

def ofDouble (x : Float) : Json := .number (.double x)

def ofTexts (l : List String) : Json := .array (l.map .text)

def ofMap {α : Type} (write : α → Json) (es : List (String × α)) : Json :=
  .object (es.map fun e => (e.1, write e.2))

def ofOption {α : Type} (write : α → Json) : Option α → Json
  | none => .null
  | some a => write a

end PromptChain.Json
