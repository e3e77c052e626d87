/-!
# JSON values

`Json` is the tree of a JSON text: integers and doubles apart, the fields of an object in the order
of the text. A text may name a field twice; `tidied` gives the value with each name once.
-/

set_option autoImplicit false

namespace PromptChain

/-- A number: an integer when it is written as one and fits a word, a double otherwise. -/
inductive Number where
  | integer (value : Int)
  | double (value : Float)
deriving DecidableEq

inductive Json where
  | null
  | bool (value : Bool)
  | number (value : Number)
  | text (value : String)
  | array (items : List Json)
  | object (entries : List (String × Json))

end PromptChain
