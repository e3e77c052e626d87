import PromptChain.Json.Basic
import PromptChain.Decimal.Layout
import PromptChain.Text.Quoted

/-!
# What can be wrong with a text

A text is refused for one of two reasons. `Malformed`: it is not JSON. `Misfit`: the JSON so far
does not fit the type that is read. `Fault.message` is the wording of either.
-/

set_option autoImplicit false

namespace PromptChain.Json

inductive Malformed where
  | listUnfinished
  | objectUnfinished
  | stringUnfinished
  | valueUnfinished
  | colonExpected
  | listEndExpected
  | objectEndExpected
  | literalExpected
  | valueExpected
  | badEscape
  | badNumber
  | numberTooLarge
  | controlCharacter
  | keyExpected
  | loneSurrogate
  | escapeUnfinished
  | trailingComma
  | trailingText
  | tooDeep
deriving DecidableEq

def Malformed.message : Malformed → String
  | listUnfinished => "EOF while parsing a list"
  | objectUnfinished => "EOF while parsing an object"
  | stringUnfinished => "EOF while parsing a string"
  | valueUnfinished => "EOF while parsing a value"
  | colonExpected => "expected `:`"
  | listEndExpected => "expected `,` or `]`"
  | objectEndExpected => "expected `,` or `\x7d`"
  | literalExpected => "expected ident"
  | valueExpected => "expected value"
  | badEscape => "invalid escape"
  | badNumber => "invalid number"
  | numberTooLarge => "number out of range"
  | controlCharacter => "control character (\\u0000-\\u001F) found while parsing a string"
  | keyExpected => "key must be a string"
  | loneSurrogate => "lone leading surrogate in hex escape"
  | escapeUnfinished => "unexpected end of hex escape"
  | trailingComma => "trailing comma"
  | trailingText => "trailing characters"
  | tooDeep => "recursion limit exceeded"

inductive Found where
  | null
  | bool (value : Bool)
  | number (value : Number)
  | text (value : String)
  | sequence
  | map
deriving DecidableEq

def Found.message : Found → String
  | null => "null"
  | bool true => "boolean `true`"
  | bool false => "boolean `false`"
  | number (.integer i) => "integer `" ++ String.ofList (Decimal.integerText i) ++ "`"
  | number (.double x) => "floating point `" ++ String.ofList (Decimal.numberText x) ++ "`"
  | text s => "string " ++ Text.quoted s
  | sequence => "sequence"
  | map => "map"

def found : Json → Found
  | .null => .null
  | .bool b => .bool b
  | .number n => .number n
  | .text s => .text s
  | .array _ => .sequence
  | .object _ => .map

inductive Misfit where
  | missingField (name : String)
  | duplicateField (name : String)
  | wrongType (found : Found) (wanted : String)
  | wrongValue (found : Found) (wanted : String)
  | unknownVariant (name : String) (known : List String)
  | wrongLength (length : Nat) (wanted : String)
deriving DecidableEq

def ticked (name : String) : String := "`" ++ name ++ "`"

def alternatives : List String → String
  | [a] => ticked a
  | [a, b] => ticked a ++ " or " ++ ticked b
  | names => "one of " ++ ", ".intercalate (names.map ticked)

def Misfit.message : Misfit → String
  | missingField name => "missing field " ++ ticked name
  | duplicateField name => "duplicate field " ++ ticked name
  | wrongType found wanted => "invalid type: " ++ found.message ++ ", expected " ++ wanted
  | wrongValue found wanted => "invalid value: " ++ found.message ++ ", expected " ++ wanted
  | unknownVariant name known =>
    "unknown variant " ++ ticked name ++ ", expected " ++ alternatives known
  | wrongLength length wanted =>
    "invalid length " ++ String.ofList (Decimal.naturalText length) ++ ", expected " ++ wanted

inductive Fault where
  | malformed (cause : Malformed)
  | misfit (cause : Misfit)
deriving DecidableEq

/-- The wording of a fault, without the line and the column where the reader stopped: readers that
keep count of them add " at line 1 column 2" or the like. -/
def Fault.message : Fault → String
  | malformed cause => cause.message
  | misfit cause => cause.message

abbrev Reading (α : Type) := Except Fault α

def malformed {α : Type} (cause : Malformed) : Reading α := .error (.malformed cause)

def misfit {α : Type} (cause : Misfit) : Reading α := .error (.misfit cause)

def mistyped {α : Type} (wanted : String) (value : Json) : Reading α :=
  misfit (.wrongType value.found wanted)

end PromptChain.Json
