import PromptChain.Json.Quotation

/-!
# Writing JSON text

`compact` writes a value without blanks, `pretty` with one element or entry a line, indented by two
blanks a level.
-/

set_option autoImplicit false

namespace PromptChain.Json

/-- The text of a number; a double that is no number is written as null. -/
def numeral : Number → List Char
  | .integer i => Decimal.integerText i
  | .double x => if x.isFinite then Decimal.numberText x else ['n', 'u', 'l', 'l']

mutual

def compact : Json → List Char
  | .null => ['n', 'u', 'l', 'l']
  | .bool true => ['t', 'r', 'u', 'e']
  | .bool false => ['f', 'a', 'l', 's', 'e']
  | .number n => numeral n
  | .text s => quotation s
  | .array vs => '[' :: compactItems vs
  | .object es => '\x7b' :: compactEntries es

def compactItems : List Json → List Char
  | [] => [']']
  | v :: vs => compact v ++ (match vs with
    | [] => [']']
    | _ => ',' :: compactItems vs)

def compactEntries : List (String × Json) → List Char
  | [] => ['\x7d']
  | (k, v) :: es => quotation k ++ ':' :: compact v ++ (match es with
    | [] => ['\x7d']
    | _ => ',' :: compactEntries es)

end

def newLine (level : Nat) : List Char := '\n' :: List.replicate (2 * level) ' '

mutual

/-- A value over several lines, whose own lines stand at `level`. -/
def pretty (level : Nat) : Json → List Char
  | .null => ['n', 'u', 'l', 'l']
  | .bool true => ['t', 'r', 'u', 'e']
  | .bool false => ['f', 'a', 'l', 's', 'e']
  | .number n => numeral n
  | .text s => quotation s
  | .array [] => ['[', ']']
  | .array (v :: vs) => '[' :: prettyItems level (v :: vs)
  | .object [] => ['\x7b', '\x7d']
  | .object (e :: es) => '\x7b' :: prettyEntries level (e :: es)

def prettyItems (level : Nat) : List Json → List Char
  | [] => newLine level ++ [']']
  | v :: vs => newLine (level + 1) ++ pretty (level + 1) v ++ (match vs with
    | [] => newLine level ++ [']']
    | _ => ',' :: prettyItems level vs)

def prettyEntries (level : Nat) : List (String × Json) → List Char
  | [] => newLine level ++ ['\x7d']
  | (k, v) :: es => newLine (level + 1) ++ quotation k ++ ':' :: ' ' :: pretty (level + 1) v ++
    (match es with
    | [] => newLine level ++ ['\x7d']
    | _ => ',' :: prettyEntries level es)

end

def toText (v : Json) : String := String.ofList v.compact

def toPretty (v : Json) : String := String.ofList (v.pretty 0)

end PromptChain.Json
