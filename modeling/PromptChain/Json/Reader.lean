import PromptChain.Json.Quotation
import PromptChain.Json.Numeral

/-!
# Reading JSON text

A `Reader` takes a value off the front of a text. Lists and objects are read by one loop each, over
the reader of an element or the step of an entry; `value` ties them together. `room` bounds how many
more lists and objects may be entered, `budget` how many elements a loop may read: the length of the
text is always enough.
-/

set_option autoImplicit false

namespace PromptChain.Json

abbrev Reader (α : Type) := List Char → Reading (α × List Char)

def isBlank (c : Char) : Bool := c = ' ' || c = '\n' || c = '\t' || c = '\r'

def skipBlanks (cs : List Char) : List Char := cs.dropWhile isBlank

def expect : List Char → List Char → Reading (List Char)
  | [], cs => .ok cs
  | _ :: _, [] => malformed .valueUnfinished
  | l :: ls, c :: cs => if c = l then expect ls cs else malformed .literalExpected

def passColon (cs : List Char) : Reading (List Char) :=
  match skipBlanks cs with
  | ':' :: rest => .ok rest
  | [] => malformed .objectUnfinished
  | _ => malformed .colonExpected

def depthLimit : Nat := 127

def nextElement? (first : Bool) (cs : List Char) : Reading (Option (List Char)) :=
  match skipBlanks cs with
  | [] => malformed .listUnfinished
  | c :: rest =>
    if c = ']' then .ok none
    else if first then .ok (some (c :: rest))
    else if c = ',' then
      match skipBlanks rest with
      | [] => malformed .valueUnfinished
      | ']' :: _ => malformed .trailingComma
      | cs => .ok (some cs)
    else malformed .listEndExpected

/-- Pass over the end of a list, where no further element may stand. -/
def closeList (cs : List Char) : Reading (List Char) :=
  match skipBlanks cs with
  | [] => malformed .listUnfinished
  | ']' :: rest => .ok rest
  | ',' :: rest =>
    match skipBlanks rest with
    | ']' :: _ => malformed .trailingComma
    | _ => malformed .trailingText
  | _ => malformed .trailingText

/-- Read the elements of a list up to its end; `done` holds those so far, the last one first. -/
def readElements {α : Type} (read : Reader α) : Nat → Bool → List α → Reader (List α)
  | 0, _, _, _ => malformed .listUnfinished
  | budget + 1, first, done, cs => do
    match ← nextElement? first cs with
    | none => return (done.reverse, ← closeList cs)
    | some cs =>
      let (a, cs) ← read cs
      readElements read budget false (a :: done) cs

/-- Read the key of the next entry of an object, or stop before its end. -/
def nextKey? (first : Bool) (cs : List Char) : Reading (Option (String × List Char)) :=
  match skipBlanks cs with
  | [] => malformed .objectUnfinished
  | c :: rest =>
    if c = '\x7d' then .ok none
    else if first then
      if c = '"' then some <$> readQuotation rest else malformed .keyExpected
    else if c = ',' then
      match skipBlanks rest with
      | [] => malformed .valueUnfinished
      | '"' :: rest => some <$> readQuotation rest
      | '\x7d' :: _ => malformed .trailingComma
      | _ => malformed .keyExpected
    else malformed .objectEndExpected

def closeObject (cs : List Char) : Reading (List Char) :=
  match skipBlanks cs with
  | [] => malformed .objectUnfinished
  | '\x7d' :: rest => .ok rest
  | ',' :: _ => malformed .trailingComma
  | _ => malformed .trailingText

/-- Fold over the entries of an object up to its end. The step gets a key with the text behind it,
from the colon on. -/
def foldEntries {σ : Type} (step : σ → String → Reader σ) : Nat → Bool → σ → Reader σ
  | 0, _, _, _ => malformed .objectUnfinished
  | budget + 1, first, s, cs => do
    match ← nextKey? first cs with
    | none => return (s, ← closeObject cs)
    | some (key, cs) =>
      let (s, cs) ← step s key cs
      foldEntries step budget false s cs

def keepEntry {α : Type} (read : Reader α) (done : List (String × α)) (key : String) :
    Reader (List (String × α)) := fun cs => do
  let (v, cs) ← read (← passColon cs)
  return ((key, v) :: done, cs)

def readEntries {α : Type} (read : Reader α) (budget : Nat) : Reader (List (String × α)) :=
  fun cs => do
    let (done, cs) ← foldEntries (keepEntry read) budget true [] cs
    return (done.reverse, cs)

/-- Read the scalar that a text starts with; a list or an object is left to the caller. -/
def readScalar (containers : Char → Reader Json) : Reader Json := fun cs =>
  match skipBlanks cs with
  | [] => malformed .valueUnfinished
  | c :: rest =>
    if c = 'n' then do return (.null, ← expect ['u', 'l', 'l'] rest)
    else if c = 't' then do return (.bool true, ← expect ['r', 'u', 'e'] rest)
    else if c = 'f' then do return (.bool false, ← expect ['a', 'l', 's', 'e'] rest)
    else if c = '"' then do
      let (s, rest) ← readQuotation rest
      return (.text s, rest)
    else if c = '-' || c.isDigit then do
      let (n, rest) ← readNumeral (c :: rest)
      return (.number n, rest)
    else if c = '[' || c = '\x7b' then containers c rest
    else malformed .valueExpected

/-- Read a value in which `room` lists and objects may be nested. -/
def value (budget : Nat) : Nat → Reader Json
  | 0 => readScalar fun _ _ => malformed .tooDeep
  | room + 1 => readScalar fun c rest =>
    if c = '[' then do
      let (vs, rest) ← readElements (value budget room) budget true [] rest
      return (.array vs, rest)
    else do
      let (es, rest) ← readEntries (value budget room) budget rest
      return (.object es, rest)

/-- Complain about the value that a text starts with, where `wanted` should stand. A scalar is read
first, and is itself at fault if it cannot be. -/
def readMistyped {α : Type} (wanted : String) (cs : List Char) : Reading α := do
  let (v, _) ← readScalar
    (fun c _ => .ok (if c = '[' then .array [] else .object [], [])) cs
  mistyped wanted v

/-- Read a whole text: a value with nothing but blanks after it. -/
def readWith {α : Type} (read : Nat → Reader α) (text : String) : Reading α := do
  let cs := text.toList
  let (a, rest) ← read (cs.length + 1) cs
  if (skipBlanks rest).isEmpty then return a else malformed .trailingText

def ofText (text : String) : Reading Json := readWith (fun budget => value budget depthLimit) text

end PromptChain.Json
