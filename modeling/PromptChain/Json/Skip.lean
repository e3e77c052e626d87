import PromptChain.Json.Reader

/-!
# Passing over a value

The value of an unknown field is passed over, not read: its numbers may be of any size, its escapes
need not name characters, and it may nest to any depth. What is open is kept on a stack.
-/

set_option autoImplicit false

namespace PromptChain.Json

inductive Bracket where
  | list
  | object
deriving DecidableEq

def passKey (cs : List Char) : Reading (List Char) := do
  match skipBlanks cs with
  | [] => malformed .objectUnfinished
  | '"' :: rest => passColon (← passQuotation rest)
  | _ => malformed .keyExpected

/-- Go to the value that follows an opening bracket or a comma. -/
def passToValue : Bracket → List Char → Reading (List Char)
  | .list, cs => .ok cs
  | .object, cs => passKey cs

def Bracket.closes : Bracket → Char → Bool
  | .list, c => c = ']'
  | .object, c => c = '\x7d'

def Bracket.unfinished : Bracket → Malformed
  | .list => .listUnfinished
  | .object => .objectUnfinished

/-- The complaint about a text that goes on wrongly inside a bracket. -/
def Bracket.endExpected : Bracket → Malformed
  | .list => .listEndExpected
  | .object => .objectEndExpected

mutual

def passValue : Nat → List Bracket → List Char → Reading (List Char)
  | 0, _, _ => malformed .valueUnfinished
  | budget + 1, stack, cs => do
    match skipBlanks cs with
    | [] => malformed .valueUnfinished
    | c :: rest =>
      if c = 'n' then passOpen budget stack (← expect ['u', 'l', 'l'] rest)
      else if c = 't' then passOpen budget stack (← expect ['r', 'u', 'e'] rest)
      else if c = 'f' then passOpen budget stack (← expect ['a', 'l', 's', 'e'] rest)
      else if c = '"' then passOpen budget stack (← passQuotation rest)
      else if c = '-' || c.isDigit then passOpen budget stack (← passNumeral (c :: rest))
      else if c = '[' then passFirst budget stack .list rest
      else if c = '\x7b' then passFirst budget stack .object rest
      else malformed .valueExpected

/-- Pass over the inside of a bracket that has just been opened. -/
def passFirst : Nat → List Bracket → Bracket → List Char → Reading (List Char)
  | 0, _, _, _ => malformed .valueUnfinished
  | budget + 1, stack, bracket, cs => do
    match skipBlanks cs with
    | [] => malformed bracket.unfinished
    | c :: rest =>
      if bracket.closes c then passOpen budget stack rest
      else passValue budget (bracket :: stack) (← passToValue bracket (c :: rest))

def passOpen : Nat → List Bracket → List Char → Reading (List Char)
  | 0, _, _ => malformed .valueUnfinished
  | _ + 1, [], cs => .ok cs
  | budget + 1, bracket :: stack, cs => do
    match skipBlanks cs with
    | [] => malformed bracket.unfinished
    | c :: rest =>
      if c = ',' then passValue budget (bracket :: stack) (← passToValue bracket rest)
      else if bracket.closes c then passOpen budget stack rest
      else malformed bracket.endExpected

end

/-- Pass over the value that a text starts with. Each step but the last takes a character. -/
def skipValue (cs : List Char) : Reading (List Char) := passValue (2 * cs.length + 2) [] cs

example : skipValue "[1e999, \x7b\"a\": \"\\ud800\"\x7d] rest".toList = .ok " rest".toList := by cbv
example : skipValue "[1,]".toList = malformed .valueExpected := by cbv

end PromptChain.Json
