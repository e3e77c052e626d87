import PromptChain.Json.Fault

/-!
# Strings in a JSON text

`quotation` writes a string between double quotes, escaping quotes, backslashes and control
characters. `readQuotation` reads what follows an opening quote one character at a time, in the
states of `Spelling`; `passQuotation` passes over a string without reading it.
-/

set_option autoImplicit false

namespace PromptChain.Json

def escaped (c : Char) : List Char :=
  match c with
  | '"' => ['\\', '"']
  | '\\' => ['\\', '\\']
  | '\x08' => ['\\', 'b']
  | '\t' => ['\\', 't']
  | '\n' => ['\\', 'n']
  | '\x0c' => ['\\', 'f']
  | '\r' => ['\\', 'r']
  | c =>
    if c.toNat < 0x20 then
      ['\\', 'u', '0', '0', Nat.digitChar (c.toNat / 16), Nat.digitChar (c.toNat % 16)]
    else [c]

def quotation (s : String) : List Char := '"' :: s.toList.flatMap escaped ++ ['"']

def shortEscape? : Char → Option Char
  | '"' => some '"'
  | '\\' => some '\\'
  | '/' => some '/'
  | 'b' => some '\x08'
  | 'f' => some '\x0c'
  | 'n' => some '\n'
  | 'r' => some '\r'
  | 't' => some '\t'
  | _ => none

def hexDigit? (c : Char) : Option Nat :=
  if '0' ≤ c && c ≤ '9' then some (c.toNat - '0'.toNat)
  else if 'a' ≤ c && c ≤ 'f' then some (c.toNat - 'a'.toNat + 10)
  else if 'A' ≤ c && c ≤ 'F' then some (c.toNat - 'A'.toNat + 10)
  else none

def isLeadingSurrogate (unit : Nat) : Bool := 0xD800 ≤ unit && unit ≤ 0xDBFF

def isTrailingSurrogate (unit : Nat) : Bool := 0xDC00 ≤ unit && unit ≤ 0xDFFF

def pairedChar (leading trailing : Nat) : Char :=
  Char.ofNat ((leading - 0xD800) * 0x400 + (trailing - 0xDC00) + 0x10000)

/-- Whether fewer than four bytes are left for the digits of an escape. -/
def lacksDigits (rest : List Char) : Bool :=
  (rest.take 4).foldl (fun n c => n + c.utf8Size) 0 < 4

/-- What the characters read so far ask of the next one. -/
inductive Spelling where
  | plain
  | escape
  /-- Inside the digits of an escape, with the leading half of a pair if one came before. -/
  | digits (leading : Option Nat) (left : Nat) (value : Nat)
  /-- After a leading half, which a second escape must follow. -/
  | half (leading : Nat)
  | halfEscape (leading : Nat)
deriving DecidableEq

/-- What a complete escape of four digits gives: a character, or the wait for a second half. -/
def unitRead : Option Nat → Nat → Except Malformed (Char ⊕ Nat)
  | none, unit =>
    if isTrailingSurrogate unit then .error .loneSurrogate
    else if isLeadingSurrogate unit then .ok (.inr unit)
    else .ok (.inl (Char.ofNat unit))
  | some leading, unit =>
    if isTrailingSurrogate unit then .ok (.inl (pairedChar leading unit))
    else .error .loneSurrogate

/-- Read up to the closing quote; `done` holds the characters so far, the last one first. -/
def readSpelling : Spelling → List Char → List Char → Except Malformed (List Char × List Char)
  | _, _, [] => .error .stringUnfinished
  | .plain, done, c :: rest =>
    if c = '"' then .ok (done.reverse, rest)
    else if c = '\\' then readSpelling .escape done rest
    else if c.toNat < 0x20 then .error .controlCharacter
    else readSpelling .plain (c :: done) rest
  | .escape, done, c :: rest =>
    if c = 'u' then
      if lacksDigits rest then .error .stringUnfinished
      else readSpelling (.digits none 4 0) done rest
    else match shortEscape? c with
      | some d => readSpelling .plain (d :: done) rest
      | none => .error .badEscape
  | .digits leading left value, done, c :: rest =>
    match hexDigit? c with
    | none => .error .badEscape
    | some d =>
      if 1 < left then readSpelling (.digits leading (left - 1) (value * 16 + d)) done rest
      else match unitRead leading (value * 16 + d) with
        | .error cause => .error cause
        | .ok (.inl c) => readSpelling .plain (c :: done) rest
        | .ok (.inr unit) => readSpelling (.half unit) done rest
  | .half leading, done, c :: rest =>
    if c = '\\' then readSpelling (.halfEscape leading) done rest else .error .escapeUnfinished
  | .halfEscape leading, done, c :: rest =>
    if c = 'u' then
      if lacksDigits rest then .error .stringUnfinished
      else readSpelling (.digits (some leading) 4 0) done rest
    else .error .escapeUnfinished

def readQuotation (cs : List Char) : Reading (String × List Char) :=
  match readSpelling .plain [] cs with
  | .error cause => malformed cause
  | .ok (s, rest) => .ok (String.ofList s, rest)

inductive Passing where
  | plain
  | escape
  | digits (left : Nat)
deriving DecidableEq

/-- Pass over the rest of a string: its escapes must be whole, but need not name a character. -/
def passSpelling : Passing → List Char → Except Malformed (List Char)
  | _, [] => .error .stringUnfinished
  | .plain, c :: rest =>
    if c = '"' then .ok rest
    else if c = '\\' then passSpelling .escape rest
    else if c.toNat < 0x20 then .error .controlCharacter
    else passSpelling .plain rest
  | .escape, c :: rest =>
    if c = 'u' then
      if lacksDigits rest then .error .stringUnfinished else passSpelling (.digits 4) rest
    else if (shortEscape? c).isSome then passSpelling .plain rest
    else .error .badEscape
  | .digits left, c :: rest =>
    if (hexDigit? c).isNone then .error .badEscape
    else if 1 < left then passSpelling (.digits (left - 1)) rest
    else passSpelling .plain rest

def passQuotation (cs : List Char) : Reading (List Char) :=
  match passSpelling .plain cs with
  | .error cause => malformed cause
  | .ok rest => .ok rest

example : quotation "a\"\n\x01é" = "\"a\\\"\\n\\u0001é\"".toList := by decide +kernel
example : readQuotation "a\\u00e9\\ud83d\\ude00\" ,".toList = .ok ("aé😀", [' ', ',']) := by rfl
example : readQuotation "\\ud83dx\"".toList = malformed .escapeUnfinished := by rfl
example : readQuotation "\\u12\"".toList = malformed .stringUnfinished := by rfl

end PromptChain.Json
