import PromptChain.Json.Fault
import PromptChain.Decimal.Scaled

/-!
# Numbers in a JSON text

A numeral is an integer part, a fraction and an exponent. Its digits go into a 64-bit word as long
as they fit: integer digits beyond the word count as a power of ten, fraction digits beyond it are
dropped. An integer that fits a word stays one; every other numeral is a double.
-/

set_option autoImplicit false

namespace PromptChain.Json

def digitValue (c : Char) : Nat := c.toNat - '0'.toNat

def greatestWord : Nat := 0xFFFFFFFFFFFFFFFF

/-- Append digits to a word while it stays a word; the digits that did not fit are left. -/
def absorb : Nat → List Char → Nat × List Char
  | word, [] => (word, [])
  | word, d :: ds =>
    let next := word * 10 + digitValue d
    if next ≤ greatestWord then absorb next ds else (word, d :: ds)

def spanDigits (cs : List Char) : List Char × List Char :=
  (cs.takeWhile Char.isDigit, cs.dropWhile Char.isDigit)

/-- A power of ten in front of which a word stands, with what is left of the text. -/
structure Scaling where
  word : Nat
  exponent : Int
  rest : List Char

/-- The complaint about a text that goes on with `rest` where a digit must stand. -/
def digitMissing : List Char → Malformed
  | [] => .valueUnfinished
  | _ :: _ => .badNumber

/-- The integer part: one zero, or digits that start with another digit. -/
def readWhole (cs : List Char) : Except Malformed Scaling :=
  match cs with
  | [] => .error .valueUnfinished
  | c :: rest =>
    if c = '0' then
      if (spanDigits rest).1 = [] then .ok ⟨0, 0, rest⟩ else .error .badNumber
    else if c.isDigit then
      let (digits, rest) := spanDigits cs
      let (word, left) := absorb 0 digits
      .ok ⟨word, left.length, rest⟩
    else .error .badNumber

def readFraction (s : Scaling) : Except Malformed Scaling :=
  match s.rest with
  | '.' :: cs =>
    let (digits, rest) := spanDigits cs
    if digits = [] then .error (digitMissing rest)
    else
      let (word, left) := absorb s.word digits
      .ok ⟨word, s.exponent - (digits.length - left.length : Nat), rest⟩
  | _ => .ok s

def digitsValue (ds : List Char) : Nat := ds.foldl (fun n d => n * 10 + digitValue d) 0

def readExponent (s : Scaling) : Except Malformed Scaling :=
  match s.rest with
  | [] => .ok s
  | c :: cs =>
    if c = 'e' || c = 'E' then
      let (negative, cs) := match cs with
        | '+' :: cs => (false, cs)
        | '-' :: cs => (true, cs)
        | cs => (false, cs)
      let (digits, rest) := spanDigits cs
      if digits = [] then .error (digitMissing rest)
      else
        let n : Int := digitsValue digits
        .ok ⟨s.word, if negative then s.exponent - n else s.exponent + n, rest⟩
    else .ok s

def asDouble (negative : Bool) (word : Nat) (exponent : Int) : Except Malformed Number :=
  match Decimal.scaled? negative word.toUInt64 exponent with
  | some x => .ok (.double x)
  | none => .error .numberTooLarge

/-- The number of a word without fraction or exponent. The negative zero and the negative numbers
below the least signed word are doubles. -/
def asInteger (negative : Bool) (word : Nat) : Number :=
  if !negative then .integer word
  else if word = 0 || 0x8000000000000000 < word then .double (-word.toUInt64.toFloat)
  else .integer (-word)

def continuesNumeral : List Char → Bool
  | [] => false
  | c :: _ => c = '.' || c = 'e' || c = 'E'

def readMagnitude (negative : Bool) (cs : List Char) : Except Malformed (Number × List Char) := do
  let whole ← readWhole cs
  if whole.exponent = 0 && !continuesNumeral whole.rest then
    return (asInteger negative whole.word, whole.rest)
  let scaling ← readExponent (← readFraction whole)
  return (← asDouble negative scaling.word scaling.exponent, scaling.rest)

def readNumeral (cs : List Char) : Reading (Number × List Char) :=
  let read := match cs with
    | '-' :: rest => readMagnitude true rest
    | cs => readMagnitude false cs
  match read with
  | .error cause => malformed cause
  | .ok r => .ok r

def passDigits (cs : List Char) : Except Malformed (List Char) :=
  let (digits, rest) := spanDigits cs
  if digits = [] then .error .badNumber else .ok rest

/-- Pass over the integer part: one zero, or digits that start with another digit. -/
def passWhole : List Char → Except Malformed (List Char)
  | '0' :: rest => if (spanDigits rest).1 = [] then .ok rest else .error .badNumber
  | cs => passDigits cs

def passFraction : List Char → Except Malformed (List Char)
  | '.' :: cs => passDigits cs
  | cs => .ok cs

def unsigned : List Char → List Char
  | '+' :: cs => cs
  | '-' :: cs => cs
  | cs => cs

def passExponent : List Char → Except Malformed (List Char)
  | [] => .ok []
  | c :: cs => if c = 'e' || c = 'E' then passDigits (unsigned cs) else .ok (c :: cs)

def passMagnitude (cs : List Char) : Except Malformed (List Char) := do
  passExponent (← passFraction (← passWhole cs))

/-- Pass over the numeral that a text starts with; its size does not matter. -/
def passNumeral (cs : List Char) : Reading (List Char) :=
  let passed := match cs with
    | '-' :: rest => passMagnitude rest
    | cs => passMagnitude cs
  match passed with
  | .error cause => malformed cause
  | .ok rest => .ok rest

example : readNumeral "18446744073709551615,".toList =
    .ok (.integer 18446744073709551615, [',']) := by rfl
example : readNumeral "-0".toList = .ok (.double (-0.0), []) := by rfl
example : readNumeral "-9223372036854775808 ".toList =
    .ok (.integer (-9223372036854775808), [' ']) := by rfl
example : readNumeral "1e400".toList = malformed .numberTooLarge := by rfl
example : readNumeral "01".toList = malformed .badNumber := by rfl
example : readNumeral "1.5e2".toList = .ok (.double 150.0, []) := by rfl

end PromptChain.Json
