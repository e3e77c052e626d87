import PromptChain.Decimal.Shortest

/-!
# How a number is laid out

`Layout` records the choices left open by the digits of a number: which exponents are written out
positionally and how the exponent is written otherwise. `numberText` is the text of a double under
the layout of this library's documents.
-/

set_option autoImplicit false

namespace PromptChain.Decimal

structure Layout where
  /-- The least exponent of the first digit that is written positionally. -/
  leastPlain : Int
  /-- The greatest exponent of the first digit that is written positionally. -/
  greatestPlain : Int
  mark : Char
  signed : Bool

/-- Documents write `0.00001` to `9999999999999998.0` positionally and all else as `1.5e+16`. -/
def Layout.document : Layout := ⟨-5, 15, 'e', true⟩

def naturalText (n : Nat) : List Char := Nat.toDigits 10 n

/-- The text of an integer: a minus sign before a negative one. -/
def integerText : Int → List Char
  | .ofNat n => naturalText n
  | .negSucc n => '-' :: naturalText (n + 1)

/-- Digits with a point after the first `place` of them, filled up by zeros, at least one digit on
each side of the point. -/
def pointed (digits : List Char) (place : Int) : List Char :=
  if place ≤ 0 then '0' :: '.' :: List.replicate (-place).toNat '0' ++ digits
  else if digits.length ≤ place.toNat then
    digits ++ List.replicate (place.toNat - digits.length) '0' ++ ['.', '0']
  else digits.take place.toNat ++ '.' :: digits.drop place.toNat

/-- The first digit, a point if more follow, and the exponent of the first digit. -/
def scientific (layout : Layout) (digits : List Char) (exponent : Int) : List Char :=
  let body := match digits with
    | [] => []
    | [d] => [d]
    | d :: rest => d :: '.' :: rest
  let sign := if 0 ≤ exponent && layout.signed then ['+'] else []
  body ++ layout.mark :: sign ++ integerText exponent

def text (layout : Layout) (d : Decimal) : List Char :=
  let digits := naturalText d.digits
  let leading := d.exponent + digits.length - 1
  if layout.leastPlain ≤ leading && leading ≤ layout.greatestPlain then pointed digits (leading + 1)
  else scientific layout digits leading

/-- The text of a finite double: its shortest decimal, `0.0` for a zero, a minus sign before a
negative one, the negative zero included. -/
def floatText (layout : Layout) (x : Float) : List Char :=
  let magnitude := Dyadic.ofBits x.toBits
  let body := if magnitude.mantissa = 0 then ['0', '.', '0'] else text layout (shortest magnitude)
  if x.toBits < 0x8000000000000000 then body else '-' :: body

def numberText : Float → List Char := floatText .document

example : numberText 0.00001 = "0.00001".toList := by decide +kernel
example : numberText 1e16 = "1e+16".toList := by decide +kernel
example : numberText (-0.0) = "-0.0".toList := by decide +kernel
example : numberText 9999999999999998.0 = "9999999999999998.0".toList := by decide +kernel
example : numberText 1.5e-7 = "1.5e-7".toList := by decide +kernel

end PromptChain.Decimal
