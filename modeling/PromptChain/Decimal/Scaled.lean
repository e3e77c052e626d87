/-!
# Doubles from a word and a power of ten

A document's number is read as a 64-bit word times a power of ten: the word is rounded to a double,
which is then multiplied or divided by a power of ten in one rounding. `Decimal.scaled?` is that
value, with nothing for a number beyond the largest double.
-/

set_option autoImplicit false

namespace PromptChain.Decimal

def tenTo (n : Nat) : Float := Float.ofScientific 1 false n

def greatestPower : Nat := 308

/-- A double times `10 ^ n`, unless it exceeds the largest double. -/
def scaledUp? (x : Float) (n : Nat) : Option Float :=
  if n ≤ greatestPower then
    let y := x * tenTo n
    if y.isInf then none else some y
  else if x == 0.0 then some x
  else none

/-- A double divided by `10 ^ n`. A power beyond the doubles takes two divisions, and one beyond the
square of the greatest leaves nothing of any 64-bit word. -/
def scaledDown (x : Float) (n : Nat) : Float :=
  if n ≤ greatestPower then x / tenTo n
  else if n ≤ 2 * greatestPower then x / tenTo greatestPower / tenTo (n - greatestPower)
  else 0.0

def scaled? (negative : Bool) (word : UInt64) (exponent : Int) : Option Float :=
  let magnitude :=
    if 0 ≤ exponent then scaledUp? word.toFloat exponent.toNat
    else some (scaledDown word.toFloat (-exponent).toNat)
  magnitude.map fun x => if negative then -x else x

end PromptChain.Decimal
