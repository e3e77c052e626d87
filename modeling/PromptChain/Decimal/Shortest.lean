/-!
# The shortest decimal of a double

A finite double stands for the interval of reals that round to it. `Decimal.shortest` is the decimal
with the fewest digits in that interval; of two with equally many digits it is the nearer one, and
of two equally near ones the one with the even last digit.
-/

set_option autoImplicit false

namespace PromptChain

/-- A positive binary fraction `mantissa * 2 ^ exponent`, with the step down to its lower neighbour
half as wide as the step up when `narrowBelow`. -/
structure Dyadic where
  mantissa : Nat
  exponent : Int
  narrowBelow : Bool
deriving DecidableEq

/-- A decimal `digits * 10 ^ exponent`. -/
structure Decimal where
  digits : Nat
  exponent : Int
deriving DecidableEq

namespace Dyadic

/-- The magnitude of the double with these bits; the mantissa is zero for a zero. -/
def ofBits (bits : UInt64) : Dyadic :=
  let fraction : Nat := bits.toNat % 0x10000000000000
  let biased : Nat := bits.toNat / 0x10000000000000 % 0x800
  if biased = 0 then ⟨fraction, -1074, false⟩
  else ⟨0x10000000000000 + fraction, (biased : Int) - 1075, fraction = 0 && 1 < biased⟩

/-- A quarter of the last place of the mantissa, as a fraction `numerator / denominator`. -/
def quarter (x : Dyadic) : Nat × Nat :=
  if 2 ≤ x.exponent then (Nat.pow 2 (x.exponent - 2).toNat, 1)
  else (1, Nat.pow 2 (2 - x.exponent).toNat)

/-- Four mantissas: the value counted in quarters of its last place. -/
def quarters (x : Dyadic) : Nat := 4 * x.mantissa

/-- The lower end of the interval that rounds to the value, in quarters. -/
def lowQuarters (x : Dyadic) : Nat := x.quarters - if x.narrowBelow then 1 else 2

/-- The upper end of the interval that rounds to the value, in quarters. -/
def highQuarters (x : Dyadic) : Nat := x.quarters + 2

/-- The ends of the interval round to the value exactly when the mantissa is even. -/
def ownsEnds (x : Dyadic) : Bool := x.mantissa % 2 = 0

/-- Whether `numerator / denominator` rounds to the value, with `unit` a quarter of the last
place. -/
def rounds (x : Dyadic) (unit : Nat × Nat) (numerator denominator : Nat) : Bool :=
  let here := numerator * unit.2
  let low := x.lowQuarters * unit.1 * denominator
  let high := x.highQuarters * unit.1 * denominator
  (low < here && here < high) || (x.ownsEnds && (here = low || here = high))

end Dyadic

namespace Decimal

/-- The number of decimal digits of a natural number, one for zero. -/
def digitCount (n : Nat) : Nat := (Nat.toDigits 10 n).length

/-- The exponent of the first digit of the positive fraction `numerator / denominator`. -/
def leadingExponent (numerator denominator : Nat) : Int :=
  let guess := (digitCount numerator : Int) - digitCount denominator
  let reaches :=
    if 0 ≤ guess then denominator * Nat.pow 10 guess.toNat ≤ numerator
    else denominator ≤ numerator * Nat.pow 10 (-guess).toNat
  if reaches then guess else guess - 1

/-- The point `digits` of the grid with step `10 ^ exponent`, as a fraction. -/
def gridPoint (digits : Nat) (exponent : Int) : Nat × Nat :=
  if 0 ≤ exponent then (digits * Nat.pow 10 exponent.toNat, 1)
  else (digits, Nat.pow 10 (-exponent).toNat)

/-- The best point of the grid with step `10 ^ exponent`: one of the two neighbours of the value,
if it rounds to the value. -/
def onGrid? (x : Dyadic) (unit : Nat × Nat) (exponent : Int) : Option Decimal :=
  let numerator := x.quarters * unit.1
  let step := gridPoint 1 exponent
  let below := numerator * step.2 / (unit.2 * step.1)
  let fits (d : Nat) : Bool := let p := gridPoint d exponent; x.rounds unit p.1 p.2
  let excess := numerator * step.2 % (unit.2 * step.1)
  let nearerBelow :=
    2 * excess < unit.2 * step.1 || (2 * excess = unit.2 * step.1 && below % 2 = 0)
  let (first, second) := if nearerBelow then (below, below + 1) else (below + 1, below)
  if fits first then some ⟨first, exponent⟩
  else if fits second then some ⟨second, exponent⟩
  else none

/-- The first grid that holds a decimal of the value, from `count` digits on. -/
def search (x : Dyadic) (unit : Nat × Nat) (leading : Int) : (tries count : Nat) → Decimal
  | 0, _ => ⟨0, 0⟩
  | tries + 1, count =>
    match onGrid? x unit (leading - count) with
    | some d => d
    | none => search x unit leading tries (count + 1)

/-- A single digit that was rounded up to ten is a one in the next place. -/
def carried (d : Decimal) : Decimal := if d.digits = 10 then ⟨1, d.exponent + 1⟩ else d

/-- The shortest decimal of a positive double; seventeen digits always suffice. -/
def shortest (x : Dyadic) : Decimal :=
  let unit := x.quarter
  carried (search x unit (leadingExponent (x.quarters * unit.1) unit.2) 18 0)

example : shortest (.ofBits (0.1 : Float).toBits) = ⟨1, -1⟩ := by decide +kernel
example : shortest (.ofBits (1.0e23 : Float).toBits) = ⟨1, 23⟩ := by decide +kernel
example : shortest (.ofBits 1) = ⟨5, -324⟩ := by decide +kernel
example : shortest (.ofBits (0.1 + 0.2 : Float).toBits) = ⟨30000000000000004, -17⟩ := by
  decide +kernel

end Decimal

end PromptChain
