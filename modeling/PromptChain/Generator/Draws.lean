/-!
# Random draws

A random choice is a draw below a bound. `Draws` is the sequence of all draws of a run and how many
have been taken; every outcome of the choices is that of some sequence.
-/

set_option autoImplicit false

namespace PromptChain.Generator

structure Draws where
  sequence : Nat → Nat
  taken : Nat

abbrev Drawing (α : Type) := StateM Draws α

/-- The draws that a seed determines, as scattered as the bits of a word allow. -/
def Draws.ofSeed (seed : UInt64) : Draws :=
  let scatter (z : UInt64) : UInt64 :=
    let z := (z ^^^ (z >>> 30)) * 0xBF58476D1CE4E5B9
    let z := (z ^^^ (z >>> 27)) * 0x94D049BB133111EB
    z ^^^ (z >>> 31)
  ⟨fun i => (scatter (seed + i.toUInt64 * 0x9E3779B97F4A7C15)).toNat, 0⟩

def drawBelow (bound : Nat) : Drawing Nat := fun d =>
  (d.sequence d.taken % bound, { d with taken := d.taken + 1 })

def drawFrom? {α : Type} (l : List α) : Drawing (Option α) := do
  return l[← drawBelow l.length]?

/-- The number at a place among those that are not in an ascending list. -/
def skipOver (place : Nat) : List Nat → Nat
  | [] => place
  | n :: ns => if n ≤ place then skipOver (place + 1) ns else place

def insertAscending (n : Nat) : List Nat → List Nat
  | [] => [n]
  | m :: ms => if n ≤ m then n :: m :: ms else m :: insertAscending n ms

/-- Different numbers below a bound, as many as asked for; `drawn` holds those so far, ascending. -/
def drawDistinct (bound : Nat) : (count : Nat) → (drawn : List Nat) → Drawing (List Nat)
  | 0, _ => return []
  | count + 1, drawn => do
    let n := skipOver (← drawBelow (bound - drawn.length)) drawn
    return n :: (← drawDistinct bound count (insertAscending n drawn))

end PromptChain.Generator
