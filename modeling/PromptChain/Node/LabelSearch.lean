import PromptChain.Node.Edit

/-!
# The search for a label, turn by turn

A search has a label at hand and a number for the label after it. As long as some branch bears the
label at hand, the next one is written with the number and the number goes up. Nothing in the search
itself sets an end to this. A `Counter` says what is counted with: numbers without end, or words of
32 bits, the greatest of which has none after it.
-/

set_option autoImplicit false

namespace PromptChain.Node

/-- A search under way: the label at hand, and the number that the label after it is written
with. -/
structure LabelSearch (ν : Type) where
  label : String
  number : ν

namespace LabelSearch

structure Counter (ν : Type) where
  first : ν
  value : ν → Int
  next? : ν → Option ν

namespace Counter

def natural : Counter Nat := ⟨2, Int.ofNat, fun n => some (n + 1)⟩

def word32 : Counter Int32 :=
  ⟨2, Int32.toInt, fun n => if n = Int32.maxValue then none else some (n + 1)⟩

end Counter

variable {ν : Type}

inductive Outcome (ν : Type) where
  | found (label : String)
  /-- A branch bears it, and the search goes on from here. -/
  | goesOn (s : LabelSearch ν)
  /-- A branch bears it, and the counter has nothing after its number. -/
  | overflow

def baseLabel (id : NodeId) : String := "case text " ++ String.ofList (Decimal.naturalText id.toNat)

def numberedLabel (id : NodeId) (n : Int) : String :=
  baseLabel id ++ " (" ++ String.ofList (Decimal.integerText n) ++ ")"

def start (c : Counter ν) (id : NodeId) : LabelSearch ν := ⟨baseLabel id, c.first⟩

/-- Test the label at hand; if it is taken, write the next one and count on. -/
def turn (c : Counter ν) (branches : List (String × Node)) (id : NodeId) (s : LabelSearch ν) :
    Outcome ν :=
  if Entries.has branches s.label then
    match c.next? s.number with
    | some number => .goesOn ⟨numberedLabel id (c.value s.number), number⟩
    | none => .overflow
  else .found s.label

/-- Where a search stands after so many turns, in each of which the label at hand was taken. -/
inductive Reaches (c : Counter ν) (branches : List (String × Node)) (id : NodeId) :
    Nat → LabelSearch ν → Prop where
  | start : Reaches c branches id 0 (start c id)
  | onward {turns : Nat} {s t : LabelSearch ν} :
      Reaches c branches id turns s → s.turn c branches id = .goesOn t →
      Reaches c branches id (turns + 1) t

/-- The search finds a label, the last of so many that it tests. -/
def Finds (c : Counter ν) (branches : List (String × Node)) (id : NodeId) (tests : Nat)
    (label : String) : Prop :=
  ∃ turns s, Reaches c branches id turns s ∧ s.turn c branches id = .found label ∧ tests = turns + 1

def Overflows (c : Counter ν) (branches : List (String × Node)) (id : NodeId) : Prop :=
  ∃ turns s, Reaches c branches id turns s ∧ s.turn c branches id = .overflow

/-- A search that comes to an end, at this label and no other, with at most one test more than there
are branches and the counter at most two above their number. -/
structure Settles (c : Counter ν) (branches : List (String × Node)) (id : NodeId) (label : String) :
    Prop where
  finds : ∃ tests ≤ branches.length + 1, Finds c branches id tests label
  found_eq : ∀ tests found, Finds c branches id tests found → found = label
  turns_le : ∀ turns s, Reaches c branches id turns s → turns ≤ branches.length
  value_le : ∀ turns s, Reaches c branches id turns s → c.value s.number ≤ branches.length + 2
  not_overflows : ¬ Overflows c branches id

end LabelSearch

end PromptChain.Node
