/-!
# Sets that remember their order

An `OrderedSet` lists its elements once each, in the order in which they were first seen. Union
keeps the left order and appends what is new; intersection and difference filter the left set.
-/

set_option autoImplicit false

namespace PromptChain

variable {α : Type} [DecidableEq α]

def firsts : List α → List α
  | [] => []
  | a :: l => a :: (firsts l).filter (· ≠ a)

theorem mem_firsts (x : α) (l : List α) : x ∈ firsts l ↔ x ∈ l := by
  induction l with
  | nil => simp [firsts]
  | cons a l ih => by_cases h : x = a <;> simp [firsts, ih, h]

theorem nodup_firsts (l : List α) : (firsts l).Nodup := by
  induction l with
  | nil => simp [firsts]
  | cons a l ih => exact List.nodup_cons.2 ⟨by simp, ih.filter _⟩

theorem firsts_of_nodup {l : List α} (h : l.Nodup) : firsts l = l := by
  induction l with
  | nil => rfl
  | cons a l ih =>
    obtain ⟨ha, hl⟩ := List.nodup_cons.1 h
    rw [firsts, ih hl, List.filter_eq_self.2]
    intro x hx
    have : x ≠ a := fun hxa => ha (hxa ▸ hx)
    simpa using this

/-- A finite set in the order in which its elements were first seen. -/
structure OrderedSet (α : Type) where
  items : List α
  nodup : items.Nodup

namespace OrderedSet

def empty : OrderedSet α := ⟨[], List.nodup_nil⟩

def ofList (l : List α) : OrderedSet α := ⟨firsts l, nodup_firsts l⟩

def singleton (a : α) : OrderedSet α := ⟨[a], by simp⟩

def union (a b : OrderedSet α) : OrderedSet α :=
  ⟨a.items ++ b.items.filter (· ∉ a.items), by
    refine List.nodup_append.2 ⟨a.nodup, b.nodup.filter _, fun x hx y hy hxy => ?_⟩
    simp only [List.mem_filter, decide_eq_true_eq] at hy
    exact hy.2 (hxy ▸ hx)⟩

def intersection (a b : OrderedSet α) : OrderedSet α :=
  ⟨a.items.filter (· ∈ b.items), a.nodup.filter _⟩

def difference (a b : OrderedSet α) : OrderedSet α :=
  ⟨a.items.filter (· ∉ b.items), a.nodup.filter _⟩

theorem mem_ofList (x : α) (l : List α) : x ∈ (ofList l).items ↔ x ∈ l := mem_firsts x l

theorem mem_union (x : α) (a b : OrderedSet α) :
    x ∈ (a.union b).items ↔ x ∈ a.items ∨ x ∈ b.items := by
  by_cases h : x ∈ a.items <;> simp [union, h]

theorem mem_intersection (x : α) (a b : OrderedSet α) :
    x ∈ (a.intersection b).items ↔ x ∈ a.items ∧ x ∈ b.items := by
  simp [intersection]

theorem mem_difference (x : α) (a b : OrderedSet α) :
    x ∈ (a.difference b).items ↔ x ∈ a.items ∧ x ∉ b.items := by
  simp [difference]

def unionAll (sets : List (OrderedSet α)) : OrderedSet α := sets.foldl union empty

/-- The elements that all sets have, in the order of the first; none of no sets. -/
def intersectAll : List (OrderedSet α) → OrderedSet α
  | [] => empty
  | s :: sets => sets.foldl intersection s

/-- Whether two sets have the same elements, in whatever order. -/
def sameElements (a b : OrderedSet α) : Bool :=
  a.items.length = b.items.length && a.items.all (· ∈ b.items)

example : (ofList [1, 1, 2, 1] : OrderedSet Nat).items = [1, 2] := by decide
example : (intersectAll [ofList [1, 2, 3], ofList [3, 2], ofList [2, 5, 3]] :
    OrderedSet Nat).items = [2, 3] := by decide

end OrderedSet

end PromptChain
