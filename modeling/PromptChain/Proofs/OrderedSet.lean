import PromptChain.OrderedSet
import Mathlib.Data.List.Perm.Subperm

/-!
# Sets in the order in which their elements were seen

The elements of a union are the first occurrences in the lists of its parts, put together. Taking
first occurrences goes with filters and with taking them in a part already, so what a set drops in
the end it may as well drop early. So the laws that union, difference and intersection have as sets
they have with the order of the elements; of several sets that are intersected only the first one
says how the rest is ordered.
-/

set_option autoImplicit false

namespace PromptChain

section Firsts

variable {α : Type} [DecidableEq α]

theorem firsts_firsts (l : List α) : firsts (firsts l) = firsts l :=
  firsts_of_nodup (nodup_firsts l)

theorem firsts_filter (p : α → Bool) (l : List α) : firsts (l.filter p) = (firsts l).filter p := by
  induction l with
  | nil => rfl
  | cons a l ih =>
    by_cases ha : p a
    · rw [List.filter_cons_of_pos ha, firsts, firsts, List.filter_cons_of_pos ha, ih,
        List.filter_comm]
    · -- What is not equal to `a` is kept on both sides; `a` itself is dropped by the filter.
      have hkeep : ∀ x ∈ firsts l, p x = (p x && decide (x ≠ a)) := by
        intro x _
        by_cases hx : p x
        · have hne : x ≠ a := fun hxa => ha (hxa ▸ hx)
          simp [hne]
        · simp [hx]
      rw [List.filter_cons_of_neg ha, firsts, List.filter_cons_of_neg ha, ih, List.filter_filter]
      exact List.filter_congr hkeep

theorem firsts_append (l m : List α) : firsts (l ++ m) = firsts l ++ (firsts m).filter (· ∉ l) := by
  induction l with
  | nil => simp [firsts]
  | cons a l ih =>
    have hsplit : ∀ x ∈ firsts m, (decide (x ≠ a) && decide (x ∉ l)) = decide (x ∉ a :: l) := by
      intro x _
      simp [List.mem_cons, not_or]
    rw [List.cons_append, firsts, firsts, ih, List.filter_append, List.filter_filter,
      List.cons_append, List.filter_congr hsplit]

theorem firsts_around (l m r : List α) : firsts (l ++ firsts m ++ r) = firsts (l ++ m ++ r) := by
  have hmem : ∀ x, x ∈ l ++ firsts m ↔ x ∈ l ++ m := by
    intro x
    rw [List.mem_append, List.mem_append, mem_firsts]
  rw [firsts_append, firsts_append (l ++ m), firsts_append l, firsts_append l, firsts_firsts]
  simp only [hmem]

end Firsts

namespace OrderedSet

variable {α : Type}

@[ext] theorem ext {a b : OrderedSet α} (h : a.items = b.items) : a = b := by
  cases a
  cases b
  cases h
  rfl

private theorem filter_in_turn (p q : α → Prop) [DecidablePred p] [DecidablePred q] (l : List α) :
    (l.filter (p ·)).filter (q ·) = l.filter fun x => p x ∧ q x := by
  rw [List.filter_filter]
  apply List.filter_congr
  intro x _
  rw [Bool.and_comm, Bool.decide_and]

variable [DecidableEq α]

theorem items_difference (a b : OrderedSet α) :
    (a.difference b).items = a.items.filter (· ∉ b.items) := rfl

theorem items_intersection (a b : OrderedSet α) :
    (a.intersection b).items = a.items.filter (· ∈ b.items) := rfl

theorem items_union (a b : OrderedSet α) : (a.union b).items = firsts (a.items ++ b.items) := by
  rw [firsts_append, firsts_of_nodup a.nodup, firsts_of_nodup b.nodup]
  rfl

private theorem items_foldl_union (sets : List (OrderedSet α)) (acc : OrderedSet α) :
    (sets.foldl union acc).items = firsts (acc.items ++ sets.flatMap items) := by
  induction sets generalizing acc with
  | nil => simp [firsts_of_nodup acc.nodup]
  | cons s sets ih =>
    rw [List.foldl_cons, ih, items_union, List.flatMap_cons, ← List.append_assoc]
    exact firsts_around [] _ _

theorem items_unionAll (sets : List (OrderedSet α)) :
    (unionAll sets).items = firsts (sets.flatMap items) := items_foldl_union sets empty

theorem mem_unionAll (x : α) (sets : List (OrderedSet α)) :
    x ∈ (unionAll sets).items ↔ ∃ s ∈ sets, x ∈ s.items := by
  rw [items_unionAll, mem_firsts, List.mem_flatMap]

private theorem items_foldl_intersection (sets : List (OrderedSet α)) (acc : OrderedSet α) :
    (sets.foldl intersection acc).items = acc.items.filter fun x => ∀ t ∈ sets, x ∈ t.items := by
  induction sets generalizing acc with
  | nil => simp
  | cons s sets ih =>
    rw [List.foldl_cons, ih, items_intersection, filter_in_turn]
    simp only [List.forall_mem_cons]

theorem items_intersectAll_cons (s : OrderedSet α) (sets : List (OrderedSet α)) :
    (intersectAll (s :: sets)).items = s.items.filter fun x => ∀ t ∈ sets, x ∈ t.items :=
  items_foldl_intersection sets s

theorem mem_intersectAll (x : α) (sets : List (OrderedSet α)) :
    x ∈ (intersectAll sets).items ↔ sets ≠ [] ∧ ∀ s ∈ sets, x ∈ s.items := by
  cases sets with
  | nil => simp [intersectAll, empty]
  | cons s sets => simp [items_intersectAll_cons]

theorem sameElements_iff (a b : OrderedSet α) :
    a.sameElements b = true ↔ ∀ x, x ∈ a.items ↔ x ∈ b.items := by
  simp only [sameElements, Bool.and_eq_true, decide_eq_true_eq, List.all_eq_true]
  constructor
  · rintro ⟨hlength, hsubset⟩ x
    have hperm : a.items.Perm b.items :=
      (a.nodup.subperm hsubset).perm_of_length_le (Nat.le_of_eq hlength.symm)
    exact hperm.mem_iff
  · intro h
    have hperm : a.items.Perm b.items := (List.perm_ext_iff_of_nodup a.nodup b.nodup).2 h
    exact ⟨hperm.length_eq, fun x hx => (h x).1 hx⟩

theorem items_union_union (a b c : OrderedSet α) :
    ((a.union b).union c).items = firsts (a.items ++ b.items ++ c.items) := by
  rw [items_union, items_union]
  exact firsts_around [] _ _

theorem union_assoc (a b c : OrderedSet α) : (a.union b).union c = a.union (b.union c) := by
  apply OrderedSet.ext
  have hright : firsts (a.items ++ firsts (b.items ++ c.items)) =
      firsts (a.items ++ (b.items ++ c.items)) := by
    simpa using firsts_around a.items (b.items ++ c.items) []
  rw [items_union_union, items_union, items_union, hright, List.append_assoc]

theorem items_difference_union (a b c : OrderedSet α) :
    ((a.union b).difference c).items = firsts ((a.items ++ b.items).filter (· ∉ c.items)) := by
  rw [items_difference, items_union, firsts_filter]

theorem difference_union (a b c : OrderedSet α) :
    (a.union b).difference c = (a.difference c).union (b.difference c) := by
  apply OrderedSet.ext
  rw [items_difference_union, List.filter_append, items_union, items_difference, items_difference]

theorem items_difference_difference (a b c : OrderedSet α) :
    ((a.difference b).difference c).items = a.items.filter fun x => x ∉ b.items ∧ x ∉ c.items := by
  rw [items_difference, items_difference, filter_in_turn]

theorem difference_difference (a b c : OrderedSet α) :
    (a.difference b).difference c = a.difference (b.union c) := by
  apply OrderedSet.ext
  rw [items_difference_difference, items_difference]
  simp only [mem_union, not_or]

theorem items_intersection_intersection (a b c : OrderedSet α) :
    ((a.intersection b).intersection c).items =
      a.items.filter fun x => x ∈ b.items ∧ x ∈ c.items := by
  rw [items_intersection, items_intersection, filter_in_turn]

theorem intersection_assoc (a b c : OrderedSet α) :
    (a.intersection b).intersection c = a.intersection (b.intersection c) := by
  apply OrderedSet.ext
  rw [items_intersection_intersection, items_intersection]
  simp only [mem_intersection]

theorem intersectAll_cons_congr {sets sets' : List (OrderedSet α)} (h : sets.Perm sets')
    (s : OrderedSet α) : intersectAll (s :: sets) = intersectAll (s :: sets') := by
  apply OrderedSet.ext
  rw [items_intersectAll_cons, items_intersectAll_cons]
  simp only [h.mem_iff]

theorem sameElements_intersectAll {sets sets' : List (OrderedSet α)} (h : sets.Perm sets') :
    (intersectAll sets).sameElements (intersectAll sets') = true := by
  rw [sameElements_iff]
  intro x
  have hnil : sets ≠ [] ↔ sets' ≠ [] := by
    rw [← List.length_pos_iff, ← List.length_pos_iff, h.length_eq]
  rw [mem_intersectAll, mem_intersectAll, hnil]
  simp only [h.mem_iff]

/-- The laws of union, difference and intersection hold with the order of the elements. What sets
have in common stands in the order of the first of them, however the others are ordered, and in any
order of all of them it is the same. -/
theorem laws_keep_order (a b c s : OrderedSet α) (sets : List (OrderedSet α)) :
    ((a.union b).union c = a.union (b.union c) ∧
      ((a.union b).union c).items = firsts (a.items ++ b.items ++ c.items)) ∧
    ((a.union b).difference c = (a.difference c).union (b.difference c) ∧
      ((a.union b).difference c).items = firsts ((a.items ++ b.items).filter (· ∉ c.items))) ∧
    ((a.difference b).difference c = a.difference (b.union c) ∧
      ((a.difference b).difference c).items = a.items.filter fun x => x ∉ b.items ∧ x ∉ c.items) ∧
    ((a.intersection b).intersection c = a.intersection (b.intersection c) ∧
      ((a.intersection b).intersection c).items =
        a.items.filter fun x => x ∈ b.items ∧ x ∈ c.items) ∧
    (∀ x, x ∈ (intersectAll (s :: sets)).items ↔ ∀ t ∈ s :: sets, x ∈ t.items) ∧
    (intersectAll (s :: sets)).items.Sublist s.items ∧
    (∀ sets', sets'.Perm sets → intersectAll (s :: sets') = intersectAll (s :: sets)) ∧
    ∀ sets', sets'.Perm (s :: sets) →
      (intersectAll sets').sameElements (intersectAll (s :: sets)) = true := by
  refine ⟨⟨union_assoc a b c, items_union_union a b c⟩,
    ⟨difference_union a b c, items_difference_union a b c⟩,
    ⟨difference_difference a b c, items_difference_difference a b c⟩,
    ⟨intersection_assoc a b c, items_intersection_intersection a b c⟩, ?_, ?_, ?_, ?_⟩
  · intro x
    rw [mem_intersectAll, and_iff_right (List.cons_ne_nil s sets)]
  · rw [items_intersectAll_cons]
    exact List.filter_sublist
  · intro sets' h
    exact intersectAll_cons_congr h s
  · intro sets' h
    exact sameElements_intersectAll h

section Draft

private def asked : OrderedSet String := .ofList ["text", "tone", "topic"]
private def drafted : OrderedSet String := .ofList ["topic", "tone"]
private def revised : OrderedSet String := .ofList ["tone", "mood", "topic"]

theorem laws_keep_order_draft :
    [revised, drafted].Perm [drafted, revised] ∧
    intersectAll [asked, revised, drafted] = intersectAll [asked, drafted, revised] ∧
    [revised, drafted, asked].Perm [asked, drafted, revised] ∧
    (intersectAll [revised, drafted, asked]).sameElements
      (intersectAll [asked, drafted, revised]) = true ∧
    (intersectAll [asked, drafted, revised]).items = ["tone", "topic"] ∧
    (intersectAll [drafted, revised, asked]).items = ["topic", "tone"] := by
  have hrest : [revised, drafted].Perm [drafted, revised] := .swap drafted revised []
  have hall : [revised, drafted, asked].Perm [asked, drafted, revised] :=
    List.reverse_perm [asked, drafted, revised]
  obtain ⟨-, -, -, -, -, -, hothers, hsame⟩ :=
    laws_keep_order asked drafted revised asked [drafted, revised]
  exact ⟨hrest, hothers _ hrest, hall, hsame _ hall, by decide, by decide⟩

end Draft

end OrderedSet

end PromptChain
