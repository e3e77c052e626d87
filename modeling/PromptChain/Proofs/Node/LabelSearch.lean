import PromptChain.Node.LabelSearch
import PromptChain.Proofs.Node.BranchLabels
import Mathlib.Algebra.Group.Int.Defs
import Mathlib.Algebra.Group.Nat.Defs

/-!
# Where the search for a label ends

A search that goes on has found every label so far taken, and its number is two above the number of
its turns. The labels are all different, so there are no more turns than branches, and the search
ends at the label that a new branch is given. The number stays so low that a word of 32 bits holds
it, unless there are billions of branches.
-/

set_option autoImplicit false

namespace PromptChain.Node.LabelSearch

variable {ν : Type} {c : Counter ν} {limit : Int} {branches : List (String × Node)} {id : NodeId}
  {turns : Nat} {s t : LabelSearch ν}

/-- A counter that begins at two and goes up one by one, to a limit at least. -/
structure Counter.CountsTo (c : Counter ν) (limit : Int) : Prop where
  value_first : c.value c.first = 2
  value_next : ∀ x y, c.next? x = some y → c.value y = c.value x + 1
  limit_le : ∀ x, c.next? x = none → limit ≤ c.value x

theorem Counter.countsTo_natural (limit : Int) : natural.CountsTo limit where
  value_first := rfl
  value_next := by
    intro x y h
    cases h
    rfl
  limit_le := nofun

theorem Counter.countsTo_word32 : word32.CountsTo (2 ^ 31 - 1) where
  value_first := by decide
  value_next := by
    intro x y h
    obtain ⟨hx, rfl⟩ : x ≠ Int32.maxValue ∧ x + 1 = y := by simpa [word32] using h
    have hlast : x.toInt ≠ 2 ^ 31 - 1 := fun heq => hx (Int32.toInt_inj.1 heq)
    have hlow := x.le_toInt
    have hhigh := x.toInt_lt
    show (x + 1).toInt = x.toInt + 1
    rw [Int32.toInt_add, Int32.toInt_one]
    apply Int.bmod_eq_of_le
    · omega
    · omega
  limit_le := by
    intro x h
    obtain rfl : x = Int32.maxValue := by simpa [word32] using h
    exact Int.le_of_eq Int32.toInt_maxValue.symm

theorem turn_eq_iff {outcome : Outcome ν} : s.turn c branches id = outcome ↔
    match outcome with
    | .found label => s.label ∉ Entries.keys branches ∧ s.label = label
    | .goesOn t => s.label ∈ Entries.keys branches ∧ c.next? s.number = some t.number ∧
        t.label = numberedLabel id (c.value s.number)
    | .overflow => s.label ∈ Entries.keys branches ∧ c.next? s.number = none := by
  rw [← Entries.has_eq_true_iff, turn]
  cases hlabel : Entries.has branches s.label with
  | false => cases outcome <;> simp
  | true =>
    cases hnext : c.next? s.number with
    | none => cases outcome <;> simp
    | some number =>
      cases outcome with
      | goesOn t =>
        obtain ⟨label, number'⟩ := t
        simp [and_comm, eq_comm]
      | _ => simp

/-- Where a search stands: at the label of its turn, with every label before it taken and its number
at two more than the turns. -/
structure Stands (c : Counter ν) (branches : List (String × Node)) (id : NodeId) (turns : Nat)
    (s : LabelSearch ν) : Prop where
  label_eq : s.label = branchLabel id turns
  value_eq : c.value s.number = turns + 2
  taken : ∀ n < turns, branchLabel id n ∈ Entries.keys branches

theorem stands_start (hc : c.CountsTo limit) : Stands c branches id 0 (start c id) where
  label_eq := rfl
  value_eq := hc.value_first
  taken := by omega

theorem Stands.onward (hc : c.CountsTo limit) (h : Stands c branches id turns s)
    (hturn : s.turn c branches id = .goesOn t) : Stands c branches id (turns + 1) t := by
  obtain ⟨htaken, hnext, hlabel⟩ := turn_eq_iff.1 hturn
  constructor
  · -- The label after this turn is written with the number at hand, two above the turns before it.
    rw [hlabel, h.value_eq]
    rfl
  · rw [hc.value_next _ _ hnext, h.value_eq]
    omega
  · intro n hn
    rcases Nat.lt_succ_iff_lt_or_eq.1 hn with hbefore | rfl
    · exact h.taken n hbefore
    · rwa [← h.label_eq]

theorem Reaches.stands (hc : c.CountsTo limit) (h : Reaches c branches id turns s) :
    Stands c branches id turns s := by
  induction h with
  | start => exact stands_start hc
  | onward _ hturn ih => exact ih.onward hc hturn

section Free

variable {k : Nat}

theorem Stands.turns_le (h : Stands c branches id turns s)
    (hfree : branchLabel id k ∉ Entries.keys branches) : turns ≤ k := by
  by_contra hpast
  exact hfree (h.taken k (by omega))

theorem Stands.turns_lt (h : Stands c branches id turns s)
    (hfree : branchLabel id k ∉ Entries.keys branches) (hs : s.label ∈ Entries.keys branches) :
    turns < k := by
  have hne : turns ≠ k := by
    rintro rfl
    exact hfree (h.label_eq ▸ hs)
  have hle := h.turns_le hfree
  omega

theorem Stands.turns_eq (h : Stands c branches id turns s)
    (hfree : branchLabel id k ∉ Entries.keys branches)
    (hfirst : ∀ j < k, branchLabel id j ∈ Entries.keys branches)
    (hs : s.label ∉ Entries.keys branches) : turns = k := by
  have hge : k ≤ turns := by
    by_contra hbefore
    exact hs (h.label_eq ▸ hfirst turns (by omega))
  exact Nat.le_antisymm (h.turns_le hfree) hge

end Free

/-- The counter is asked for one more only while a free label is still ahead, so it never passes two
above the number of branches. -/
theorem not_overflows (hc : c.CountsTo limit) (hlimit : branches.length + 2 ≤ limit) :
    ¬ Overflows c branches id := by
  rintro ⟨turns, s, hreaches, hturn⟩
  obtain ⟨htaken, hnext⟩ := turn_eq_iff.1 hturn
  obtain ⟨k, hk, -, hfree, -⟩ := freeLabel_spec branches id
  have hstands := hreaches.stands hc
  have hbefore := hstands.turns_lt hfree htaken
  have hlast := hc.limit_le _ hnext
  rw [hstands.value_eq] at hlast
  omega

theorem exists_reaches (hover : ¬ Overflows c branches id) (hc : c.CountsTo limit) {k : Nat}
    (hfirst : ∀ j < k, branchLabel id j ∈ Entries.keys branches) :
    ∃ s, Reaches c branches id k s := by
  induction k with
  | zero => exact ⟨start c id, .start⟩
  | succ k ih =>
    obtain ⟨s, hreaches⟩ := ih fun j hj => hfirst j (by omega)
    have htaken : s.label ∈ Entries.keys branches := by
      rw [(hreaches.stands hc).label_eq]
      exact hfirst k (by omega)
    cases hnext : c.next? s.number with
    | none => exact absurd ⟨k, s, hreaches, turn_eq_iff.2 ⟨htaken, hnext⟩⟩ hover
    | some number =>
      let t : LabelSearch ν := ⟨numberedLabel id (c.value s.number), number⟩
      have hturn : s.turn c branches id = .goesOn t := turn_eq_iff.2 ⟨htaken, hnext, rfl⟩
      exact ⟨t, .onward hreaches hturn⟩

theorem settles_of_countsTo (hc : c.CountsTo limit) (hlimit : branches.length + 2 ≤ limit) :
    Settles c branches id (freeLabel branches id) := by
  obtain ⟨k, hk, hlabel, hfree, hfirst⟩ := freeLabel_spec branches id
  have hover : ¬ Overflows c branches id := not_overflows hc hlimit
  have hle : ∀ turns s, Reaches c branches id turns s → turns ≤ branches.length := by
    intro turns s hreaches
    exact ((hreaches.stands hc).turns_le hfree).trans hk
  constructor
  · obtain ⟨s, hreaches⟩ := exists_reaches hover hc hfirst
    have hs : s.label = branchLabel id k := (hreaches.stands hc).label_eq
    have hfound : s.turn c branches id = .found (branchLabel id k) := turn_eq_iff.2 ⟨hs ▸ hfree, hs⟩
    rw [hlabel]
    exact ⟨k + 1, by omega, k, s, hreaches, hfound, rfl⟩
  · rintro tests found ⟨turns, s, hreaches, hturn, -⟩
    obtain ⟨hs, rfl⟩ := turn_eq_iff.1 hturn
    have hstands := hreaches.stands hc
    rw [hlabel, hstands.label_eq, hstands.turns_eq hfree hfirst hs]
  · exact hle
  · intro turns s hreaches
    have hturns := hle turns s hreaches
    rw [(hreaches.stands hc).value_eq]
    omega
  · exact hover

/-- Whatever labels the branches bear, the search ends, within one test more than there are
branches, at the first label that none of them bears, which is the label of a new branch. Its number
stays within two above the number of branches, so with words of 32 bits it does the same as long as
there are no more than `2 ^ 31 - 3` branches. -/
theorem settles_at_freeLabel (branches : List (String × Node)) (id : NodeId) :
    (∃ k, freeLabel branches id = branchLabel id k ∧ branchLabel id k ∉ Entries.keys branches ∧
      ∀ j < k, branchLabel id j ∈ Entries.keys branches) ∧
    Settles .natural branches id (freeLabel branches id) ∧
    (branches.length ≤ 2 ^ 31 - 3 → Settles .word32 branches id (freeLabel branches id)) := by
  refine ⟨?_, ?_, fun hlength => ?_⟩
  · obtain ⟨k, -, hlabel, hfree, hfirst⟩ := freeLabel_spec branches id
    exact ⟨k, hlabel, hfree, hfirst⟩
  · exact settles_of_countsTo (Counter.countsTo_natural _) (Int.le_refl _)
  · exact settles_of_countsTo Counter.countsTo_word32 (by omega)

/-- Two of the first three labels are taken, one of them behind the other. -/
private def crowdedBranches : List (String × Node) :=
  [("case text 4 (2)", .blank .prompt 2), ("case text 4", .blank .prompt 1),
    ("case text 4 (4)", .blank .prompt 3)]

theorem settles_at_freeLabel_crowdedBranches : crowdedBranches.length ≤ 2 ^ 31 - 3 ∧
    freeLabel crowdedBranches 4 = "case text 4 (3)" ∧
    Settles .word32 crowdedBranches 4 "case text 4 (3)" := by
  have hlength : crowdedBranches.length ≤ 2 ^ 31 - 3 := by decide
  have hlabel : freeLabel crowdedBranches 4 = "case text 4 (3)" := by decide +kernel
  obtain ⟨-, -, hword⟩ := settles_at_freeLabel crowdedBranches 4
  rw [hlabel] at hword
  exact ⟨hlength, hlabel, hword hlength⟩

end PromptChain.Node.LabelSearch
