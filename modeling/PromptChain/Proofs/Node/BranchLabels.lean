import PromptChain.Node.Edit
import Mathlib.Data.List.Range
import Mathlib.Data.List.Nodup

/-!
# Labels of new branches

The labels for a branch with an id are all different, so among one more of them than there are
branches one is free, and the search for a label comes to the first such.
-/

set_option autoImplicit false

namespace PromptChain

theorem Decimal.naturalText_injective : Function.Injective naturalText := fun a b h => by
  rw [← Nat.ofDigitChars_ten_toDigits (n := a), ← Nat.ofDigitChars_ten_toDigits (n := b)]
  exact congrArg (Nat.ofDigitChars 10 · 0) h

theorem Entries.has_eq_true_iff {κ α : Type} [DecidableEq κ] (es : List (κ × α)) (key : κ) :
    has es key = true ↔ key ∈ keys es := by
  simp [has, keys]

namespace Node

private theorem branchLabel_succ (id : NodeId) (n : Nat) :
    branchLabel id (n + 1) = branchLabel id 0 ++ " (" ++
      String.ofList (Decimal.naturalText (n + 2)) ++ ")" := rfl

theorem branchLabel_injective (id : NodeId) : Function.Injective (branchLabel id) := by
  -- Every label goes on from the first one, so only what follows it has to differ.
  intro n m h
  have hlists := congrArg String.toList h
  cases n with
  | zero =>
    cases m with
    | zero => rfl
    | succ m => simp [branchLabel_succ, String.toList_append] at hlists
  | succ n =>
    cases m with
    | zero => simp [branchLabel_succ, String.toList_append] at hlists
    | succ m =>
      simp only [branchLabel_succ, String.toList_append, List.append_assoc,
        List.append_cancel_left_eq, List.append_cancel_right_eq, String.toList_ofList] at hlists
      have hn := Decimal.naturalText_injective hlists
      omega

private theorem exists_free_label (branches : List (String × Node)) (id : NodeId) :
    ∃ k ≤ branches.length, branchLabel id k ∉ Entries.keys branches := by
  by_contra h
  push Not at h
  have hnodup : ((List.range (branches.length + 1)).map (branchLabel id)).Nodup :=
    List.nodup_range.map (branchLabel_injective id)
  have hsub : (List.range (branches.length + 1)).map (branchLabel id) ⊆ Entries.keys branches := by
    intro label hlabel
    obtain ⟨k, hk, rfl⟩ := List.mem_map.1 hlabel
    exact h k (Nat.lt_succ_iff.1 (List.mem_range.1 hk))
  have hlength := hnodup.length_le_of_subset hsub
  simp only [List.length_map, List.length_range, Entries.keys] at hlength
  omega

/-- The search comes to the first free label, if it is given enough tries to reach one. -/
private theorem freeLabelFrom_spec (branches : List (String × Node)) (id : NodeId) (tries n : Nat)
    (h : ∃ k, n ≤ k ∧ k ≤ n + tries ∧ branchLabel id k ∉ Entries.keys branches) :
    ∃ k, n ≤ k ∧ k ≤ n + tries ∧ freeLabelFrom branches id tries n = branchLabel id k ∧
      branchLabel id k ∉ Entries.keys branches ∧
      ∀ j, n ≤ j → j < k → branchLabel id j ∈ Entries.keys branches := by
  induction tries generalizing n with
  | zero =>
    obtain ⟨k, hlow, hhigh, hfree⟩ := h
    obtain rfl : n = k := by omega
    exact ⟨n, le_rfl, hhigh, rfl, hfree, by omega⟩
  | succ tries ih =>
    rw [freeLabelFrom]
    by_cases hn : branchLabel id n ∈ Entries.keys branches
    · rw [if_pos ((Entries.has_eq_true_iff branches _).2 hn)]
      have hnext : ∃ k, n + 1 ≤ k ∧ k ≤ n + 1 + tries ∧
          branchLabel id k ∉ Entries.keys branches := by
        obtain ⟨k, hlow, hhigh, hfree⟩ := h
        have hne : n ≠ k := fun heq => hfree (heq ▸ hn)
        exact ⟨k, by omega, by omega, hfree⟩
      obtain ⟨k, hlow, hhigh, hlabel, hfree, hfirst⟩ := ih (n + 1) hnext
      refine ⟨k, by omega, by omega, hlabel, hfree, fun j hj hjk => ?_⟩
      by_cases hjn : j = n
      · rwa [hjn]
      · exact hfirst j (by omega) hjk
    · rw [if_neg (mt (Entries.has_eq_true_iff branches _).1 hn)]
      exact ⟨n, le_rfl, by omega, rfl, hn, by omega⟩

theorem freeLabel_spec (branches : List (String × Node)) (id : NodeId) :
    ∃ k ≤ branches.length, freeLabel branches id = branchLabel id k ∧
      branchLabel id k ∉ Entries.keys branches ∧
      ∀ j < k, branchLabel id j ∈ Entries.keys branches := by
  obtain ⟨k, hk, hfree⟩ := exists_free_label branches id
  obtain ⟨k, -, hhigh, hlabel, hfree, hfirst⟩ := freeLabelFrom_spec branches id branches.length 0
    ⟨k, Nat.zero_le k, by omega, hfree⟩
  exact ⟨k, by omega, hlabel, hfree, fun j => hfirst j (Nat.zero_le j)⟩

theorem freeLabel_not_mem_keys (branches : List (String × Node)) (id : NodeId) :
    freeLabel branches id ∉ Entries.keys branches := by
  obtain ⟨k, -, hlabel, hfree, -⟩ := freeLabel_spec branches id
  rwa [hlabel]

private theorem freeLabelFrom_congr {branches branches' : List (String × Node)}
    (h : Entries.keys branches = Entries.keys branches') (id : NodeId) (tries n : Nat) :
    freeLabelFrom branches id tries n = freeLabelFrom branches' id tries n := by
  have hhas : ∀ key, Entries.has branches key = Entries.has branches' key := fun key => by
    rw [Bool.eq_iff_iff, Entries.has_eq_true_iff, Entries.has_eq_true_iff, h]
  induction tries generalizing n with
  | zero => rfl
  | succ tries ih => rw [freeLabelFrom, freeLabelFrom, hhas, ih]

theorem freeLabel_congr {branches branches' : List (String × Node)}
    (h : Entries.keys branches = Entries.keys branches') (id : NodeId) :
    freeLabel branches id = freeLabel branches' id := by
  have hlength : branches.length = branches'.length := by
    simpa [Entries.keys] using congrArg List.length h
  rw [freeLabel, freeLabel, hlength, freeLabelFrom_congr h]

end Node

end PromptChain
