import PromptChain.Entries

/-!
# Lists of entries as maps

The map of a list of entries holds nothing but those entries, and is the list itself when no key
repeats.
-/

set_option autoImplicit false

namespace PromptChain.Entries

variable {κ α : Type}

theorem keys_cons (e : κ × α) (es : List (κ × α)) : keys (e :: es) = e.1 :: keys es := rfl

theorem keys_append (es fs : List (κ × α)) : keys (es ++ fs) = keys es ++ keys fs := List.map_append

theorem keys_map {β : Type} (f : α → β) (es : List (κ × α)) :
    keys (es.map fun e => (e.1, f e.2)) = keys es := by
  simp [keys, Function.comp_def]

theorem distinct_map_iff {β : Type} (f : α → β) (es : List (κ × α)) :
    Distinct (es.map fun e => (e.1, f e.2)) ↔ Distinct es := by
  rw [Distinct, keys_map, Distinct]

variable [DecidableEq κ]

theorem get?_of_mem {es : List (κ × α)} (h : Distinct es) {e : κ × α} (he : e ∈ es) :
    get? es e.1 = some e.2 := by
  induction es with
  | nil => contradiction
  | cons e' es ih =>
    obtain ⟨hnew, hes⟩ := List.nodup_cons.1 h
    rw [get?_cons]
    rcases List.mem_cons.1 he with rfl | he
    · rw [if_pos rfl]
    · have hkey : e.1 ∈ keys es := List.mem_map_of_mem he
      have hne : e'.1 ≠ e.1 := by
        intro heq
        rw [← heq] at hkey
        exact hnew hkey
      rw [if_neg hne, ih hes he]

theorem get?_map {β : Type} (f : α → β) (es : List (κ × α)) (key : κ) :
    get? (es.map fun e => (e.1, f e.2)) key = (get? es key).map f := by
  induction es with
  | nil => rfl
  | cons e es ih =>
    rw [List.map_cons, get?_cons, get?_cons, ih]
    split <;> rfl

theorem put_of_not_mem {es : List (κ × α)} {key : κ} (h : key ∉ keys es) (value : α) :
    put es key value = es ++ [(key, value)] := by
  induction es with
  | nil => rfl
  | cons e es ih =>
    simp only [keys, List.map_cons, List.mem_cons, not_or] at h
    rw [put, if_neg (Ne.symm h.1), ih h.2, List.cons_append]

theorem keys_put_of_mem {es : List (κ × α)} {key : κ} (h : key ∈ keys es) (value : α) :
    keys (put es key value) = keys es := by
  induction es with
  | nil => contradiction
  | cons e es ih =>
    rw [put]
    split
    · rfl
    · next hne =>
      have hes : key ∈ keys es := (List.mem_cons.1 h).resolve_left (Ne.symm hne)
      exact congrArg (e.1 :: ·) (ih hes)

theorem mem_keys_of_get? {es : List (κ × α)} {key : κ} {value : α} (h : get? es key = some value) :
    key ∈ keys es := by
  induction es with
  | nil => contradiction
  | cons e es ih =>
    rw [get?_cons] at h
    split at h
    · next hkey => exact List.mem_cons.2 (.inl hkey.symm)
    · exact List.mem_cons_of_mem e.1 (ih h)

theorem mem_of_mem_put {es : List (κ × α)} {key : κ} {value : α} {e : κ × α}
    (h : e ∈ put es key value) : e ∈ es ∨ e = (key, value) := by
  induction es with
  | nil => exact .inr (List.mem_singleton.1 h)
  | cons e' es ih =>
    rw [put] at h
    split at h
    · next hkey =>
      rcases List.mem_cons.1 h with rfl | h
      · exact .inr (by rw [hkey])
      · exact .inl (List.mem_cons_of_mem _ h)
    · rcases List.mem_cons.1 h with rfl | h
      · exact .inl List.mem_cons_self
      · exact (ih h).imp (List.mem_cons_of_mem _) fun he => he

private theorem mem_of_mem_foldl_put {es m : List (κ × α)} {e : κ × α}
    (h : e ∈ es.foldl (fun m e => put m e.1 e.2) m) : e ∈ m ∨ e ∈ es := by
  induction es generalizing m with
  | nil => exact .inl h
  | cons e' es ih =>
    rcases ih h with hm | hes
    · rcases mem_of_mem_put hm with hm | rfl
      · exact .inl hm
      · exact .inr List.mem_cons_self
    · exact .inr (List.mem_cons_of_mem _ hes)

theorem mem_of_mem_ofList {es : List (κ × α)} {e : κ × α} (h : e ∈ ofList es) : e ∈ es :=
  (mem_of_mem_foldl_put h).resolve_left List.not_mem_nil

private theorem foldl_put_eq_append {es m : List (κ × α)} (h : Distinct (m ++ es)) :
    es.foldl (fun m e => put m e.1 e.2) m = m ++ es := by
  induction es generalizing m with
  | nil => simp
  | cons e es ih =>
    have hnew : e.1 ∉ keys m := by
      intro hmem
      have hdisj := (List.nodup_append.1 (by simpa [Distinct, keys] using h)).2.2
      exact hdisj e.1 (by simpa [keys] using hmem) e.1 (by simp) rfl
    rw [List.foldl_cons, put_of_not_mem hnew, ih (by simpa using h)]
    simp

theorem ofList_eq_self {es : List (κ × α)} (h : Distinct es) : ofList es = es := by
  simpa [ofList] using foldl_put_eq_append (m := []) h

end PromptChain.Entries
