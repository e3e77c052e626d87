import PromptChain.Json.Encode
import PromptChain.Json.Same
import PromptChain.Proofs.Entries
import PromptChain.Proofs.Json.Numeral
import Mathlib.Data.List.Basic

/-!
# Induction on values

A property holds of every JSON value if it holds of a list or an object whenever it holds of what is
right inside. Depths, numbers and tidied values are computed from those of the parts.
-/

set_option autoImplicit false

namespace PromptChain.Json

/-- Induction on a value: from what is right inside a list or an object to the list or the
object. -/
@[elab_as_elim, induction_eliminator]
theorem induction {motive : Json → Prop} (null : motive null) (bool : ∀ b, motive (bool b))
    (number : ∀ n, motive (number n)) (text : ∀ s, motive (text s))
    (array : ∀ vs, (∀ v ∈ vs, motive v) → motive (array vs))
    (object : ∀ es, (∀ e ∈ es, motive e.2) → motive (object es)) (v : Json) : motive v :=
  @Json.rec motive (fun vs => ∀ v ∈ vs, motive v) (fun es => ∀ e ∈ es, motive e.2)
    (fun e => motive e.2) null bool number text array object
    (by simp) (fun _ _ hv hvs => List.forall_mem_cons.2 ⟨hv, hvs⟩)
    (by simp) (fun _ _ he hes => List.forall_mem_cons.2 ⟨he, hes⟩) (fun _ _ hv => hv) v

theorem depthItems_le_iff (vs : List Json) (d : Nat) :
    depthItems vs ≤ d ↔ ∀ v ∈ vs, v.depth ≤ d := by
  induction vs with
  | nil => simp [depthItems]
  | cons v vs ih => rw [depthItems, Nat.max_le, ih, List.forall_mem_cons]

theorem depthEntries_le_iff (es : List (String × Json)) (d : Nat) :
    depthEntries es ≤ d ↔ ∀ e ∈ es, e.2.depth ≤ d := by
  induction es with
  | nil => simp [depthEntries]
  | cons e es ih => rw [depthEntries, Nat.max_le, ih, List.forall_mem_cons]

theorem depth_array_le_iff (vs : List Json) (d : Nat) :
    (array vs).depth ≤ d + 1 ↔ ∀ v ∈ vs, v.depth ≤ d := by
  rw [depth, Nat.succ_le_succ_iff, depthItems_le_iff]

theorem depth_object_le_iff (es : List (String × Json)) (d : Nat) :
    (object es).depth ≤ d + 1 ↔ ∀ e ∈ es, e.2.depth ≤ d := by
  rw [depth, Nat.succ_le_succ_iff, depthEntries_le_iff]

theorem depthItems_eq (vs : List Json) : depthItems vs = (vs.map depth).foldr max 0 := by
  induction vs with
  | nil => rfl
  | cons v vs ih => rw [depthItems, ih, List.map_cons, List.foldr_cons]

theorem depthEntries_eq (es : List (String × Json)) :
    depthEntries es = (es.map fun e => e.2.depth).foldr max 0 := by
  induction es with
  | nil => rfl
  | cons e es ih => rw [depthEntries, ih, List.map_cons, List.foldr_cons]

@[simp] theorem depth_ofTexts (texts : List String) : (ofTexts texts).depth = 1 := by
  have hitems : depthItems (texts.map .text) ≤ 0 :=
    (depthItems_le_iff _ 0).2 fun v hv => by
      obtain ⟨s, -, rfl⟩ := List.mem_map.1 hv
      exact le_rfl
  rw [ofTexts, depth, Nat.le_zero.1 hitems]

mutual

def numbers : Json → List Number
  | .number n => [n]
  | .array vs => numbersOfItems vs
  | .object es => numbersOfEntries es
  | _ => []

def numbersOfItems : List Json → List Number
  | [] => []
  | v :: vs => numbers v ++ numbersOfItems vs

def numbersOfEntries : List (String × Json) → List Number
  | [] => []
  | (_, v) :: es => numbers v ++ numbersOfEntries es

end

theorem mem_numbers_array {vs : List Json} {n : Number} :
    n ∈ (array vs).numbers ↔ ∃ v ∈ vs, n ∈ v.numbers := by
  rw [numbers]
  induction vs with
  | nil => simp [numbersOfItems]
  | cons v vs ih => rw [numbersOfItems, List.mem_append, ih, List.exists_mem_cons_iff]

theorem mem_numbers_object {es : List (String × Json)} {n : Number} :
    n ∈ (object es).numbers ↔ ∃ e ∈ es, n ∈ e.2.numbers := by
  rw [numbers]
  induction es with
  | nil => simp [numbersOfEntries]
  | cons e es ih => rw [numbersOfEntries, List.mem_append, ih, List.exists_mem_cons_iff]

theorem numbersOfItems_eq (vs : List Json) : numbersOfItems vs = vs.flatMap numbers := by
  induction vs with
  | nil => rfl
  | cons v vs ih => rw [numbersOfItems, ih, List.flatMap_cons]

theorem numbersOfEntries_eq (es : List (String × Json)) :
    numbersOfEntries es = es.flatMap fun e => e.2.numbers := by
  induction es with
  | nil => rfl
  | cons e es ih => rw [numbersOfEntries, ih, List.flatMap_cons]

@[simp] theorem numbers_ofTexts (texts : List String) : (ofTexts texts).numbers = [] := by
  simp [ofTexts, numbers, numbersOfItems_eq]

def EachNumber (P : Number → Prop) (v : Json) : Prop := ∀ n ∈ v.numbers, P n

theorem eachNumber_array_iff {P : Number → Prop} {vs : List Json} :
    (array vs).EachNumber P ↔ ∀ v ∈ vs, v.EachNumber P := by
  simp only [EachNumber, mem_numbers_array]
  constructor
  · exact fun h v hv n hn => h n ⟨v, hv, hn⟩
  · rintro h n ⟨v, hv, hn⟩
    exact h v hv n hn

theorem eachNumber_object_iff {P : Number → Prop} {es : List (String × Json)} :
    (object es).EachNumber P ↔ ∀ e ∈ es, e.2.EachNumber P := by
  simp only [EachNumber, mem_numbers_object]
  constructor
  · exact fun h e he n hn => h n ⟨e, he, hn⟩
  · rintro h n ⟨e, he, hn⟩
    exact h e he n hn

abbrev InRange (v : Json) : Prop := v.EachNumber Number.InRange

/-- Every number reads back from the way it is written. -/
abbrev Legible (v : Json) : Prop := v.EachNumber ReadsBack

theorem legible_of_inRange {v : Json} (hrange : v.InRange)
    (hdoubles : ∀ x, .double x ∈ v.numbers → ReadsBack (.double x)) : v.Legible := by
  intro n hn
  cases n with
  | integer i => exact readsBack_integer (hrange _ hn)
  | double x => exact hdoubles x hn

theorem legible_of_all {v : Json} (h : v.numbers.all (ReadsBack ·)) : v.Legible := fun n hn =>
  of_decide_eq_true (List.all_eq_true.1 h n hn)

theorem readsBack_of_all {v : Json} (h : v.numbers.all (ReadsBack ·)) :
    ∀ x, .double x ∈ v.numbers → ReadsBack (.double x) := fun x => legible_of_all h (.double x)

/-- A value that names every key of its objects once. -/
def Tidy (v : Json) : Prop := v.tidied = v

theorem tidiedItems_eq (vs : List Json) : tidiedItems vs = vs.map tidied := by
  induction vs with
  | nil => rfl
  | cons v vs ih => rw [tidiedItems, ih, List.map_cons]

theorem tidiedEntries_eq (es : List (String × Json)) :
    tidiedEntries es = es.map fun e => (e.1, e.2.tidied) := by
  induction es with
  | nil => rfl
  | cons e es ih => rw [tidiedEntries, ih, List.map_cons]

private theorem mem_tidied_object {es : List (String × Json)} {e : String × Json}
    (h : e ∈ Entries.ofList (tidiedEntries es)) : ∃ e' ∈ es, e.2 = e'.2.tidied := by
  rw [tidiedEntries_eq] at h
  obtain ⟨e', he', rfl⟩ := List.mem_map.1 (Entries.mem_of_mem_ofList h)
  exact ⟨e', he', rfl⟩

theorem tidy_tidied (v : Json) : Tidy v.tidied := by
  induction v with
  | array vs ih =>
    simp only [Tidy, tidied, tidiedItems_eq, List.map_map, array.injEq]
    exact List.map_congr_left ih
  | object es ih =>
    have hsame : (Entries.ofList (tidiedEntries es)).map (fun e => (e.1, e.2.tidied)) =
        Entries.ofList (tidiedEntries es) := by
      refine (List.map_congr_left fun e he => ?_).trans (List.map_id _)
      obtain ⟨e', he', heq⟩ := mem_tidied_object he
      have htidy : e'.2.tidied.tidied = e'.2.tidied := ih e' he'
      rw [heq, htidy, ← heq, id]
    rw [Tidy, tidied, tidied, tidiedEntries_eq (Entries.ofList _), hsame,
      Entries.ofList_eq_self (Entries.distinct_ofList _)]
  | null | bool | number | text => rfl

theorem depth_tidied_le (v : Json) : v.tidied.depth ≤ v.depth := by
  induction v with
  | array vs ih =>
    rw [tidied, depth, depth, Nat.succ_le_succ_iff, depthItems_le_iff, tidiedItems_eq]
    intro w hw
    obtain ⟨v, hv, rfl⟩ := List.mem_map.1 hw
    exact (ih v hv).trans ((depthItems_le_iff vs _).1 le_rfl v hv)
  | object es ih =>
    rw [tidied, depth, depth, Nat.succ_le_succ_iff, depthEntries_le_iff]
    intro e he
    obtain ⟨e', he', heq⟩ := mem_tidied_object he
    rw [heq]
    exact (ih e' he').trans ((depthEntries_le_iff es _).1 le_rfl e' he')
  | null | bool | number | text => rfl

theorem eachNumber_tidied {P : Number → Prop} {v : Json} (h : v.EachNumber P) :
    v.tidied.EachNumber P := by
  induction v with
  | array vs ih =>
    rw [eachNumber_array_iff] at h
    rw [tidied, eachNumber_array_iff, tidiedItems_eq]
    intro w hw
    obtain ⟨v, hv, rfl⟩ := List.mem_map.1 hw
    exact ih v hv (h v hv)
  | object es ih =>
    rw [eachNumber_object_iff] at h
    rw [tidied, eachNumber_object_iff]
    intro e he
    obtain ⟨e', he', heq⟩ := mem_tidied_object he
    rw [heq]
    exact ih e' he' (h e' he')
  | null | bool | number | text => exact h

end PromptChain.Json
