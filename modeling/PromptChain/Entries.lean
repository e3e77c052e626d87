/-!
# Ordered maps as entry lists

A map that remembers its order is the list of its entries, each key at most once (`Distinct`).
Putting a value under a known key keeps the key's place; a new key goes last.
-/

set_option autoImplicit false

namespace PromptChain.Entries

variable {κ α : Type} [DecidableEq κ]

def keys (es : List (κ × α)) : List κ := es.map (·.1)

/-- No key occurs twice. -/
def Distinct (es : List (κ × α)) : Prop := (keys es).Nodup

def get? (es : List (κ × α)) (key : κ) : Option α := es.lookup key

def has (es : List (κ × α)) (key : κ) : Bool := es.any (·.1 == key)

/-- Put a value under a key: in the key's own place, or last for a new key. -/
def put : List (κ × α) → κ → α → List (κ × α)
  | [], key, value => [(key, value)]
  | (k, v) :: es, key, value => if k = key then (k, value) :: es else (k, v) :: put es key value

/-- The map of a list of entries: a repeated key keeps its first place and its last value. -/
def ofList (es : List (κ × α)) : List (κ × α) :=
  es.foldl (fun m e => put m e.1 e.2) []

/-- Equality of two maps whatever their order, the values compared by `same`. -/
def sameBy (same : α → α → Bool) (a b : List (κ × α)) : Bool :=
  a.length = b.length && a.all fun e => match get? b e.1 with
    | some v => same e.2 v
    | none => false

theorem mem_keys_put (es : List (κ × α)) (key k : κ) (value : α) :
    k ∈ keys (put es key value) ↔ k ∈ keys es ∨ k = key := by
  induction es with
  | nil => simp [put, keys]
  | cons e es ih =>
    simp only [keys, put] at ih ⊢
    split <;> grind

theorem distinct_put {es : List (κ × α)} (h : Distinct es) (key : κ) (value : α) :
    Distinct (put es key value) := by
  induction es with
  | nil => simp [put, Distinct, keys]
  | cons e es ih =>
    have hk : e.1 ∉ keys es := (List.nodup_cons.1 h).1
    have hes : Distinct es := (List.nodup_cons.1 h).2
    rw [put]
    split
    · exact h
    · next hne =>
      refine List.nodup_cons.2 ⟨fun hin => ?_, ih hes⟩
      exact ((mem_keys_put es key e.1 value).1 hin).elim hk hne

theorem get?_cons (e : κ × α) (es : List (κ × α)) (key : κ) :
    get? (e :: es) key = if e.1 = key then some e.2 else get? es key := by
  obtain ⟨k, v⟩ := e
  by_cases h : k = key
  · simp [get?, h]
  · simp [get?, List.lookup_cons, h, beq_eq_false_iff_ne.2 (Ne.symm h)]

theorem get?_put_self (es : List (κ × α)) (key : κ) (value : α) :
    get? (put es key value) key = some value := by
  induction es with
  | nil => simp [put, get?_cons]
  | cons e es ih =>
    rw [put]
    split <;> simp_all [get?_cons]

theorem get?_put_of_ne {key k : κ} (h : k ≠ key) (es : List (κ × α)) (value : α) :
    get? (put es key value) k = get? es k := by
  induction es with
  | nil => simp [put, get?_cons, Ne.symm h]
  | cons e es ih =>
    rw [put]
    split <;> simp_all [get?_cons, Ne.symm h]

private theorem distinct_foldl_put (es m : List (κ × α)) (h : Distinct m) :
    Distinct (es.foldl (fun m e => put m e.1 e.2) m) := by
  induction es generalizing m with
  | nil => exact h
  | cons e es ih => exact ih _ (distinct_put h e.1 e.2)

theorem distinct_ofList (es : List (κ × α)) : Distinct (ofList es) :=
  distinct_foldl_put es [] List.nodup_nil

end PromptChain.Entries
