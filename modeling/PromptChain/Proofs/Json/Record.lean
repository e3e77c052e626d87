import PromptChain.Json.Record
import PromptChain.Proofs.Json.Reading

/-!
# What records are read from

Each value of a record that is read, from a value or from a text, was read by its own field or is
the default of the field. A record is read back from the object that names its fields in their
order.
-/

set_option autoImplicit false

namespace PromptChain.Json

namespace Fields

variable {σ τ : Type}

def names : {αs : List Type} → Fields σ τ αs → List String
  | _, nil => []
  | _, cons field others => field.name :: others.names

/-- Every value read so far was read by its field from a source with a property. -/
def Filled (S : σ → Prop) : {αs : List Type} → Fields σ τ αs → Slots αs → Prop
  | _, nil, _ => True
  | _, cons field others, (slot, slots) =>
    (∀ a ∈ slot, ∃ s t, S s ∧ field.read s = .ok (a, t)) ∧ others.Filled S slots

/-- Every value of a row was read by its field from a source with a property, or is the default of
the field. -/
def Given (S : σ → Prop) : {αs : List Type} → Fields σ τ αs → Row αs → Prop
  | _, nil, _ => True
  | _, cons field others, (a, row) =>
    ((∃ s t, S s ∧ field.read s = .ok (a, t)) ∨ field.absent = some a) ∧ others.Given S row

variable {S : σ → Prop} {αs : List Type}

theorem fill_cons {α : Type} (field : Field σ τ α) (others : Fields σ τ αs)
    (enter : σ → Reading σ) (name : String) (slot : Option α) (slots : Slots αs) (source : σ) :
    fill enter (cons field others) name (slot, slots) source =
      if field.name = name then
        match slot with
        | some _ => misfit (.duplicateField name)
        | none => do
          let (a, left) ← field.read (← enter source)
          return some ((some a, slots), left)
      else do
        match ← others.fill enter name slots source with
        | some (slots, left) => return some ((slot, slots), left)
        | none => return none := rfl

theorem finish_cons {α : Type} (field : Field σ τ α) (others : Fields σ τ αs)
    (slot : Option α) (slots : Slots αs) :
    finish (cons field others) (slot, slots) =
      match slot, field.absent with
      | some a, _ => do return (a, ← others.finish slots)
      | none, some a => do return (a, ← others.finish slots)
      | none, none => misfit (.missingField field.name) := rfl

theorem fill_of_not_mem_names {fields : Fields σ τ αs} (enter : σ → Reading σ) {key : String}
    (hkey : key ∉ fields.names) (slots : Slots αs) (source : σ) :
    fields.fill enter key slots source = .ok none := by
  induction fields with
  | nil => rfl
  | cons field others ih =>
    obtain ⟨slot, slots⟩ := slots
    obtain ⟨hfield, hothers⟩ := List.ne_and_not_mem_of_not_mem_cons hkey
    rw [fill_cons, if_neg (Ne.symm hfield), ih hothers]
    rfl

theorem filled_vacant (fields : Fields σ τ αs) : fields.Filled S fields.vacant := by
  induction fields with
  | nil => trivial
  | cons field others ih => exact ⟨nofun, ih⟩

theorem filled_fill {fields : Fields σ τ αs} {enter : σ → Reading σ} {name : String}
    {slots slots' : Slots αs} {source : σ} {left : τ} (hslots : fields.Filled S slots)
    (henter : ∀ s, enter source = .ok s → S s)
    (h : fields.fill enter name slots source = .ok (some (slots', left))) :
    fields.Filled S slots' := by
  induction fields with
  | nil => simp [fill] at h
  | cons field others ih =>
    obtain ⟨slot, slots⟩ := slots
    rw [fill_cons] at h
    split at h
    · cases slot with
      | some a => simp [misfit] at h
      | none =>
        obtain ⟨s, hs, h⟩ := bind_eq_ok.1 h
        obtain ⟨⟨a, t⟩, ha, h⟩ := bind_eq_ok.1 h
        obtain ⟨rfl, -⟩ := Prod.mk.inj (Option.some.inj (Except.ok.inj h))
        refine ⟨fun b hb => ?_, hslots.2⟩
        rw [← Option.some.inj hb]
        exact ⟨s, t, henter s hs, ha⟩
    · obtain ⟨filled, hfill, h⟩ := bind_eq_ok.1 h
      cases filled with
      | none => simp at h
      | some r =>
        obtain ⟨slots', left'⟩ := r
        obtain ⟨rfl, rfl⟩ := Prod.mk.inj (Option.some.inj (Except.ok.inj h))
        exact ⟨hslots.1, ih hslots.2 hfill⟩

theorem given_finish {fields : Fields σ τ αs} {slots : Slots αs} {row : Row αs}
    (hslots : fields.Filled S slots) (h : fields.finish slots = .ok row) : fields.Given S row := by
  induction fields with
  | nil => trivial
  | cons field others ih =>
    obtain ⟨slot, slots⟩ := slots
    rw [finish_cons] at h
    split at h
    · next a =>
      obtain ⟨row', hrow, h⟩ := bind_eq_ok.1 h
      rw [← Except.ok.inj h]
      exact ⟨.inl (hslots.1 a rfl), ih hslots.2 hrow⟩
    · next a habsent =>
      obtain ⟨row', hrow, h⟩ := bind_eq_ok.1 h
      rw [← Except.ok.inj h]
      exact ⟨.inr habsent, ih hslots.2 hrow⟩
    · simp [misfit] at h

end Fields

def members : Json → List Json
  | .array vs => vs
  | .object es => es.map (·.2)
  | _ => []

theorem depth_lt_of_mem_members {v w : Json} (h : w ∈ v.members) : w.depth < v.depth := by
  cases v with
  | array vs => exact Nat.lt_succ_of_le ((depthItems_le_iff vs _).1 le_rfl w h)
  | object es =>
    obtain ⟨e, he, rfl⟩ := List.mem_map.1 h
    exact Nat.lt_succ_of_le ((depthEntries_le_iff es _).1 le_rfl e he)
  | null | bool | number | text => contradiction

theorem eachNumber_of_mem_members {P : Number → Prop} {v w : Json} (hv : v.EachNumber P)
    (h : w ∈ v.members) : w.EachNumber P := by
  cases v with
  | array vs => exact eachNumber_array_iff.1 hv w h
  | object es =>
    obtain ⟨e, he, rfl⟩ := List.mem_map.1 h
    exact eachNumber_object_iff.1 hv e he
  | null | bool | number | text => contradiction

namespace ValueFields

variable {αs : List Type} {S : Json → Prop}

private theorem filled_fillAll {fields : ValueFields αs} {slots slots' : Slots αs}
    {es : List (String × Json)} (hslots : fields.Filled S slots) (hes : ∀ e ∈ es, S e.2)
    (h : fillAll fields slots es = .ok slots') : fields.Filled S slots' := by
  induction es generalizing slots with
  | nil => exact Except.ok.inj h ▸ hslots
  | cons e es ih =>
    rw [List.forall_mem_cons] at hes
    obtain ⟨filled, hfill, h⟩ := bind_eq_ok.1 h
    cases filled with
    | none => exact ih hslots hes.2 h
    | some r =>
      refine ih (Fields.filled_fill hslots (fun s hs => ?_) hfill) hes.2 h
      exact Except.ok.inj hs ▸ hes.1

private theorem given_inOrder {wanted : String} {fields : ValueFields αs} {place : Nat}
    {vs left : List Json} {row : Row αs} (hvs : ∀ v ∈ vs, S v)
    (h : inOrder wanted fields place vs = .ok (row, left)) : fields.Given S row := by
  induction fields generalizing place vs left with
  | nil => trivial
  | cons field others ih =>
    cases vs with
    | nil =>
      rw [inOrder] at h
      split at h
      · next a habsent =>
        obtain ⟨⟨row', left'⟩, hrow, h⟩ := bind_eq_ok.1 h
        obtain ⟨rfl, -⟩ := ok_pair_inj h
        exact ⟨.inr habsent, ih hvs hrow⟩
      · contradiction
    | cons v vs =>
      rw [List.forall_mem_cons] at hvs
      obtain ⟨⟨a, t⟩, ha, h⟩ := bind_eq_ok.1 h
      obtain ⟨⟨row', left'⟩, hrow, h⟩ := bind_eq_ok.1 h
      obtain ⟨rfl, -⟩ := ok_pair_inj h
      exact ⟨.inl ⟨v, t, hvs.1, ha⟩, ih hvs.2 hrow⟩

theorem given_ofJson {name : String} {fields : ValueFields αs} {v : Json} {row : Row αs}
    (h : ofJson name fields v = .ok row) : 0 < v.depth ∧ fields.Given (· ∈ v.members) row := by
  cases v with
  | object es =>
    obtain ⟨slots, hslots, h⟩ := bind_eq_ok.1 h
    refine ⟨Nat.succ_pos _, Fields.given_finish ?_ h⟩
    exact filled_fillAll (Fields.filled_vacant fields) (fun e he => List.mem_map_of_mem he) hslots
  | array vs =>
    obtain ⟨⟨row', left⟩, hrow, h⟩ := bind_eq_ok.1 h
    dsimp only at h
    split at h
    · rw [← Except.ok.inj h]
      exact ⟨Nat.succ_pos _, given_inOrder (fun v hv => hv) hrow⟩
    · contradiction
  | null | bool | number | text => contradiction

theorem fillAll_others {α : Type} (field : Field Json Unit α) (others : ValueFields αs)
    (slot : Option α) (slots : Slots αs) {es : List (String × Json)}
    (h : field.name ∉ Entries.keys es) :
    fillAll (.cons field others) (slot, slots) es = (slot, ·) <$> fillAll others slots es := by
  induction es generalizing slots with
  | nil => rfl
  | cons e es ih =>
    simp only [Entries.keys, List.map_cons, List.mem_cons, not_or] at h ih
    rw [fillAll, fillAll, Fields.fill_cons, if_neg h.1]
    cases others.fill .ok e.1 slots e.2 with
    | error cause => rfl
    | ok filled =>
      cases filled with
      | none => exact ih slots h.2
      | some r => exact ih r.1 h.2

theorem ofJson_named (name : String) {α : Type} {field : Field Json Unit α}
    (others : ValueFields αs) {e : String × Json}
    {es : List (String × Json)} (he : e.1 = field.name)
    (h : field.name ∉ Entries.keys es) :
    ofJson name (.cons field others) (.object (e :: es)) =
      field.read e.2 >>= fun r => (r.1, ·) <$> ofJson name others (.object es) := by
  rw [ofJson, ofJson, fillAll, Fields.vacant, Fields.fill_cons, if_pos he.symm]
  simp only [ok_bind]
  cases field.read e.2 with
  | error cause => rfl
  | ok r =>
    simp only [ok_bind, pure_eq_ok, fillAll_others field others _ _ h]
    cases fillAll others others.vacant es with
    | error cause => rfl
    | ok slots => rfl

theorem ofJson_leftOut (name : String) {α : Type} {field : Field Json Unit α}
    (others : ValueFields αs) {es : List (String × Json)} (h : field.name ∉ Entries.keys es) {a : α}
    (habsent : field.absent = some a) :
    ofJson name (.cons field others) (.object es) =
      (a, ·) <$> ofJson name others (.object es) := by
  rw [ofJson, ofJson, Fields.vacant, fillAll_others field others _ _ h]
  cases fillAll others others.vacant es with
  | error cause => rfl
  | ok slots =>
    simp only [Except.map_ok, ok_bind, Fields.finish_cons, habsent]
    rfl

/-- The entries that name the fields of a record in their order, each with a value that its field
reads as the value of the row. -/
def WrittenAs : {αs : List Type} → ValueFields αs → Row αs → List (String × Json) → Prop
  | _, .nil, _, es => es = []
  | _, .cons _ _, _, [] => False
  | _, .cons field others, (a, row), e :: es =>
    e.1 = field.name ∧ field.read e.2 = .ok (a, ()) ∧ WrittenAs others row es

theorem keys_of_writtenAs {fields : ValueFields αs} {row : Row αs}
    {es : List (String × Json)} (h : WrittenAs fields row es) : Entries.keys es = fields.names := by
  induction fields generalizing es with
  | nil =>
    rw [show es = [] from h]
    rfl
  | cons field others ih =>
    cases es with
    | nil => exact h.elim
    | cons e es =>
      obtain ⟨hname, -, hes⟩ := h
      have hkeys : Entries.keys es = others.names := ih hes
      rw [Fields.names, ← hname, ← hkeys]
      rfl

theorem ofJson_writtenAs (name : String) {fields : ValueFields αs} (hnames : fields.names.Nodup)
    {row : Row αs} {es : List (String × Json)} (h : WrittenAs fields row es) :
    ofJson name fields (.object es) = .ok row := by
  induction fields generalizing es with
  | nil =>
    rw [show es = [] from h]
    rfl
  | cons field others ih =>
    cases es with
    | nil => exact h.elim
    | cons e es =>
      obtain ⟨hname, hread, hes⟩ := h
      obtain ⟨hnew, hnodup⟩ := List.nodup_cons.1 hnames
      rw [ofJson_named name others hname (by rwa [keys_of_writtenAs hes]), hread, ok_bind,
        ih hnodup hes]
      rfl

end ValueFields

namespace TextFields

variable {αs : List Type}

private theorem filled_takeEntry {fields : TextFields αs} {slots slots' : Slots αs} {key : String}
    {cs rest : List Char} (hslots : fields.Filled (fun _ => True) slots)
    (h : fields.takeEntry slots key cs = .ok (slots', rest)) :
    fields.Filled (fun _ => True) slots' := by
  obtain ⟨filled, hfill, h⟩ := bind_eq_ok.1 h
  cases filled with
  | none =>
    obtain ⟨inside, -, h⟩ := bind_eq_ok.1 h
    obtain ⟨left, -, h⟩ := bind_eq_ok.1 h
    obtain ⟨rfl, -⟩ := ok_pair_inj h
    exact hslots
  | some r =>
    obtain rfl : r = (slots', rest) := Except.ok.inj h
    exact Fields.filled_fill hslots (fun _ _ => trivial) hfill

private theorem given_inOrder {wanted : String} {fields : TextFields αs} {place : Nat}
    {cs rest : List Char} {row : Row αs} (h : inOrder wanted fields place cs = .ok (row, rest)) :
    fields.Given (fun _ => True) row := by
  induction fields generalizing place cs rest with
  | nil => trivial
  | cons field others ih =>
    obtain ⟨next, -, h⟩ := bind_eq_ok.1 h
    cases next with
    | some inside =>
      obtain ⟨⟨a, left⟩, ha, h⟩ := bind_eq_ok.1 h
      obtain ⟨⟨row', left'⟩, hrow, h⟩ := bind_eq_ok.1 h
      obtain ⟨rfl, -⟩ := ok_pair_inj h
      exact ⟨.inl ⟨inside, left, trivial, ha⟩, ih hrow⟩
    | none =>
      dsimp only at h
      split at h
      · next a habsent =>
        obtain ⟨⟨row', left'⟩, hrow, h⟩ := bind_eq_ok.1 h
        obtain ⟨rfl, -⟩ := ok_pair_inj h
        exact ⟨.inr habsent, ih hrow⟩
      · contradiction

theorem given_read {name : String} {fields : TextFields αs} {budget : Nat} {cs rest : List Char}
    {row : Row αs} (h : read name fields budget cs = .ok (row, rest)) :
    fields.Given (fun _ => True) row := by
  rw [read] at h
  split at h
  · obtain ⟨⟨row', left⟩, hrow, h⟩ := bind_eq_ok.1 h
    obtain ⟨behind, -, h⟩ := bind_eq_ok.1 h
    obtain ⟨rfl, -⟩ := ok_pair_inj h
    exact given_inOrder hrow
  · obtain ⟨⟨slots, left⟩, hslots, h⟩ := bind_eq_ok.1 h
    obtain ⟨row', hrow, h⟩ := bind_eq_ok.1 h
    obtain ⟨rfl, -⟩ := ok_pair_inj h
    refine Fields.given_finish ?_ hrow
    exact foldEntries_invariant (fun s key cs t rest hs ht => filled_takeEntry hs ht)
      (Fields.filled_vacant fields) hslots
  · obtain ⟨r, -, h⟩ := bind_eq_ok.1 h
    contradiction

end TextFields

end PromptChain.Json
