import PromptChain.Proofs.Json.Lawful
import Mathlib.Data.List.Nodup

/-!
# Spellings of records

A record may be spelled as an object, with its fields in any order among unknown ones, or as a list
of their values in order. A field that stands for its default may be left out of an object, and off
the end of a list. All spellings are taken alike, and so are those with a tag: anywhere in the
object, or first in the list.
-/

set_option autoImplicit false

namespace PromptChain.Json

/-- What a record with these fields may be spelled as, if those in `spare` may be left out. -/
inductive Spells (spare fields : List (String × Json)) : Json → Prop where
  | object {kept leftOut unknown es : List (String × Json)} :
      fields.Perm (kept ++ leftOut) → leftOut ⊆ spare →
      (∀ e ∈ unknown, e.1 ∉ Entries.keys fields) → es.Perm (kept ++ unknown) →
      Spells spare fields (.object es)
  | array {kept leftOut : List (String × Json)} :
      fields = kept ++ leftOut → leftOut ⊆ spare → Spells spare fields (.array (kept.map (·.2)))

/-- What a record with these fields may be spelled as together with the name of its variant. -/
inductive SpellsTagged {κ : Type} (variants : Variants κ) (name : String)
    (spare fields : List (String × Json)) : Json → Prop where
  | object {es es' : List (String × Json)} :
      Spells spare fields (.object es) → variants.tag ∉ Entries.keys es →
      es'.Perm ((variants.tag, .text name) :: es) →
        SpellsTagged variants name spare fields (.object es')
  | array {vs : List Json} :
      Spells spare fields (.array vs) →
      SpellsTagged variants name spare fields (.array (.text name :: vs))

theorem Spells.mem_members {spare fields : List (String × Json)} {v : Json}
    (h : Spells spare fields v) {e : String × Json} (he : e ∈ fields)
    (hspare : e ∉ spare) : e.2 ∈ v.members := by
  cases h with
  | object hfields hleft _ hes =>
    have hkept := (List.mem_append.1 (hfields.mem_iff.1 he)).resolve_right fun hmem =>
      hspare (hleft hmem)
    exact List.mem_map_of_mem (hes.mem_iff.2 (List.mem_append_left _ hkept))
  | array hfields hleft =>
    rw [hfields] at he
    have hkept := (List.mem_append.1 he).resolve_right fun hmem => hspare (hleft hmem)
    exact List.mem_map_of_mem hkept

theorem Spells.depth_pos {spare fields : List (String × Json)} {v : Json}
    (h : Spells spare fields v) :
    0 < v.depth := by
  cases h <;> exact Nat.succ_pos _

namespace ValueFields

variable {αs : List Type}

/-- An entry whose field stands for the same value when it is left out. -/
def Spares : {αs : List Type} → ValueFields αs → String × Json → Prop
  | _, .nil, _ => False
  | _, .cons field others, e =>
    (e.1 = field.name ∧ ∃ a, field.absent = some a ∧ field.read e.2 = .ok (a, ())) ∨ Spares others e

theorem mem_names_of_spares {fields : ValueFields αs} {e : String × Json} (h : Spares fields e) :
    e.1 ∈ fields.names := by
  induction fields with
  | nil => contradiction
  | cons field others ih =>
    rcases h with ⟨hname, -⟩ | hothers
    · exact List.mem_cons.2 (.inl hname)
    · exact List.mem_cons_of_mem _ (ih hothers)

theorem spares_defaulted {name : String} {α : Type} {default : α} {decode : Decoder α} {v : Json}
    {others : ValueFields αs} (h : decode v = .ok default) :
    Spares (.cons (defaulted name default decode) others) (name, v) :=
  .inl ⟨rfl, default, rfl, (read_required name).2 h⟩

section Cons

variable {α : Type} {field : Field Json Unit α} {others : ValueFields αs} {e : String × Json}

private theorem absent_of_spares (hnew : field.name ∉ others.names) (hname : e.1 = field.name)
    (h : Spares (.cons field others) e) {a : α} (hread : field.read e.2 = .ok (a, ())) :
    field.absent = some a := by
  rcases h with ⟨-, b, habsent, hb⟩ | hothers
  · rw [habsent, (ok_pair_inj (hb.symm.trans hread)).1]
  · rw [← hname] at hnew
    exact absurd (mem_names_of_spares hothers) hnew

private theorem spares_of_cons (hname : e.1 ≠ field.name) (h : Spares (.cons field others) e) :
    Spares others e :=
  h.resolve_left fun hfield => hname hfield.1

private theorem ne_of_writtenAs (hnew : field.name ∉ others.names) {row : Row αs}
    {written : List (String × Json)} (h : WrittenAs others row written) :
    ∀ e ∈ written, e.1 ≠ field.name := by
  intro e he hname
  rw [← keys_of_writtenAs h, ← hname] at hnew
  exact hnew (List.mem_map_of_mem he)

end Cons

private theorem fillAll_append (fields : ValueFields αs) (slots : Slots αs)
    (es es' : List (String × Json)) :
    fillAll fields slots (es ++ es') = fillAll fields slots es >>= fun slots =>
      fillAll fields slots es' := by
  induction es generalizing slots with
  | nil => rfl
  | cons e es ih =>
    rw [List.cons_append, fillAll, fillAll]
    cases fields.fill .ok e.1 slots e.2 with
    | error cause => rfl
    | ok filled => cases filled <;> exact ih _

private theorem fillAll_unknown {fields : ValueFields αs} (slots : Slots αs)
    {es : List (String × Json)} (h : ∀ e ∈ es, e.1 ∉ fields.names) :
    fillAll fields slots es = .ok slots := by
  induction es with
  | nil => rfl
  | cons e es ih =>
    obtain ⟨he, hes⟩ := List.forall_mem_cons.1 h
    rw [fillAll, Fields.fill_of_not_mem_names .ok he]
    exact ih hes

private theorem ofJson_inside (name : String) {α : Type} {field : Field Json Unit α}
    (others : ValueFields αs) {e : String × Json} {before after : List (String × Json)}
    (he : e.1 = field.name) (hbefore : field.name ∉ Entries.keys before)
    (hafter : field.name ∉ Entries.keys after) {a : α} (hread : field.read e.2 = .ok (a, ())) :
    ofJson name (.cons field others) (.object (before ++ e :: after)) =
      (a, ·) <$> ofJson name others (.object (before ++ after)) := by
  have hfill (slots : Slots αs) : fillAll (.cons field others) (none, slots) (e :: after) =
      (some a, ·) <$> fillAll others slots after := by
    rw [fillAll, Fields.fill_cons, if_pos he.symm]
    simp only [ok_bind, hread, pure_eq_ok, fillAll_others field others (some a) slots hafter]
  rw [ofJson, ofJson, Fields.vacant, fillAll_append, fillAll_others field others none _ hbefore,
    fillAll_append]
  cases fillAll others others.vacant before with
  | error cause => rfl
  | ok slots =>
    simp only [Except.map_ok, ok_bind, hfill]
    cases fillAll others slots after <;> rfl

/-- An object with the entries of a record among others: no field is named twice, and what is not
there may be left out. -/
structure Scattered (fields : ValueFields αs) (written es : List (String × Json)) : Prop where
  once : ∀ name ∈ fields.names, (Entries.keys es).count name ≤ 1
  present : ∀ e ∈ written, e ∈ es ∨ e.1 ∉ Entries.keys es ∧ Spares fields e

section Scattered

variable {α : Type} {field : Field Json Unit α} {others : ValueFields αs} {e : String × Json}
  {written es before after : List (String × Json)}

theorem Scattered.tail (h : Scattered (.cons field others) (e :: written) es)
    (hother : ∀ e ∈ written, e.1 ≠ field.name) : Scattered others written es := by
  refine ⟨fun name hname => h.once name (List.mem_cons_of_mem _ hname), fun e he => ?_⟩
  have hpresent := h.present e (List.mem_cons_of_mem _ he)
  exact hpresent.imp_right fun hleft => ⟨hleft.1, spares_of_cons (hother e he) hleft.2⟩

theorem Scattered.without (h : Scattered others written (before ++ e :: after))
    (hother : ∀ e' ∈ written, e'.1 ≠ e.1) : Scattered others written (before ++ after) := by
  refine ⟨fun name hname => ?_, fun e' he' => ?_⟩
  · have honce := h.once name hname
    rw [Entries.keys_append, Entries.keys_cons, List.count_append, List.count_cons] at honce
    rw [Entries.keys_append, List.count_append]
    omega
  · have hsub : (before ++ after).Sublist (before ++ e :: after) :=
      (List.sublist_cons_self e after).append_left before
    refine (h.present e' he').imp (fun hmem => ?_) fun hleft => ?_
    · have hne : e' ≠ e := fun heq => hother e' he' (heq ▸ rfl)
      simpa [hne] using hmem
    · exact ⟨fun hkey => hleft.1 ((hsub.map (·.1)).subset hkey), hleft.2⟩

theorem Scattered.unnamed (h : Scattered (.cons field others) written (before ++ e :: after))
    (hname : e.1 = field.name) :
    field.name ∉ Entries.keys before ∧ field.name ∉ Entries.keys after := by
  have honce := h.once field.name List.mem_cons_self
  rw [Entries.keys_append, Entries.keys_cons, List.count_append, hname, List.count_cons_self]
    at honce
  exact ⟨List.count_eq_zero.1 (by omega), List.count_eq_zero.1 (by omega)⟩

end Scattered

theorem ofJson_scattered (name : String) {fields : ValueFields αs} (hnames : fields.names.Nodup)
    {row : Row αs} {written es : List (String × Json)} (h : WrittenAs fields row written)
    (hes : Scattered fields written es) : ofJson name fields (.object es) = .ok row := by
  induction fields generalizing written es with
  | nil =>
    rw [ofJson, fillAll_unknown _ fun e _ => List.not_mem_nil]
    rfl
  | cons field others ih =>
    cases written with
    | nil => exact h.elim
    | cons e written =>
      obtain ⟨a, row⟩ := row
      obtain ⟨hname, hread, hwritten⟩ := h
      obtain ⟨hnew, hnodup⟩ := List.nodup_cons.1 hnames
      have hother := ne_of_writtenAs hnew hwritten
      have hrest := hes.tail hother
      rcases hes.present e List.mem_cons_self with hmem | ⟨hmissing, hspares⟩
      · obtain ⟨before, after, rfl⟩ := List.append_of_mem hmem
        obtain ⟨hbefore, hafter⟩ := hes.unnamed hname
        have hrest := hrest.without (by rwa [hname])
        rw [ofJson_inside name others hname hbefore hafter hread, ih hnodup hwritten hrest]
        rfl
      · have habsent := absent_of_spares hnew hname hspares hread
        rw [ofJson_leftOut name others (hname ▸ hmissing) habsent, ih hnodup hwritten hrest]
        rfl

theorem inOrder_written (wanted : String) {fields : ValueFields αs} (hnames : fields.names.Nodup)
    {row : Row αs} {kept leftOut : List (String × Json)}
    (h : WrittenAs fields row (kept ++ leftOut)) (hspares : ∀ e ∈ leftOut, Spares fields e)
    (place : Nat) :
    inOrder wanted fields place (kept.map (·.2)) = .ok (row, []) := by
  induction fields generalizing kept leftOut place with
  | nil =>
    obtain ⟨rfl, -⟩ := List.append_eq_nil_iff.1 h
    rfl
  | cons field others ih =>
    obtain ⟨hnew, hnodup⟩ := List.nodup_cons.1 hnames
    cases kept with
    | nil =>
      cases leftOut with
      | nil => exact h.elim
      | cons e leftOut =>
        obtain ⟨a, row⟩ := row
        obtain ⟨hname, hread, hwritten⟩ := h
        obtain ⟨he, hrest⟩ := List.forall_mem_cons.1 hspares
        have hothers : ∀ e ∈ leftOut, Spares others e := fun e he =>
          spares_of_cons (ne_of_writtenAs hnew hwritten e he) (hrest e he)
        have hleft : WrittenAs others row ([] ++ leftOut) := hwritten
        have hrow : inOrder wanted others (place + 1) [] = .ok (row, []) :=
          ih hnodup hleft hothers (place + 1)
        rw [List.map_nil, inOrder, absent_of_spares hnew hname he hread]
        simp only [hrow, ok_bind]
        rfl
    | cons e kept =>
      obtain ⟨a, row⟩ := row
      obtain ⟨hname, hread, hwritten⟩ := h
      have hne := ne_of_writtenAs hnew hwritten
      have hothers : ∀ e ∈ leftOut, Spares others e := fun e he =>
        spares_of_cons (hne e (List.mem_append_right _ he)) (hspares e he)
      rw [List.map_cons, inOrder, hread, ok_bind, ih hnodup hwritten hothers]
      rfl

theorem writtenAs_of_ofJson {name : String} {fields : ValueFields αs} (hnames : fields.names.Nodup)
    {row : Row αs} {written : List (String × Json)} (hkeys : Entries.keys written = fields.names)
    (h : ofJson name fields (.object written) = .ok row) : WrittenAs fields row written := by
  induction fields generalizing written with
  | nil => exact List.map_eq_nil_iff.1 hkeys
  | cons field others ih =>
    cases written with
    | nil => contradiction
    | cons e written =>
      obtain ⟨hname, hothers⟩ := List.cons.inj hkeys
      obtain ⟨hnew, hnodup⟩ := List.nodup_cons.1 hnames
      rw [ofJson_named name others hname (by rwa [← hothers] at hnew)] at h
      obtain ⟨⟨a, ⟨⟩⟩, hread, h⟩ := bind_eq_ok.1 h
      obtain ⟨row', hrow, rfl⟩ := map_eq_ok.1 h
      exact ⟨hname, hread, ih hnodup hothers hrow⟩

private theorem scattered_of_perm {fields : ValueFields αs} (hnames : fields.names.Nodup)
    {written kept leftOut unknown es : List (String × Json)}
    (hkeys : Entries.keys written = fields.names)
    (hwritten : written.Perm (kept ++ leftOut)) (hspares : ∀ e ∈ leftOut, Spares fields e)
    (hunknown : ∀ e ∈ unknown, e.1 ∉ Entries.keys written) (hes : es.Perm (kept ++ unknown)) :
    Scattered fields written es := by
  have hsplit : fields.names.Perm (Entries.keys kept ++ Entries.keys leftOut) := by
    rw [← hkeys, ← Entries.keys_append]
    exact hwritten.map (·.1)
  have hesKeys : (Entries.keys es).Perm (Entries.keys kept ++ Entries.keys unknown) := by
    rw [← Entries.keys_append]
    exact hes.map (·.1)
  have hnotUnknown : ∀ name ∈ fields.names, name ∉ Entries.keys unknown := fun name hname hmem => by
    obtain ⟨e, he, rfl⟩ := List.mem_map.1 hmem
    exact hunknown e he (hkeys ▸ hname)
  refine ⟨fun name hname => ?_, fun e he => ?_⟩
  · have hle := List.nodup_iff_count_le_one.1 hnames name
    rw [hsplit.count_eq, List.count_append] at hle
    rw [hesKeys.count_eq, List.count_append, List.count_eq_zero.2 (hnotUnknown name hname)]
    omega
  · rcases List.mem_append.1 (hwritten.mem_iff.1 he) with hkept | hleft
    · exact .inl (hes.mem_iff.2 (List.mem_append_left _ hkept))
    · refine .inr ⟨fun hkey => ?_, hspares e hleft⟩
      have hname : e.1 ∈ fields.names := hkeys ▸ List.mem_map_of_mem he
      have hkept := (List.mem_append.1 (hesKeys.mem_iff.1 hkey)).resolve_right (hnotUnknown _ hname)
      -- The field would be named twice where all are written.
      have hdisjoint := (List.nodup_append'.1 (hsplit.nodup_iff.1 hnames)).2.2
      exact hdisjoint hkept (List.mem_map_of_mem hleft)

theorem ofJson_spelled (name : String) {fields : ValueFields αs} (hnames : fields.names.Nodup)
    {row : Row αs} {written : List (String × Json)} (h : WrittenAs fields row written)
    {spare : List (String × Json)} (hspare : ∀ e ∈ spare, Spares fields e) {v : Json}
    (hv : Spells spare written v) : ofJson name fields v = .ok row := by
  cases hv with
  | object hwritten hleft hunknown hes =>
    have hspares := fun e he => hspare e (hleft he)
    exact ofJson_scattered name hnames h
      (scattered_of_perm hnames (keys_of_writtenAs h) hwritten hspares hunknown hes)
  | array hwritten hleft =>
    rw [hwritten] at h
    rw [ofJson, inOrder_written _ hnames h (fun e he => hspare e (hleft he)) 0]
    rfl

end ValueFields

/-- A decoder that takes a record with fields of these names, of which those in `spare` may be left
out. -/
def TakesRecord {α : Type} (take : Decoder α) (names : List String) (spare : List (String × Json)) :
    Prop :=
  ∃ (αs : List Type) (name : String) (fields : ValueFields αs) (ofRow : Row αs → α),
    (∀ v, take v = ofRow <$> ValueFields.ofJson name fields v) ∧ fields.names = names ∧
      ∀ e ∈ spare, ValueFields.Spares fields e

/-- What is taken from an object with the fields in their order is taken from every spelling of
it. -/
theorem TakesRecord.take_spelled {α : Type} {take : Decoder α} {names : List String}
    {spare written : List (String × Json)} (h : TakesRecord take names spare) (hnames : names.Nodup)
    (hkeys : Entries.keys written = names) {a : α} (htake : take (.object written) = .ok a)
    {v : Json} (hv : Spells spare written v) : take v = .ok a := by
  obtain ⟨αs, name, fields, ofRow, hofRow, rfl, hspare⟩ := h
  rw [hofRow] at htake
  obtain ⟨row, hrow, rfl⟩ := map_eq_ok.1 htake
  have hwritten := ValueFields.writtenAs_of_ofJson hnames hkeys hrow
  rw [hofRow, ValueFields.ofJson_spelled name hnames hwritten hspare hv]
  rfl

namespace Variants

variable {κ : Type} {variants : Variants κ}

theorem splitEntries_append (kind : Option κ) {done before : List (String × Json)}
    (h : variants.tag ∉ Entries.keys before) (es : List (String × Json)) :
    variants.splitEntries kind done (before ++ es) =
      variants.splitEntries kind (before.reverse ++ done) es := by
  induction before generalizing done with
  | nil => rfl
  | cons e before ih =>
    obtain ⟨hne, hbefore⟩ := List.ne_and_not_mem_of_not_mem_cons h
    rw [List.cons_append, splitEntries_cons, if_neg hne.symm, ih hbefore, List.reverse_cons,
      List.append_assoc]
    rfl

theorem exists_split_of_spellsTagged {name : String} {k : κ} (hname : variants.ofName name = .ok k)
    {spare fields : List (String × Json)} {v : Json}
    (h : SpellsTagged variants name spare fields v) :
    ∃ v', variants.split v = .ok (k, v') ∧ Spells spare fields v' := by
  cases h with
  | array hvs =>
    refine ⟨_, ?_, hvs⟩
    rw [split, ofTag, hname]
    rfl
  | @object es es' hes htag hperm =>
    obtain ⟨before, after, rfl⟩ := List.append_of_mem (hperm.mem_iff.2 List.mem_cons_self)
    have hrest : (before ++ after).Perm es := (List.perm_middle.symm.trans hperm).cons_inv
    have hothers : variants.tag ∉ Entries.keys before ++ Entries.keys after := fun hmem => by
      rw [← Entries.keys_append] at hmem
      exact htag ((hrest.map (·.1)).mem_iff.1 hmem)
    rw [List.mem_append, not_or] at hothers
    refine ⟨.object (before ++ after), ?_, ?_⟩
    · rw [split, splitEntries_append none hothers.1, splitEntries_cons, if_pos rfl, ofTag, hname]
      simp [splitEntries_others hothers.2]
    · cases hes with
      | object hfields hleft hunknown hes => exact .object hfields hleft hunknown (hrest.trans hes)

end Variants

end PromptChain.Json
