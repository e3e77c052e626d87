import PromptChain.Proofs.Json.Lawful
import PromptChain.Proofs.Json.Written

/-!
# Tagged values and records of a text

A tagged value that is read from a text fits into the room for it. The text of a tagged value or of
a record, in any style, is read as the value itself is taken apart, unless it nests too deep.
-/

set_option autoImplicit false

namespace PromptChain.Json

theorem readMistyped_ne_ok {α : Type} {wanted : String} {cs : List Char} {a : α} :
    readMistyped wanted cs ≠ .ok a := by
  intro h
  obtain ⟨r, -, h⟩ := bind_eq_ok.1 h
  contradiction

namespace Variants

variable {κ : Type} {variants : Variants κ}

private theorem read_bracket {c : Char} (hc : c = '[' ∨ c = '\x7b') {cs rest : List Char}
    (h : skipBlanks cs = c :: rest) (budget : Nat) :
    variants.read budget 0 cs = malformed .tooDeep := by
  rcases hc with rfl | rfl <;> rw [read, h] <;> rfl

theorem read_list {cs rest : List Char} (h : skipBlanks cs = '[' :: rest)
    (budget room : Nat) :
    variants.read budget (room + 1) cs =
      nextElement? true rest >>= fun next =>
        match next with
        | none => misfit (.missingField variants.tag)
        | some rest => do
          let (k, rest) ← variants.readTag rest
          let (vs, rest) ← readElements (value budget room) budget false [] rest
          return ((k, .array vs), rest) := by
  rw [read, h]
  rfl

theorem read_object {cs rest : List Char} (h : skipBlanks cs = '\x7b' :: rest)
    (budget room : Nat) :
    variants.read budget (room + 1) cs =
      foldEntries (takeEntry variants (value budget room)) budget true (none, []) rest >>= fun r =>
        match r.1.1 with
        | some k => .ok ((k, .object r.1.2.reverse), r.2)
        | none => misfit (.missingField variants.tag) := by
  rw [read, h]
  rfl

private theorem parts_of_takeEntry {budget room : Nat}
    {s t : Option κ × List (String × Json)} {key : String} {cs rest : List Char}
    (hs : ∀ e ∈ s.2, e.2.depth ≤ room ∧ e.2.InRange)
    (h : takeEntry variants (value budget room) s key cs = .ok (t, rest)) :
    ∀ e ∈ t.2, e.2.depth ≤ room ∧ e.2.InRange := by
  rw [takeEntry] at h
  split at h
  · split at h
    · contradiction
    · obtain ⟨inside, -, h⟩ := bind_eq_ok.1 h
      obtain ⟨⟨k, left⟩, -, h⟩ := bind_eq_ok.1 h
      obtain ⟨rfl, -⟩ := ok_pair_inj h
      exact hs
  · obtain ⟨inside, -, h⟩ := bind_eq_ok.1 h
    obtain ⟨⟨v, left⟩, hv, h⟩ := bind_eq_ok.1 h
    obtain ⟨rfl, -⟩ := ok_pair_inj h
    exact List.forall_mem_cons.2 ⟨depth_le_of_value hv, hs⟩

private theorem read_other {c : Char} (hc : ¬ (c = '[' ∨ c = '\x7b')) {cs rest : List Char}
    (h : skipBlanks cs = c :: rest) (budget room : Nat) :
    variants.read budget room cs = readMistyped variants.wanted (c :: rest) := by
  rw [read, h]
  split
  · next heq => exact absurd (.inl (List.cons.inj heq).1) hc
  · next heq => exact absurd (.inr (List.cons.inj heq).1) hc
  · rfl

theorem depth_le_of_read {budget room : Nat} {cs rest : List Char} {k : κ} {fields : Json}
    (h : variants.read budget room cs = .ok ((k, fields), rest)) :
    fields.depth ≤ room ∧ fields.InRange := by
  cases hcs : skipBlanks cs with
  | nil =>
    rw [read, hcs] at h
    contradiction
  | cons c cs' =>
    by_cases hbracket : c = '[' ∨ c = '\x7b'
    · cases room with
      | zero =>
        rw [read_bracket hbracket hcs] at h
        contradiction
      | succ room =>
        rcases hbracket with rfl | rfl
        · rw [read_list hcs] at h
          obtain ⟨next, -, h⟩ := bind_eq_ok.1 h
          cases next with
          | none => contradiction
          | some inside =>
            obtain ⟨⟨k', left⟩, -, h⟩ := bind_eq_ok.1 h
            obtain ⟨⟨vs, left'⟩, hvs, h⟩ := bind_eq_ok.1 h
            obtain ⟨rfl⟩ : Json.array vs = fields := congrArg (·.1.2) (Except.ok.inj h)
            have hparts : ∀ v ∈ vs, v.depth ≤ room ∧ v.InRange := fun v hv => by
              obtain ⟨cs, rest, hread⟩ :=
                (mem_of_readElements hvs v hv).resolve_left List.not_mem_nil
              exact depth_le_of_value hread
            exact ⟨(depth_array_le_iff vs room).2 fun v hv => (hparts v hv).1,
              eachNumber_array_iff.2 fun v hv => (hparts v hv).2⟩
        · rw [read_object hcs] at h
          obtain ⟨⟨⟨kind, done⟩, left⟩, hdone, h⟩ := bind_eq_ok.1 h
          have hparts : ∀ e ∈ done, e.2.depth ≤ room ∧ e.2.InRange :=
            foldEntries_invariant (motive := fun s : Option κ × List (String × Json) =>
                ∀ e ∈ s.2, e.2.depth ≤ room ∧ e.2.InRange)
              (fun s key cs t rest hs ht => parts_of_takeEntry hs ht) (by simp) hdone
          cases kind with
          | none => contradiction
          | some k' =>
            obtain ⟨rfl⟩ : Json.object done.reverse = fields := congrArg (·.1.2) (Except.ok.inj h)
            exact ⟨(depth_object_le_iff _ room).2 fun e he => (hparts e (List.mem_reverse.1 he)).1,
              eachNumber_object_iff.2 fun e he => (hparts e (List.mem_reverse.1 he)).2⟩
    · rw [read_other hbracket hcs] at h
      exact absurd h readMistyped_ne_ok

/-- What taking an entry of a tagged object out of a text comes to for the entry itself. -/
private def takeValue (variants : Variants κ) (room : Nat) (s : Option κ × List (String × Json))
    (e : String × Json) : Reading (Option κ × List (String × Json)) :=
  if e.1 = variants.tag then
    match s.1 with
    | some _ => misfit (.duplicateField e.1)
    | none => (fun k => (some k, s.2)) <$> variants.ofTag e.2
  else (fun v => (s.1, (e.1, v) :: s.2)) <$> Decoder.within room .ok e.2

private theorem foldlM_takeValue {room : Nat} {kind : Option κ} {es done : List (String × Json)}
    (h : variants.tag ∉ Entries.keys es) :
    es.foldlM (takeValue variants room) (kind, done) =
      (fun fs => (kind, fs.reverse ++ done)) <$> Decoder.entries (.within room .ok) es := by
  induction es generalizing done with
  | nil => rfl
  | cons e es ih =>
    simp only [Entries.keys, List.map_cons, List.mem_cons, not_or] at h ih
    rw [List.foldlM_cons, Decoder.entries, takeValue, if_neg (Ne.symm h.1)]
    cases Decoder.within room .ok e.2 with
    | error cause => rfl
    | ok v =>
      simp only [Except.map_ok, ok_bind, ih h.2]
      cases Decoder.entries (.within room .ok) es <;> simp

private theorem readsAs_takeEntry_tag (w : Style) (read : Reader Json) (level : Nat) (name : String)
    (s : Option κ × List (String × Json)) :
    ReadsAs (takeEntry variants read s variants.tag) (':' :: w.gap ++ w.text level (.text name))
      (match s.1 with
        | some _ => misfit (.duplicateField variants.tag)
        | none => (fun k => (some k, s.2)) <$> variants.ofName name) := by
  intro rest _
  have hskip : skipBlanks (w.gap ++ w.text level (.text name) ++ rest) =
      '"' :: (name.toList.flatMap escaped ++ '"' :: rest) := by
    rw [List.append_assoc, skipBlanks_append w.blank_gap, w.text_text, quotation_append,
      skipBlanks_cons rfl]
  rw [takeEntry, if_pos rfl]
  cases s.1 with
  | some k => rfl
  | none =>
    simp only [List.cons_append, passColon_colon, ok_bind, readTag, hskip,
      readQuotation_flatMap_escaped]
    cases variants.ofName name <;> rfl

private theorem readsAs_takeEntry_other (w : Style) {budget room level : Nat} {key : String}
    (hkey : key ≠ variants.tag) {v : Json} (hlegible : v.Legible)
    (hbudget : (w.text level v).length < budget) (s : Option κ × List (String × Json)) :
    ReadsAs (takeEntry variants (value budget room) s key) (':' :: w.gap ++ w.text level v)
      ((fun v => (s.1, (key, v) :: s.2)) <$> Decoder.within room .ok v) := by
  intro rest hrest
  have hvalue := (readsAs_value w hlegible room level hbudget).behind
    (skipsBlanks_value budget room) w.blank_gap rest hrest
  rw [takeEntry, if_neg hkey, List.cons_append, List.cons_append, passColon_colon, ok_bind, hvalue]
  cases Decoder.within room .ok v <;> rfl

theorem readsAs_read (w : Style) {name : String} {k : κ} {es : List (String × Json)}
    (hname : variants.ofName name = .ok k) (htag : variants.tag ∉ Entries.keys es)
    (hlegible : (object es).Legible) {budget level : Nat}
    (hbudget : (w.text level (taggedWith variants name es)).length < budget) (room : Nat) :
    ReadsAs (variants.read budget room) (w.text level (taggedWith variants name es))
      (Decoder.within room variants.split (taggedWith variants name es)) := by
  intro rest hrest
  rw [Decoder.within, split_taggedWith hname htag]
  rw [taggedWith] at hbudget ⊢
  obtain ⟨hcount, hlength⟩ := w.length_lt_text_object level ((variants.tag, .text name) :: es)
  rw [w.text_object]
  have hskip := fun cs : List Char => skipBlanks_cons (show isBlank '\x7b' = false from rfl) cs
  cases room with
  | zero =>
    rw [List.cons_append, read_bracket (.inr rfl) (hskip _), if_neg (by simp [depth])]
    rfl
  | succ room =>
    have hparts : ∀ e ∈ (variants.tag, .text name) :: es, ∀ s : Option κ × List (String × Json),
        ReadsAs (takeEntry variants (value budget room) s e.1)
          (':' :: w.gap ++ w.text (level + 1) e.2) (takeValue variants room s e) := by
      refine List.forall_mem_cons.2 ⟨fun s => ?_, fun e he s => ?_⟩
      · rw [takeValue, if_pos rfl]
        exact readsAs_takeEntry_tag w _ _ name s
      · have hkey : e.1 ≠ variants.tag := fun heq => htag (heq ▸ List.mem_map_of_mem he)
        have hpart := (hlength e (List.mem_cons_of_mem _ he)).trans hbudget
        rw [takeValue, if_neg hkey]
        exact readsAs_takeEntry_other w hkey (eachNumber_object_iff.1 hlegible e he) hpart s
    have hloop := foldEntries_enclosed (w.blank_indent (level + 1)) (w.blank_indent level) hparts
      (hcount.trans hbudget) (none, []) rest hrest
    have htake : takeValue variants room (none, []) (variants.tag, .text name) =
        .ok (some k, []) := by
      simp [takeValue, ofTag, hname]
    rw [List.foldlM_cons, htake, ok_bind, foldlM_takeValue htag, entries_within (entries_ok es)]
      at hloop
    rw [List.cons_append, read_object (hskip _), hloop]
    have hdepth : (object ((variants.tag, text name) :: es)).depth = depthEntries es + 1 := by
      simp [depth, depthEntries]
    rw [hdepth]
    by_cases hes : depthEntries es ≤ room <;> simp [hes, leaving, malformed]

theorem readsAs_read_untagged (w : Style) {es : List (String × Json)}
    (htag : variants.tag ∉ Entries.keys es) (hlegible : (object es).Legible) {budget level : Nat}
    (hbudget : (w.text level (.object es)).length < budget) (room : Nat) :
    ReadsAs (variants.read budget room) (w.text level (.object es))
      (Decoder.within room (fun _ => misfit (.missingField variants.tag)) (.object es)) := by
  intro rest hrest
  obtain ⟨hcount, hlength⟩ := w.length_lt_text_object level es
  have hskip := fun cs : List Char => skipBlanks_cons (show isBlank '\x7b' = false from rfl) cs
  rw [Decoder.within, w.text_object, List.cons_append]
  cases room with
  | zero =>
    rw [read_bracket (.inr rfl) (hskip _), if_neg (by simp [depth])]
    rfl
  | succ room =>
    have hparts : ∀ e ∈ es, ∀ s : Option κ × List (String × Json),
        ReadsAs (takeEntry variants (value budget room) s e.1)
          (':' :: w.gap ++ w.text (level + 1) e.2) (takeValue variants room s e) := by
      intro e he s
      have hkey : e.1 ≠ variants.tag := fun heq => htag (heq ▸ List.mem_map_of_mem he)
      rw [takeValue, if_neg hkey]
      exact readsAs_takeEntry_other w hkey (eachNumber_object_iff.1 hlegible e he)
        ((hlength e he).trans hbudget) s
    have hloop := foldEntries_enclosed (w.blank_indent (level + 1)) (w.blank_indent level) hparts
      (hcount.trans hbudget) (none, []) rest hrest
    rw [foldlM_takeValue htag, entries_within (entries_ok es)] at hloop
    rw [read_object (hskip _), hloop]
    by_cases hes : depthEntries es ≤ room
    · simp [depth, hes, leaving]
      rfl
    · simp [depth, hes, leaving, malformed]

theorem skipsBlanks_read (budget room : Nat) : SkipsBlanks (variants.read budget room) := by
  intro blanks cs hblanks
  rw [read, read, skipBlanks_append hblanks]

variable {α : Type} {takeFields : κ → Decoder α}

/-- Read a tagged value of a text and take what stands beside the tag. -/
def readFields (variants : Variants κ) (takeFields : κ → Decoder α) (budget room : Nat) :
    Reader α :=
  fun cs => do
    let ((k, fields), rest) ← variants.read budget room cs
    return (← takeFields k fields, rest)

theorem exists_of_readFields {budget room : Nat} {cs rest : List Char} {a : α}
    (h : variants.readFields takeFields budget room cs = .ok (a, rest)) :
    ∃ k fields, takeFields k fields = .ok a ∧ fields.depth ≤ room ∧ fields.InRange := by
  obtain ⟨⟨⟨k, fields⟩, left⟩, hread, h⟩ := bind_eq_ok.1 h
  obtain ⟨b, hb, h⟩ := bind_eq_ok.1 h
  obtain ⟨rfl, -⟩ := ok_pair_inj h
  exact ⟨k, fields, hb, depth_le_of_read hread⟩

theorem skipsBlanks_readFields (budget room : Nat) :
    SkipsBlanks (variants.readFields takeFields budget room) := by
  intro blanks cs hblanks
  rw [readFields, readFields, skipsBlanks_read budget room blanks cs hblanks]

/-- The text of a tagged value is read as the value that its fields stand for, unless it nests too
deep. -/
theorem readsAs_readFields (w : Style) {name : String} {k : κ} {es : List (String × Json)} {a : α}
    (hname : variants.ofName name = .ok k) (htag : variants.tag ∉ Entries.keys es)
    (htake : takeFields k (.object es) = .ok a) (hlegible : (taggedWith variants name es).Legible)
    {budget level : Nat} (hbudget : (w.text level (taggedWith variants name es)).length < budget)
    (room : Nat) :
    ReadsAs (variants.readFields takeFields budget room)
      (w.text level (taggedWith variants name es))
      (Decoder.within room (fun _ => .ok a) (taggedWith variants name es)) := by
  intro rest hrest
  have hfields : (object es).Legible :=
    eachNumber_object_iff.2 (List.forall_mem_cons.1 (eachNumber_object_iff.1 hlegible)).2
  rw [readFields, readsAs_read w hname htag hfields hbudget room rest hrest, Decoder.within,
    Decoder.within, split_taggedWith hname htag]
  by_cases hdepth : (taggedWith variants name es).depth ≤ room
  · simp only [hdepth, if_true, leaving, ok_bind, htake]
    rfl
  · simp only [hdepth, if_false]
    rfl

end Variants

namespace TextFields

/-- Fields of a text that read the entries of an object, as they are written, just as the fields of
a value take them. -/
def Mirrors (gap : List Char) (text : Json → List Char) (es : List (String × Json)) :
    {αs : List Type} → TextFields αs → ValueFields αs → Prop
  | _, .nil, .nil => True
  | _, .cons field others, .cons field' others' =>
    (field.name = field'.name ∧ field.absent = field'.absent ∧ ∀ v, (field.name, v) ∈ es →
      ReadsAs field.read (gap ++ text v) (Prod.fst <$> field'.read v)) ∧
    Mirrors gap text es others others'

variable {αs : List Type} {gap : List Char} {text : Json → List Char} {es : List (String × Json)}

private theorem vacant_mirrors {fields : TextFields αs} {fields' : ValueFields αs}
    (h : Mirrors gap text es fields fields') : fields.vacant = fields'.vacant := by
  induction fields with
  | nil =>
    cases fields'
    rfl
  | cons field others ih =>
    cases fields' with
    | cons field' others' => rw [Fields.vacant, Fields.vacant, ih h.2]

private theorem finish_mirrors {fields : TextFields αs} {fields' : ValueFields αs}
    (h : Mirrors gap text es fields fields') (slots : Slots αs) :
    fields.finish slots = fields'.finish slots := by
  induction fields with
  | nil =>
    cases fields'
    rfl
  | cons field others ih =>
    cases fields' with
    | cons field' others' =>
      obtain ⟨slot, slots⟩ := slots
      obtain ⟨⟨hname, habsent, -⟩, hothers⟩ := h
      rw [Fields.finish_cons, Fields.finish_cons, ih hothers, hname, habsent]

private theorem fill_mirrors {fields : TextFields αs} {fields' : ValueFields αs}
    (h : Mirrors gap text es fields fields') {key : String} {v : Json} (hmem : (key, v) ∈ es)
    (slots : Slots αs) {rest : List Char} (hrest : Stops rest) :
    fields.fill passColon key slots (':' :: gap ++ text v ++ rest) =
      (fun filled => filled.map fun r => (r.1, rest)) <$> fields'.fill .ok key slots v := by
  induction fields with
  | nil =>
    cases fields'
    rfl
  | cons field others ih =>
    cases fields' with
    | cons field' others' =>
      obtain ⟨slot, slots⟩ := slots
      obtain ⟨⟨hname, -, hread⟩, hothers⟩ := h
      rw [Fields.fill_cons, Fields.fill_cons, ← hname]
      by_cases hkey : field.name = key
      · subst hkey
        rw [if_pos rfl, if_pos rfl]
        cases slot with
        | some a => rfl
        | none =>
          have hvalue := hread v hmem rest hrest
          simp only [List.cons_append, passColon_colon, ok_bind, hvalue]
          cases field'.read v <;> rfl
      · rw [if_neg hkey, if_neg hkey, ih hothers]
        cases others'.fill .ok key slots v with
        | error cause => rfl
        | ok filled => cases filled <;> rfl

private theorem fill_ne_none {σ τ : Type} {fields : Fields σ τ αs} (enter : σ → Reading σ)
    {key : String} (hkey : key ∈ fields.names) (slots : Slots αs) (source : σ) :
    fields.fill enter key slots source ≠ .ok none := by
  induction fields with
  | nil => exact absurd hkey List.not_mem_nil
  | cons field others ih =>
    obtain ⟨slot, slots⟩ := slots
    intro h
    rw [Fields.fill_cons] at h
    split at h
    · cases slot with
      | some a => contradiction
      | none =>
        obtain ⟨s, -, h⟩ := bind_eq_ok.1 h
        obtain ⟨r, -, h⟩ := bind_eq_ok.1 h
        exact Option.some_ne_none _ (Except.ok.inj h)
    · next hne =>
      obtain ⟨filled, hfill, h⟩ := bind_eq_ok.1 h
      have hother : key ∈ others.names := (List.mem_cons.1 hkey).resolve_left (Ne.symm hne)
      cases filled with
      | none => exact ih hother slots hfill
      | some r => exact Option.some_ne_none _ (Except.ok.inj h)

private def takeMember (fields : ValueFields αs) (slots : Slots αs) (e : String × Json) :
    Reading (Slots αs) := do
  match ← fields.fill .ok e.1 slots e.2 with
  | some (slots, _) => return slots
  | none => return slots

private theorem foldlM_takeMember (fields : ValueFields αs) (slots : Slots αs)
    (es : List (String × Json)) :
    es.foldlM (takeMember fields) slots = fields.fillAll slots es := by
  induction es generalizing slots with
  | nil => rfl
  | cons e es ih =>
    rw [List.foldlM_cons, takeMember, ValueFields.fillAll]
    cases fields.fill .ok e.1 slots e.2 with
    | error cause => rfl
    | ok filled =>
      cases filled with
      | none => exact ih slots
      | some r => exact ih r.1

private theorem readsAs_takeEntry {fields : TextFields αs} {fields' : ValueFields αs}
    (h : Mirrors gap text es fields fields') {e : String × Json} (hmem : e ∈ es)
    (hkey : e.1 ∈ fields.names) (slots : Slots αs) :
    ReadsAs (fields.takeEntry slots e.1) (':' :: gap ++ text e.2) (takeMember fields' slots e) := by
  intro rest hrest
  have hfill := fill_mirrors h hmem slots hrest
  have hsome := fill_ne_none passColon hkey slots (':' :: gap ++ text e.2 ++ rest)
  rw [takeEntry, takeMember]
  rw [hfill] at hsome ⊢
  cases hfilled : fields'.fill .ok e.1 slots e.2 with
  | error cause => rfl
  | ok filled =>
    cases filled with
    | none =>
      rw [hfilled] at hsome
      exact absurd rfl hsome
    | some r => rfl

theorem readsAs_read (w : Style) (name : String) {level : Nat} {fields : TextFields αs}
    {fields' : ValueFields αs} (h : Mirrors w.gap (w.text (level + 1)) es fields fields')
    (hnames : ∀ e ∈ es, e.1 ∈ fields.names) {budget : Nat} (hbudget : es.length < budget) :
    ReadsAs (read name fields budget) (w.text level (.object es))
      (ValueFields.ofJson name fields' (.object es)) := by
  intro rest hrest
  have hloop := foldEntries_enclosed (w.blank_indent (level + 1)) (w.blank_indent level)
    (fun e he slots => readsAs_takeEntry h he (hnames e he) slots) hbudget fields.vacant rest hrest
  rw [foldlM_takeMember, vacant_mirrors h] at hloop
  rw [w.text_object, List.cons_append, read, skipBlanks_cons rfl, ValueFields.ofJson]
  simp only [vacant_mirrors h, hloop]
  cases fields'.fillAll fields'.vacant es with
  | error cause => rfl
  | ok slots =>
    simp only [leaving, ok_bind, finish_mirrors h]
    cases fields'.finish slots <;> rfl

end TextFields

end PromptChain.Json
