import PromptChain.Json.Decode
import PromptChain.Proofs.Json.Style

/-!
# Written values read back

Wherever the text of a value stands, in any style, reading it gives the value, unless it nests
deeper than there is room for: then the reader says so. The loops over lists and objects do with a
written list or object what they would do with its parts.
-/

set_option autoImplicit false

namespace PromptChain.Json

def leaving {α : Type} (rest : List Char) : Reading α → Reading (α × List Char)
  | .ok a => .ok (a, rest)
  | .error cause => .error cause

/-- A reader gets this from a text wherever it stands. -/
def ReadsAs {α : Type} (read : Reader α) (text : List Char) (result : Reading α) : Prop :=
  ∀ rest, Stops rest → read (text ++ rest) = leaving rest result

def Decoder.within {α : Type} (room : Nat) (decode : Decoder α) : Decoder α := fun v =>
  if v.depth ≤ room then decode v else malformed .tooDeep

/-- A text that a value can start with. -/
def Opens (text : List Char) : Prop := ∃ c cs, text = c :: cs ∧ isBlank c = false ∧ c ≠ ']'

private theorem skipBlanks_part {blanks part : List Char} (hblanks : Blank blanks)
    (hpart : Opens part)
    (rest : List Char) : skipBlanks (blanks ++ (part ++ rest)) = part ++ rest := by
  obtain ⟨c, cs, rfl, hc, -⟩ := hpart
  rw [skipBlanks_append hblanks, List.cons_append, skipBlanks_cons hc]

private theorem skipBlanks_end {outer : List Char} (houter : Blank outer) {close : Char}
    (hclose : isBlank close = false) (rest : List Char) :
    skipBlanks (outer ++ [close] ++ rest) = close :: rest := by
  rw [List.append_assoc, skipBlanks_append houter, List.singleton_append, skipBlanks_cons hclose]

private theorem nextElement?_part {cs part rest : List Char} (hpart : Opens part)
    (h : skipBlanks cs = part ++ rest) : nextElement? true cs = .ok (some (part ++ rest)) := by
  obtain ⟨c, tail, rfl, -, hc⟩ := hpart
  rw [List.cons_append] at h
  simp [nextElement?, h, hc]

private theorem nextElement?_comma {cs part rest : List Char} (hpart : Opens part)
    (h : skipBlanks cs = part ++ rest) :
    nextElement? false (',' :: cs) = .ok (some (part ++ rest)) := by
  obtain ⟨c, tail, rfl, -, hc⟩ := hpart
  rw [List.cons_append] at h
  have hcomma : skipBlanks (',' :: cs) = ',' :: cs := skipBlanks_cons rfl cs
  simp [nextElement?, hcomma, h, hc]

private theorem nextElement?_end {cs rest : List Char} (h : skipBlanks cs = ']' :: rest)
    (first : Bool) : nextElement? first cs = .ok none := by
  simp [nextElement?, h]

theorem closeList_end {cs rest : List Char} (h : skipBlanks cs = ']' :: rest) :
    closeList cs = .ok rest := by
  simp [closeList, h]

private theorem stops_continued {inner outer : List Char} {close : Char} (houter : Blank outer)
    (hclose : ∀ rest, Stops (close :: rest)) (parts : List (List Char)) (rest : List Char) :
    Stops (continued inner outer close parts ++ rest) := by
  cases parts with
  | nil =>
    rw [continued, List.append_assoc]
    exact stops_append houter (hclose rest)
  | cons part parts =>
    rw [continued, List.cons_append, List.cons_append, List.cons_append, stops_cons_iff]
    decide

section lists

variable {α : Type} {read : Reader α} {decode : Decoder α} {text : Json → List Char}
  {inner outer : List Char}

private theorem readElements_end {cs rest : List Char} (h : skipBlanks cs = ']' :: rest)
    (budget : Nat) (first : Bool) (done : List α) :
    readElements read (budget + 1) first done cs = .ok (done.reverse, rest) := by
  rw [readElements, nextElement?_end h, ok_bind]
  simp only [closeList_end h, ok_bind]
  rfl

private theorem readElements_part {first : Bool} {cs part more : List Char} {result : Reading α}
    (hnext : nextElement? first cs = .ok (some (part ++ more))) (hread : ReadsAs read part result)
    (hmore : Stops more) (budget : Nat) (done : List α) :
    readElements read (budget + 1) first done cs =
      leaving more result >>= fun r => readElements read budget false (r.1 :: done) r.2 := by
  rw [readElements, hnext, ok_bind]
  simp only [hread more hmore]

private theorem stops_elements (houter : Blank outer) (vs : List Json) (rest : List Char) :
    Stops (continued inner outer ']' (vs.map text) ++ rest) :=
  stops_continued houter (fun rest => (stops_cons_iff _ rest).2 (by decide)) _ rest

private theorem readElements_continued (hinner : Blank inner) (houter : Blank outer)
    {vs : List Json}
    (h : ∀ v ∈ vs, Opens (text v) ∧ ReadsAs read (text v) (decode v)) {budget : Nat}
    (hbudget : vs.length < budget) (done : List α) (rest : List Char) :
    readElements read budget false done (continued inner outer ']' (vs.map text) ++ rest) =
      leaving rest ((done.reverse ++ ·) <$> Decoder.items decode vs) := by
  induction vs generalizing budget done with
  | nil =>
    obtain ⟨budget, rfl⟩ : ∃ b, budget = b + 1 := ⟨budget - 1, by omega⟩
    have hskip := skipBlanks_end houter (show isBlank ']' = false from rfl) rest
    rw [List.map_nil, continued, readElements_end hskip]
    simp [Decoder.items, leaving]
  | cons v vs ih =>
    obtain ⟨⟨hopens, hread⟩, hvs⟩ := List.forall_mem_cons.1 h
    obtain ⟨budget, rfl⟩ : ∃ b, budget = b + 1 := ⟨budget - 1, by omega⟩
    have hskip := skipBlanks_part hinner hopens (continued inner outer ']' (vs.map text) ++ rest)
    have hnext := nextElement?_comma hopens hskip
    rw [List.map_cons, continued, List.cons_append, List.cons_append, List.cons_append,
      List.append_assoc, List.append_assoc,
      readElements_part hnext hread (stops_elements houter vs rest), Decoder.items]
    cases decode v with
    | error cause => rfl
    | ok a =>
      rw [leaving, ok_bind, ih hvs (Nat.succ_lt_succ_iff.1 hbudget)]
      cases Decoder.items decode vs <;> simp [leaving]

theorem readElements_enclosed (hinner : Blank inner) (houter : Blank outer) {vs : List Json}
    (h : ∀ v ∈ vs, Opens (text v) ∧ ReadsAs read (text v) (decode v)) {budget : Nat}
    (hbudget : vs.length < budget) :
    ReadsAs (readElements read budget true []) (enclosed inner outer ']' (vs.map text))
      (Decoder.items decode vs) := by
  intro rest _
  obtain ⟨budget, rfl⟩ : ∃ b, budget = b + 1 := ⟨budget - 1, by omega⟩
  cases vs with
  | nil => exact readElements_end (skipBlanks_cons rfl rest) budget true []
  | cons v vs =>
    obtain ⟨⟨hopens, hread⟩, hvs⟩ := List.forall_mem_cons.1 h
    have hskip := skipBlanks_part hinner hopens (continued inner outer ']' (vs.map text) ++ rest)
    have hnext := nextElement?_part hopens hskip
    rw [List.map_cons, enclosed, List.append_assoc, List.append_assoc,
      readElements_part hnext hread (stops_elements houter vs rest), Decoder.items]
    cases decode v with
    | error cause => rfl
    | ok a =>
      rw [leaving, ok_bind,
        readElements_continued hinner houter hvs (Nat.succ_lt_succ_iff.1 hbudget)]
      cases Decoder.items decode vs <;> simp [leaving]

end lists

/-! ## Objects -/

private theorem nextKey?_first {blanks : List Char} (hblanks : Blank blanks) (key : String)
    (rest : List Char) :
    nextKey? true (blanks ++ (quotation key ++ rest)) = .ok (some (key, rest)) := by
  have hskip : skipBlanks (blanks ++ (quotation key ++ rest)) =
      '"' :: (key.toList.flatMap escaped ++ '"' :: rest) := by
    rw [quotation_append, skipBlanks_append hblanks, skipBlanks_cons rfl]
  simp [nextKey?, hskip, readQuotation_flatMap_escaped]

private theorem nextKey?_comma {blanks : List Char} (hblanks : Blank blanks) (key : String)
    (rest : List Char) :
    nextKey? false (',' :: (blanks ++ (quotation key ++ rest))) = .ok (some (key, rest)) := by
  have hskip : skipBlanks (blanks ++ (quotation key ++ rest)) =
      '"' :: (key.toList.flatMap escaped ++ '"' :: rest) := by
    rw [quotation_append, skipBlanks_append hblanks, skipBlanks_cons rfl]
  have hcomma : skipBlanks (',' :: (blanks ++ (quotation key ++ rest))) =
      ',' :: (blanks ++ (quotation key ++ rest)) := skipBlanks_cons rfl _
  simp [nextKey?, hcomma, hskip, readQuotation_flatMap_escaped]

private theorem nextKey?_end {cs rest : List Char} (h : skipBlanks cs = '}' :: rest)
    (first : Bool) : nextKey? first cs = .ok none := by
  simp [nextKey?, h]

theorem closeObject_end {cs rest : List Char} (h : skipBlanks cs = '}' :: rest) :
    closeObject cs = .ok rest := by
  simp [closeObject, h]

section objects

variable {σ : Type} {step : σ → String → Reader σ} {take : σ → String × Json → Reading σ}
  {text : Json → List Char} {inner outer gap : List Char}

private theorem foldEntries_end {cs rest : List Char} (h : skipBlanks cs = '}' :: rest)
    (budget : Nat) (first : Bool) (s : σ) :
    foldEntries step (budget + 1) first s cs = .ok (s, rest) := by
  rw [foldEntries, nextKey?_end h, ok_bind]
  simp only [closeObject_end h, ok_bind]
  rfl

private theorem foldEntries_entry {first : Bool} {cs part more : List Char} {key : String} {s : σ}
    {result : Reading σ} (hnext : nextKey? first cs = .ok (some (key, part ++ more)))
    (hstep : ReadsAs (step s key) part result) (hmore : Stops more) (budget : Nat) :
    foldEntries step (budget + 1) first s cs =
      leaving more result >>= fun r => foldEntries step budget false r.1 r.2 := by
  rw [foldEntries, hnext, ok_bind]
  simp only [hstep more hmore]

private theorem stops_entries (houter : Blank outer) (es : List (String × Json))
    (rest : List Char) :
    Stops (continued inner outer '}' (es.map (entryText gap text)) ++ rest) :=
  stops_continued houter (fun rest => (stops_cons_iff _ rest).2 (by decide)) _ rest

private theorem foldEntries_continued (hinner : Blank inner) (houter : Blank outer)
    {es : List (String × Json)}
    (h : ∀ e ∈ es, ∀ s, ReadsAs (step s e.1) (':' :: gap ++ text e.2) (take s e)) {budget : Nat}
    (hbudget : es.length < budget) (s : σ) (rest : List Char) :
    foldEntries step budget false s
        (continued inner outer '}' (es.map (entryText gap text)) ++ rest) =
      leaving rest (es.foldlM take s) := by
  induction es generalizing budget s with
  | nil =>
    obtain ⟨budget, rfl⟩ : ∃ b, budget = b + 1 := ⟨budget - 1, by omega⟩
    exact foldEntries_end (skipBlanks_end houter rfl rest) budget false s
  | cons e es ih =>
    obtain ⟨hstep, hes⟩ := List.forall_mem_cons.1 h
    obtain ⟨budget, rfl⟩ : ∃ b, budget = b + 1 := ⟨budget - 1, by omega⟩
    have hnext := nextKey?_comma hinner e.1 ((':' :: gap ++ text e.2) ++
      (continued inner outer '}' (es.map (entryText gap text)) ++ rest))
    have hentry := foldEntries_entry hnext (hstep s) (stops_entries houter es rest) budget
    rw [List.map_cons, continued, entryText, List.foldlM_cons]
    simp only [List.append_assoc, List.cons_append] at hentry ⊢
    rw [hentry]
    cases take s e with
    | error cause => rfl
    | ok t => exact ih hes (Nat.succ_lt_succ_iff.1 hbudget) t

theorem foldEntries_enclosed (hinner : Blank inner) (houter : Blank outer)
    {es : List (String × Json)}
    (h : ∀ e ∈ es, ∀ s, ReadsAs (step s e.1) (':' :: gap ++ text e.2) (take s e)) {budget : Nat}
    (hbudget : es.length < budget) (s : σ) :
    ReadsAs (foldEntries step budget true s)
      (enclosed inner outer '}' (es.map (entryText gap text))) (es.foldlM take s) := by
  intro rest _
  obtain ⟨budget, rfl⟩ : ∃ b, budget = b + 1 := ⟨budget - 1, by omega⟩
  cases es with
  | nil => exact foldEntries_end (skipBlanks_cons rfl rest) budget true s
  | cons e es =>
    obtain ⟨hstep, hes⟩ := List.forall_mem_cons.1 h
    have hnext := nextKey?_first hinner e.1 ((':' :: gap ++ text e.2) ++
      (continued inner outer '}' (es.map (entryText gap text)) ++ rest))
    have hentry := foldEntries_entry hnext (hstep s) (stops_entries houter es rest) budget
    rw [List.map_cons, enclosed, entryText, List.foldlM_cons]
    simp only [List.append_assoc, List.cons_append] at hentry ⊢
    rw [hentry]
    cases take s e with
    | error cause => rfl
    | ok t => exact foldEntries_continued hinner houter hes (Nat.succ_lt_succ_iff.1 hbudget) t rest

end objects

/-- A reader that passes over blanks first. -/
def SkipsBlanks {α : Type} (read : Reader α) : Prop :=
  ∀ blanks cs, Blank blanks → read (blanks ++ cs) = read cs

theorem ReadsAs.behind {α : Type} {read : Reader α} {text blanks : List Char} {result : Reading α}
    (h : ReadsAs read text result) (hread : SkipsBlanks read) (hblanks : Blank blanks) :
    ReadsAs read (blanks ++ text) result := by
  intro rest hrest
  rw [List.append_assoc, hread blanks _ hblanks]
  exact h rest hrest

theorem skipsBlanks_readScalar (containers : Char → Reader Json) :
    SkipsBlanks (readScalar containers) := by
  intro blanks cs hblanks
  rw [readScalar, readScalar, skipBlanks_append hblanks]

private theorem value_eq_readScalar (budget room : Nat) :
    ∃ containers, value budget room = readScalar containers := by
  cases room with
  | zero => exact ⟨_, rfl⟩
  | succ room => exact ⟨_, rfl⟩

theorem skipsBlanks_value (budget room : Nat) : SkipsBlanks (value budget room) := by
  obtain ⟨containers, h⟩ := value_eq_readScalar budget room
  rw [h]
  exact skipsBlanks_readScalar containers

theorem passColon_colon (cs : List Char) : passColon (':' :: cs) = .ok cs := by
  rw [passColon, skipBlanks_cons rfl]
  rfl

theorem readsAs_keepEntry {α : Type} {read : Reader α} {text : List Char} {result : Reading α}
    (h : ReadsAs read text result) (done : List (String × α)) (key : String) :
    ReadsAs (keepEntry read done key) (':' :: text) ((fun a => (key, a) :: done) <$> result) := by
  intro rest hrest
  rw [keepEntry, List.cons_append, passColon_colon, ok_bind, h rest hrest]
  cases result <;> rfl

private theorem foldlM_keep {α : Type} (decode : Decoder α) (es : List (String × Json))
    (done : List (String × α)) :
    es.foldlM (fun done e => (fun a => (e.1, a) :: done) <$> decode e.2) done =
      (fun as => as.reverse ++ done) <$> Decoder.entries decode es := by
  induction es generalizing done with
  | nil => rfl
  | cons e es ih =>
    rw [List.foldlM_cons, Decoder.entries]
    cases decode e.2 with
    | error cause => rfl
    | ok a =>
      simp only [Except.map_ok, ok_bind, ih]
      cases Decoder.entries decode es <;> simp

theorem items_within {α : Type} {decode : Decoder α} {vs : List Json} {as : List α}
    (h : Decoder.items decode vs = .ok as) (room : Nat) :
    Decoder.items (.within room decode) vs =
      if depthItems vs ≤ room then .ok as else malformed .tooDeep := by
  induction vs generalizing as with
  | nil => simpa [Decoder.items, depthItems] using h
  | cons v vs ih =>
    obtain ⟨a, ha, h⟩ := bind_eq_ok.1 h
    obtain ⟨as', has, h⟩ := bind_eq_ok.1 h
    rw [Decoder.items, ih has, depthItems, Decoder.within, ha, ← Except.ok.inj h]
    by_cases hv : v.depth ≤ room <;> by_cases hvs : depthItems vs ≤ room <;>
      simp [hv, hvs, malformed]

theorem entries_within {α : Type} {decode : Decoder α} {es : List (String × Json)}
    {as : List (String × α)} (h : Decoder.entries decode es = .ok as) (room : Nat) :
    Decoder.entries (.within room decode) es =
      if depthEntries es ≤ room then .ok as else malformed .tooDeep := by
  induction es generalizing as with
  | nil => simpa [Decoder.entries, depthEntries] using h
  | cons e es ih =>
    obtain ⟨a, ha, h⟩ := bind_eq_ok.1 h
    obtain ⟨as', has, h⟩ := bind_eq_ok.1 h
    rw [Decoder.entries, ih has, depthEntries, Decoder.within, ha, ← Except.ok.inj h]
    by_cases he : e.2.depth ≤ room <;> by_cases hes : depthEntries es ≤ room <;>
      simp [he, hes, malformed]

theorem items_ok (vs : List Json) : Decoder.items .ok vs = .ok vs := by
  induction vs with
  | nil => rfl
  | cons v vs ih =>
    rw [Decoder.items, ok_bind, ih]
    rfl

theorem entries_ok (es : List (String × Json)) : Decoder.entries .ok es = .ok es := by
  induction es with
  | nil => rfl
  | cons e es ih =>
    rw [Decoder.entries, ok_bind, ih]
    rfl

private theorem head_numeral {n : Number} (h : ReadsBack n) :
    ∃ c cs, numeral n = c :: cs ∧ isBlank c = false ∧ (c = '-' ∨ c.isDigit) := by
  obtain ⟨c, cs, hcs, hc⟩ := head_of_readNumeral h
  refine ⟨c, cs, hcs, ?_, hc⟩
  by_contra hblank
  simp only [isBlank, Bool.not_eq_false, Bool.or_eq_true, decide_eq_true_eq] at hblank
  rcases hblank with ((rfl | rfl) | rfl) | rfl <;> revert hc <;> decide

theorem opens_text (w : Style) (level : Nat) {v : Json} (h : v.Legible) :
    Opens (w.text level v) := by
  cases v with
  | null => exact ⟨'n', _, w.text_null level, rfl, by decide⟩
  | bool b =>
    cases b with
    | true => exact ⟨'t', _, w.text_true level, rfl, by decide⟩
    | false => exact ⟨'f', _, w.text_false level, rfl, by decide⟩
  | number n =>
    obtain ⟨c, cs, hcs, hblank, hc⟩ := head_numeral (h n (List.mem_singleton.2 rfl))
    refine ⟨c, cs, (w.text_number level n).trans hcs, hblank, ?_⟩
    rintro rfl
    revert hc
    decide
  | text s => exact ⟨'"', _, w.text_text level s, rfl, by decide⟩
  | array vs => exact ⟨'[', _, w.text_array level vs, rfl, by decide⟩
  | object es => exact ⟨'{', _, w.text_object level es, rfl, by decide⟩

private theorem readScalar_numeral {n : Number} (h : ReadsBack n)
    (containers : Char → Reader Json) :
    ReadsAs (readScalar containers) (numeral n) (.ok (.number n)) := by
  intro rest hrest
  obtain ⟨c, cs, hcs, hblank, hc⟩ := head_numeral h
  have hread := readNumeral_append hrest h
  rw [hcs, List.cons_append, List.nil_append] at hread
  have hother : c ≠ 'n' ∧ c ≠ 't' ∧ c ≠ 'f' ∧ c ≠ '"' := by
    refine ⟨?_, ?_, ?_, ?_⟩ <;> rintro rfl <;> revert hc <;> decide
  have hstart : (c = '-' || c.isDigit) = true := by simpa using hc
  rw [hcs, List.cons_append, readScalar, skipBlanks_cons hblank]
  simp only [hother, hstart, if_false, if_true, hread, ok_bind]
  rfl

private theorem value_bracket {c : Char} (hc : c = '[' ∨ c = '\x7b') (budget : Nat)
    (cs : List Char) :
    value budget 0 (c :: cs) = malformed .tooDeep := by
  rcases hc with rfl | rfl <;> rw [value, readScalar, skipBlanks_cons rfl] <;> rfl

private theorem value_list (budget room : Nat) (cs : List Char) :
    value budget (room + 1) ('[' :: cs) =
      readElements (value budget room) budget true [] cs >>= fun r => .ok (.array r.1, r.2) := by
  rw [value, readScalar, skipBlanks_cons rfl]
  rfl

private theorem value_entries (budget room : Nat) (cs : List Char) :
    value budget (room + 1) ('\x7b' :: cs) =
      readEntries (value budget room) budget cs >>= fun r => .ok (.object r.1, r.2) := by
  rw [value, readScalar, skipBlanks_cons rfl]
  rfl

private theorem readsAs_scalar (w : Style) {v : Json} (hlegible : v.Legible) (hdepth : v.depth = 0)
    (budget room level : Nat) :
    ReadsAs (value budget room) (w.text level v) (Decoder.within room .ok v) := by
  obtain ⟨containers, hscalar⟩ := value_eq_readScalar budget room
  rw [hscalar, Decoder.within, if_pos (by omega)]
  cases v with
  | null =>
    intro rest _
    rw [w.text_null]
    rfl
  | bool b =>
    intro rest _
    cases b with
    | true =>
      rw [w.text_true]
      rfl
    | false =>
      rw [w.text_false]
      rfl
  | number n =>
    rw [w.text_number]
    exact readScalar_numeral (hlegible n (List.mem_singleton.2 rfl)) containers
  | text s =>
    intro rest _
    rw [w.text_text, quotation_append, readScalar, skipBlanks_cons rfl]
    simp [readQuotation_flatMap_escaped, leaving]
  | array vs => simp [depth] at hdepth
  | object es => simp [depth] at hdepth

section containers

variable (w : Style) {budget level : Nat}

private theorem readsAs_array {vs : List Json}
    (hbudget : (w.text level (.array vs)).length < budget)
    (h : ∀ v ∈ vs, Opens (w.text (level + 1) v) ∧ ((w.text (level + 1) v).length < budget →
      ∀ room, ReadsAs (value budget room) (w.text (level + 1) v) (Decoder.within room .ok v)))
    (room : Nat) : ReadsAs (value budget room) (w.text level (.array vs))
      (Decoder.within room .ok (.array vs)) := by
  obtain ⟨hcount, hlength⟩ := w.length_lt_text_array level vs
  intro rest hrest
  rw [w.text_array]
  cases room with
  | zero =>
    rw [List.cons_append, value_bracket (.inl rfl), Decoder.within, if_neg (by simp [depth])]
    rfl
  | succ room =>
    have hparts : ∀ v ∈ vs, Opens (w.text (level + 1) v) ∧
        ReadsAs (value budget room) (w.text (level + 1) v) (Decoder.within room .ok v) := by
      intro v hv
      exact ⟨(h v hv).1, (h v hv).2 ((hlength v hv).trans hbudget) room⟩
    rw [List.cons_append, value_list, readElements_enclosed (w.blank_indent _) (w.blank_indent _)
      hparts (hcount.trans hbudget) rest hrest, items_within (items_ok vs), Decoder.within, depth]
    by_cases hdepth : depthItems vs ≤ room <;> simp [hdepth, leaving, malformed]

private theorem readsAs_object {es : List (String × Json)}
    (hbudget : (w.text level (.object es)).length < budget)
    (h : ∀ e ∈ es, (w.text (level + 1) e.2).length < budget →
      ∀ room, ReadsAs (value budget room) (w.text (level + 1) e.2) (Decoder.within room .ok e.2))
    (room : Nat) : ReadsAs (value budget room) (w.text level (.object es))
      (Decoder.within room .ok (.object es)) := by
  obtain ⟨hcount, hlength⟩ := w.length_lt_text_object level es
  intro rest hrest
  rw [w.text_object]
  cases room with
  | zero =>
    rw [List.cons_append, value_bracket (.inr rfl), Decoder.within, if_neg (by simp [depth])]
    rfl
  | succ room =>
    have hparts : ∀ e ∈ es, ∀ done : List (String × Json),
        ReadsAs (keepEntry (value budget room) done e.1) (':' :: w.gap ++ w.text (level + 1) e.2)
          ((fun v => (e.1, v) :: done) <$> Decoder.within room .ok e.2) := by
      intro e he done
      have hvalue := h e he ((hlength e he).trans hbudget) room
      exact readsAs_keepEntry (hvalue.behind (skipsBlanks_value budget room) w.blank_gap) done e.1
    have hloop := foldEntries_enclosed (w.blank_indent (level + 1)) (w.blank_indent level) hparts
      (hcount.trans hbudget) [] rest hrest
    rw [foldlM_keep, entries_within (entries_ok es)] at hloop
    rw [List.cons_append, value_entries, readEntries, hloop, Decoder.within, depth]
    by_cases hdepth : depthEntries es ≤ room <;> simp [hdepth, leaving, malformed]

end containers

/-- The text of a value is read as the value, unless it nests deeper than there is room for. -/
theorem readsAs_value (w : Style) {budget : Nat} {v : Json} (hlegible : v.Legible)
    (room level : Nat) (hbudget : (w.text level v).length < budget) :
    ReadsAs (value budget room) (w.text level v) (Decoder.within room .ok v) := by
  induction v generalizing room level with
  | null => exact readsAs_scalar w hlegible rfl budget room level
  | bool b => exact readsAs_scalar w hlegible rfl budget room level
  | number n => exact readsAs_scalar w hlegible rfl budget room level
  | text s => exact readsAs_scalar w hlegible rfl budget room level
  | array vs ih =>
    refine readsAs_array w hbudget (fun v hv => ?_) room
    have hv' := eachNumber_array_iff.1 hlegible v hv
    exact ⟨opens_text w _ hv', fun hlength room => ih v hv hv' room (level + 1) hlength⟩
  | object es ih =>
    refine readsAs_object w hbudget (fun e he hlength room => ?_) room
    exact ih e he (eachNumber_object_iff.1 hlegible e he) room (level + 1) hlength

theorem readWith_ofList {α : Type} {read : Nat → Reader α} {text : List Char} {result : Reading α}
    (h : ReadsAs (read (text.length + 1)) text result) :
    readWith read (String.ofList text) = result := by
  have hread := h [] stops_nil
  rw [List.append_nil] at hread
  rw [readWith, String.toList_ofList]
  simp only [hread]
  cases result <;> rfl

end PromptChain.Json
