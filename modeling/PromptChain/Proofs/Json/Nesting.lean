import PromptChain.Proofs.Json.Style

/-!
# How deep a text nests

The brackets of a text that stand open at once, those inside strings apart, tell how deep the text
nests. The text of a value, in any style, nests exactly as deep as the value.
-/

set_option autoImplicit false

namespace PromptChain.Json

/-- Where a character of a text stands: outside of strings, inside of one, or there behind a
backslash. -/
inductive Place where
  | outside
  | inside
  | escape
deriving DecidableEq

/-- The most lists and objects that stand open at once in the rest of a text, `opened` at its
start. -/
def nestingFrom : Place → Nat → List Char → Nat
  | _, opened, [] => opened
  | .outside, opened, c :: rest =>
    if c = '"' then nestingFrom .inside opened rest
    else if c = '[' || c = '\x7b' then nestingFrom .outside (opened + 1) rest
    else if c = ']' || c = '\x7d' then max opened (nestingFrom .outside (opened - 1) rest)
    else nestingFrom .outside opened rest
  | .inside, opened, c :: rest =>
    if c = '"' then nestingFrom .outside opened rest
    else if c = '\\' then nestingFrom .escape opened rest
    else nestingFrom .inside opened rest
  | .escape, opened, _ :: rest => nestingFrom .inside opened rest

def nesting (text : String) : Nat := nestingFrom .outside 0 text.toList

theorem le_nestingFrom (place : Place) (opened : Nat) (cs : List Char) :
    opened ≤ nestingFrom place opened cs := by
  induction cs generalizing place opened with
  | nil => simp [nestingFrom]
  | cons c cs ih =>
    cases place with
    | outside =>
      rw [nestingFrom]
      split_ifs
      · exact ih .inside opened
      · exact (Nat.le_succ opened).trans (ih .outside (opened + 1))
      · exact Nat.le_max_left _ _
      · exact ih .outside opened
    | inside =>
      rw [nestingFrom]
      split_ifs <;> exact ih _ opened
    | escape => exact ih .inside opened

private def marks : List Char := ['"', '[', ']', '\x7b', '\x7d']

private def Plain (cs : List Char) : Prop := ∀ c ∈ cs, c ∉ marks

private instance (cs : List Char) : Decidable (Plain cs) := List.decidableBAll _ cs

private theorem plain_of_forall {p : Char → Bool} (hmarks : marks.any p = false) {cs : List Char}
    (h : ∀ c ∈ cs, p c) : Plain cs := fun c hc hmark =>
  List.any_eq_false.1 hmarks c hmark (h c hc)

private theorem plain_cons {c : Char} {cs : List Char} (hc : c ∉ marks) (hcs : Plain cs) :
    Plain (c :: cs) :=
  List.forall_mem_cons.2 ⟨hc, hcs⟩

private theorem plain_append {cs ds : List Char} (hcs : Plain cs) (hds : Plain ds) :
    Plain (cs ++ ds) :=
  List.forall_mem_append.2 ⟨hcs, hds⟩

private theorem plain_of_blank {cs : List Char} (h : Blank cs) : Plain cs :=
  plain_of_forall (by decide) h

private theorem plain_naturalText (n : Nat) : Plain (Decimal.naturalText n) :=
  plain_of_forall (p := Char.isDigit) (by decide) fun _ hc =>
    Nat.isDigit_of_mem_toDigits (by omega) (by omega) hc

private theorem plain_integerText (i : Int) : Plain (Decimal.integerText i) := by
  cases i with
  | ofNat n => exact plain_naturalText n
  | negSucc n => exact plain_cons (by decide) (plain_naturalText (n + 1))

private theorem plain_zeros (n : Nat) : Plain (List.replicate n '0') := fun c hc => by
  rw [List.eq_of_mem_replicate hc]
  decide

private theorem plain_pointed {digits : List Char} (h : Plain digits) (place : Int) :
    Plain (Decimal.pointed digits place) := by
  rw [Decimal.pointed]
  split_ifs
  · exact plain_cons (by decide) (plain_cons (by decide) (plain_append (plain_zeros _) h))
  · exact plain_append (plain_append h (plain_zeros _)) (by decide)
  · refine plain_append (fun c hc => h c (List.mem_of_mem_take hc)) (plain_cons (by decide) ?_)
    exact fun c hc => h c (List.mem_of_mem_drop hc)

private theorem plain_scientific {digits : List Char} (h : Plain digits) (exponent : Int) :
    Plain (Decimal.scientific .document digits exponent) := by
  have hexponent := plain_integerText exponent
  unfold Decimal.scientific
  refine plain_append (plain_append ?_ (plain_cons (by decide) ?_)) hexponent
  · rcases digits with _ | ⟨d, _ | ⟨e, rest⟩⟩
    · exact h
    · exact h
    · obtain ⟨hd, hrest⟩ := List.forall_mem_cons.1 h
      exact plain_cons hd (plain_cons (by decide) hrest)
  · split <;> decide

private theorem plain_numberText (x : Float) : Plain (Decimal.numberText x) := by
  have hbody (d : Decimal) : Plain (Decimal.text .document d) := by
    rw [Decimal.text]
    split
    · exact plain_pointed (plain_naturalText _) _
    · exact plain_scientific (plain_naturalText _) _
  rw [Decimal.numberText, Decimal.floatText]
  split_ifs
  · decide
  · exact hbody _
  · decide
  · exact plain_cons (by decide) (hbody _)

private theorem plain_numeral (n : Number) : Plain (numeral n) := by
  cases n with
  | integer i => exact plain_integerText i
  | double x =>
    rw [numeral]
    split
    · exact plain_numberText x
    · decide

private theorem nestingFrom_plain {cs : List Char} (h : Plain cs) (opened : Nat)
    (rest : List Char) :
    nestingFrom .outside opened (cs ++ rest) = nestingFrom .outside opened rest := by
  induction cs with
  | nil => rfl
  | cons c cs ih =>
    obtain ⟨hc, hcs⟩ := List.forall_mem_cons.1 h
    simp only [marks, List.mem_cons, List.not_mem_nil, or_false, not_or] at hc
    simp [nestingFrom, hc, ih hcs]

private theorem nestingFrom_escaped (c : Char) (opened : Nat) (rest : List Char) :
    nestingFrom .inside opened (escaped c ++ rest) = nestingFrom .inside opened rest := by
  unfold escaped
  split
  case h_8 hquote hbackslash _ _ _ _ _ =>
    split
    · next h =>
      have hdigit : ∀ d < 16, Nat.digitChar d ≠ '"' ∧ Nat.digitChar d ≠ '\\' := by decide
      simp [nestingFrom, hdigit (c.toNat / 16) (by omega), hdigit (c.toNat % 16) (by omega)]
    · have hne : c ≠ '"' ∧ c ≠ '\\' := ⟨fun he => hquote he, fun he => hbackslash he⟩
      simp [nestingFrom, hne]
  all_goals simp [nestingFrom]

private theorem nestingFrom_quotation (s : String) (opened : Nat) (rest : List Char) :
    nestingFrom .outside opened (quotation s ++ rest) = nestingFrom .outside opened rest := by
  have hinside (cs : List Char) : nestingFrom .inside opened (cs.flatMap escaped ++ '"' :: rest) =
      nestingFrom .outside opened rest := by
    induction cs with
    | nil => simp [nestingFrom]
    | cons c cs ih => rw [List.flatMap_cons, List.append_assoc, nestingFrom_escaped, ih]
  rw [quotation_append, nestingFrom, if_pos rfl, hinside]

/-- Wherever it stands, a text adds up to `depth` lists and objects to those that are open, and
leaves none of them open. -/
def Nests (text : List Char) (depth : Nat) : Prop :=
  ∀ opened rest d, nestingFrom .outside opened (text ++ rest) ≤ d ↔
    opened + depth ≤ d ∧ nestingFrom .outside opened rest ≤ d

private theorem nests_zero {text : List Char}
    (h : ∀ opened rest,
      nestingFrom .outside opened (text ++ rest) = nestingFrom .outside opened rest) :
    Nests text 0 := by
  intro opened rest d
  rw [h, Nat.add_zero]
  exact ⟨fun hd => ⟨(le_nestingFrom .outside opened rest).trans hd, hd⟩, And.right⟩

section parts

variable {α : Type} {text : α → List Char} {depth : α → Nat} {inner outer : List Char}
    {close : Char}

private theorem nestingFrom_close (houter : Blank outer) (hclose : close = ']' ∨ close = '\x7d')
    (opened : Nat) (rest : List Char) :
    nestingFrom .outside (opened + 1) (outer ++ [close] ++ rest) =
      max (opened + 1) (nestingFrom .outside opened rest) := by
  rw [List.append_assoc, nestingFrom_plain (plain_of_blank houter)]
  rcases hclose with rfl | rfl <;> simp [nestingFrom]

private theorem nestingFrom_continued_le_iff (hinner : Blank inner) (houter : Blank outer)
    (hclose : close = ']' ∨ close = '\x7d') {as : List α} (h : ∀ a ∈ as, Nests (text a) (depth a))
    (opened : Nat) (rest : List Char) (d : Nat) :
    nestingFrom .outside (opened + 1) (continued inner outer close (as.map text) ++ rest) ≤ d ↔
      (∀ a ∈ as, opened + 1 + depth a ≤ d) ∧ opened + 1 ≤ d ∧
      nestingFrom .outside opened rest ≤ d := by
  induction as with
  | nil =>
    rw [List.map_nil, continued, nestingFrom_close houter hclose, Nat.max_le]
    simp
  | cons a as ih =>
    obtain ⟨ha, has⟩ := List.forall_mem_cons.1 h
    have hcomma : Plain (',' :: inner) := plain_cons (by decide) (plain_of_blank hinner)
    rw [List.map_cons, continued, List.append_assoc, List.append_assoc, nestingFrom_plain hcomma,
      ha, ih has, List.forall_mem_cons, and_assoc]

private theorem nestingFrom_enclosed_le_iff (hinner : Blank inner) (houter : Blank outer)
    (hclose : close = ']' ∨ close = '\x7d') {as : List α} (h : ∀ a ∈ as, Nests (text a) (depth a))
    (opened : Nat) (rest : List Char) (d : Nat) :
    nestingFrom .outside (opened + 1) (enclosed inner outer close (as.map text) ++ rest) ≤ d ↔
      (∀ a ∈ as, opened + 1 + depth a ≤ d) ∧ opened + 1 ≤ d ∧
      nestingFrom .outside opened rest ≤ d := by
  cases as with
  | nil =>
    have hnone : Blank [] := nofun
    have hend := nestingFrom_close hnone hclose opened rest
    rw [List.map_nil, enclosed, ← List.nil_append [close], hend, Nat.max_le]
    simp
  | cons a as =>
    obtain ⟨ha, has⟩ := List.forall_mem_cons.1 h
    rw [List.map_cons, enclosed, List.append_assoc, List.append_assoc,
      nestingFrom_plain (plain_of_blank hinner), ha,
      nestingFrom_continued_le_iff hinner houter hclose has, List.forall_mem_cons, and_assoc]

/-- Around its parts, a list or an object opens one more than the part that opens the most. -/
private theorem nests_enclosed {opening : Char} (hopening : opening = '[' ∨ opening = '\x7b')
    (hinner : Blank inner) (houter : Blank outer) (hclose : close = ']' ∨ close = '\x7d')
    {as : List α} (h : ∀ a ∈ as, Nests (text a) (depth a)) {most : Nat}
    (hmost : ∀ d, most ≤ d ↔ ∀ a ∈ as, depth a ≤ d) :
    Nests (opening :: enclosed inner outer close (as.map text)) (most + 1) := by
  intro opened rest d
  have hopen (cs : List Char) : nestingFrom .outside opened (opening :: cs) =
      nestingFrom .outside (opened + 1) cs := by
    rcases hopening with rfl | rfl <;> simp [nestingFrom]
  -- Even without a part the brackets themselves count, so the second bound does not follow from the
  -- first.
  have hparts : (∀ a ∈ as, opened + 1 + depth a ≤ d) ∧ opened + 1 ≤ d ↔
      opened + (most + 1) ≤ d := by
    constructor
    · rintro ⟨hparts, hopened⟩
      have hle : most ≤ d - (opened + 1) := (hmost _).2 fun a ha => by
        have hpart := hparts a ha
        omega
      omega
    · intro hle
      have hparts := (hmost (d - (opened + 1))).1 (by omega)
      refine ⟨fun a ha => ?_, by omega⟩
      have hpart := hparts a ha
      omega
  rw [List.cons_append, hopen, nestingFrom_enclosed_le_iff hinner houter hclose h, ← and_assoc,
    hparts]

end parts

private theorem nests_entryText {gap text : List Char} {depth : Nat} (hgap : Blank gap)
    (key : String) (h : Nests text depth) : Nests (quotation key ++ ':' :: gap ++ text) depth := by
  intro opened rest d
  have hcolon : Plain (':' :: gap) := plain_cons (by decide) (plain_of_blank hgap)
  rw [List.append_assoc, List.append_assoc, nestingFrom_quotation, nestingFrom_plain hcolon, h]

theorem nests_text (w : Style) (v : Json) (level : Nat) : Nests (w.text level v) v.depth := by
  induction v generalizing level with
  | null =>
    rw [w.text_null]
    exact nests_zero (nestingFrom_plain (by decide))
  | bool b =>
    have hplain : Plain (w.text level (.bool b)) := by
      cases b
      · rw [w.text_false]
        decide
      · rw [w.text_true]
        decide
    exact nests_zero (nestingFrom_plain hplain)
  | number n =>
    rw [w.text_number]
    exact nests_zero (nestingFrom_plain (plain_numeral n))
  | text s =>
    rw [w.text_text]
    exact nests_zero (nestingFrom_quotation s)
  | array vs ih =>
    rw [w.text_array]
    exact nests_enclosed (.inl rfl) (w.blank_indent _) (w.blank_indent _) (.inl rfl)
      (fun v hv => ih v hv (level + 1)) (depthItems_le_iff vs)
  | object es ih =>
    rw [w.text_object]
    exact nests_enclosed (.inr rfl) (w.blank_indent _) (w.blank_indent _) (.inr rfl)
      (fun e he => nests_entryText w.blank_gap e.1 (ih e he (level + 1))) (depthEntries_le_iff es)

theorem nesting_text (w : Style) (v : Json) :
    nesting (String.ofList (w.text 0 v)) = v.depth := by
  refine eq_of_forall_ge_iff fun d => ?_
  have h := nests_text w v 0 0 [] d
  rw [List.append_nil, Nat.zero_add] at h
  rw [nesting, String.toList_ofList, h]
  simp [nestingFrom]

theorem nesting_toPretty (v : Json) : nesting v.toPretty = v.depth := nesting_text .pretty v

theorem nesting_toText (v : Json) : nesting v.toText = v.depth := nesting_text .compact v

example : nesting "\x7b\"a]\":[[],\"[\\\"[\"],\"b\":[]\x7d" = 3 := by decide

end PromptChain.Json
