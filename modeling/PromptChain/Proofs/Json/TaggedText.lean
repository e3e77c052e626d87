import PromptChain.Proofs.Json.Spelling
import PromptChain.Proofs.Json.TextRecord

/-!
# Tagged values of any text

The reader of a tagged value looks at the tag as soon as it comes to it. On a text that is read as a
value whose tag is a text, it does what taking the value apart does, however the text is laid out.
-/

set_option autoImplicit false

namespace PromptChain.Json

section Loops

variable {α σ : Type} {read : Reader α} {cs rest : List Char}

/-- A loop over a list that has ended well ends in the same way behind other elements, and with a
greater budget. -/
theorem exists_of_readElements {budget : Nat} {first : Bool} {done as : List α}
    (h : readElements read budget first done cs = .ok (as, rest)) :
    ∃ more, as = done.reverse ++ more ∧ ∀ budget' done', budget ≤ budget' →
      readElements read budget' first done' cs = .ok (done'.reverse ++ more, rest) := by
  induction budget generalizing first done cs with
  | zero => contradiction
  | succ budget ih =>
    obtain ⟨next, hnext, h⟩ := bind_eq_ok.1 h
    cases next with
    | none =>
      obtain ⟨left, hclose, h⟩ := bind_eq_ok.1 h
      obtain ⟨rfl, rfl⟩ := ok_pair_inj h
      refine ⟨[], by simp, fun budget' done' hbudget => ?_⟩
      obtain ⟨n, rfl⟩ := Nat.exists_eq_add_of_lt hbudget
      rw [readElements, hnext]
      simp [hclose]
    | some inside =>
      obtain ⟨⟨a, left⟩, ha, h⟩ := bind_eq_ok.1 h
      obtain ⟨more, rfl, hmore⟩ := ih h
      refine ⟨a :: more, by simp, fun budget' done' hbudget => ?_⟩
      obtain ⟨n, rfl⟩ := Nat.exists_eq_add_of_lt hbudget
      have hrest := hmore (budget + n) (a :: done') (by omega)
      rw [readElements, hnext]
      simp only [ok_bind, ha]
      rw [List.reverse_cons, List.append_assoc] at hrest
      exact hrest

theorem cons_of_readElements {budget : Nat} {a : α} {as : List α}
    (h : readElements read budget true [] cs = .ok (a :: as, rest)) :
    ∃ inside behind, nextElement? true cs = .ok (some inside) ∧ read inside = .ok (a, behind) ∧
      readElements read budget false [] behind = .ok (as, rest) := by
  cases budget with
  | zero => contradiction
  | succ budget =>
    obtain ⟨next, hnext, h⟩ := bind_eq_ok.1 h
    cases next with
    | none =>
      obtain ⟨behind, -, h⟩ := bind_eq_ok.1 h
      have hnil := (ok_pair_inj h).1
      contradiction
    | some inside =>
      obtain ⟨⟨b, behind⟩, hb, h⟩ := bind_eq_ok.1 h
      obtain ⟨more, hmore, hread⟩ := exists_of_readElements h
      obtain ⟨rfl, rfl⟩ := List.cons.inj hmore
      exact ⟨inside, behind, hnext, hb, hread (budget + 1) [] (Nat.le_succ budget)⟩

/-- A step gets from the text of an entry what `f` makes of the entry, wherever `f` makes anything
of it. -/
def StepFollows (read : Reader α) (step : σ → String → Reader σ) (f : σ → String × α → Reading σ)
    (e : String × α) : Prop :=
  ∀ s t cs inside rest, passColon cs = .ok inside → read inside = .ok (e.2, rest) → f s e = .ok t →
    step s e.1 cs = .ok (t, rest)

theorem exists_of_foldEntries_keepEntry {budget : Nat} {first : Bool}
    {done kept : List (String × α)}
    (h : foldEntries (keepEntry read) budget first done cs = .ok (kept, rest)) :
    ∃ es : List (String × α), kept = es.reverse ++ done ∧
      ∀ (step : σ → String → Reader σ) (f : σ → String × α → Reading σ),
        (∀ e ∈ es, StepFollows read step f e) →
        ∀ s t, es.foldlM f s = .ok t → foldEntries step budget first s cs = .ok (t, rest) := by
  induction budget generalizing first done cs with
  | zero => contradiction
  | succ budget ih =>
    obtain ⟨next, hnext, h⟩ := bind_eq_ok.1 h
    cases next with
    | none =>
      obtain ⟨left, hclose, h⟩ := bind_eq_ok.1 h
      obtain ⟨rfl, rfl⟩ := ok_pair_inj h
      refine ⟨[], rfl, fun step f _ s t ht => ?_⟩
      obtain rfl : s = t := Except.ok.inj ht
      rw [foldEntries, hnext]
      simp [hclose]
    | some entry =>
      obtain ⟨key, cs'⟩ := entry
      obtain ⟨⟨done', left⟩, hstep, h⟩ := bind_eq_ok.1 h
      obtain ⟨inside, hinside, hstep⟩ := bind_eq_ok.1 hstep
      obtain ⟨⟨v, behind⟩, hv, hstep⟩ := bind_eq_ok.1 hstep
      obtain ⟨rfl, rfl⟩ := ok_pair_inj hstep
      obtain ⟨es, rfl, hes⟩ := ih h
      refine ⟨(key, v) :: es, by simp, fun step f hsteps s t ht => ?_⟩
      obtain ⟨hfirst, hothers⟩ := List.forall_mem_cons.1 hsteps
      rw [List.foldlM_cons] at ht
      obtain ⟨u, hu, ht⟩ := bind_eq_ok.1 ht
      rw [foldEntries, hnext]
      simp only [ok_bind, hfirst s u cs' inside behind hinside hv hu]
      exact hes step f hothers u t ht

end Loops

namespace Variants

variable {κ : Type} {variants : Variants κ}

/-- The tag of a value, where there is one, is a text. -/
def TagIsText (variants : Variants κ) : Json → Prop
  | .object es => ∀ e ∈ es, e.1 = variants.tag → ∃ name, e.2 = .text name
  | .array vs => ∀ v ∈ vs.head?, ∃ name, v = .text name
  | _ => True

theorem tagIsText_of_spellsTagged {name : String} {spare fields : List (String × Json)} {v : Json}
    (h : SpellsTagged variants name spare fields v) : TagIsText variants v := by
  cases h with
  | object _ htag hes =>
    intro e he hname
    rcases List.mem_cons.1 (hes.mem_iff.1 he) with rfl | hmem
    · exact ⟨name, rfl⟩
    · exact absurd (hname ▸ List.mem_map_of_mem hmem) htag
  | array _ =>
    intro w hw
    exact ⟨name, (Option.some.inj hw).symm⟩

private theorem readTag_of_value {budget room : Nat} {cs rest : List Char} {name : String} {k : κ}
    (h : value budget room cs = .ok (.text name, rest)) (hname : variants.ofName name = .ok k) :
    variants.readTag cs = .ok (k, rest) := by
  rcases value_cases h with ⟨s, inside, hs, hskip, hquotation⟩ | ⟨-, -, hno⟩ | hlist | hobject
  · obtain rfl := text.inj hs
    rw [readTag, hskip]
    simp [hquotation, hname]
  · exact absurd rfl (hno name)
  · obtain ⟨left, vs, inside, -, htext, -⟩ := hlist
    contradiction
  · obtain ⟨left, es, inside, -, htext, -⟩ := hobject
    contradiction

private def splitEntry (variants : Variants κ) (s : Option κ × List (String × Json))
    (e : String × Json) : Reading (Option κ × List (String × Json)) :=
  if e.1 = variants.tag then
    match s.1 with
    | some _ => misfit (.duplicateField e.1)
    | none => (fun k => (some k, s.2)) <$> variants.ofTag e.2
  else .ok (s.1, e :: s.2)

private theorem exists_foldlM_splitEntry {kind : Option κ} {done es : List (String × Json)} {k : κ}
    {v : Json} (h : variants.splitEntries kind done es = .ok (k, v)) :
    ∃ left, v = .object left.reverse ∧ es.foldlM variants.splitEntry (kind, done) =
      .ok (some k, left) := by
  induction es generalizing kind done with
  | nil =>
    cases kind with
    | none => contradiction
    | some k' =>
      obtain ⟨rfl, rfl⟩ := ok_pair_inj h
      exact ⟨done, rfl, rfl⟩
  | cons e es ih =>
    rw [splitEntries_cons] at h
    rw [List.foldlM_cons, splitEntry]
    split at h
    · next htag =>
      cases kind with
      | some k' => contradiction
      | none =>
        obtain ⟨k', hk', h⟩ := bind_eq_ok.1 h
        obtain ⟨left, hv, hleft⟩ := ih h
        exact ⟨left, hv, by simp [htag, hk', hleft]⟩
    · next htag =>
      obtain ⟨left, hv, hleft⟩ := ih h
      exact ⟨left, hv, by simp [htag, hleft]⟩

private theorem stepFollows_takeEntry {budget room : Nat} {e : String × Json}
    (htext : e.1 = variants.tag → ∃ name, e.2 = .text name) :
    StepFollows (value budget room) (takeEntry variants (value budget room))
      variants.splitEntry e := by
  rintro ⟨kind, done⟩ t cs inside rest hinside hv ht
  rw [splitEntry] at ht
  rw [takeEntry]
  split at ht
  · next htag =>
    obtain ⟨name, hname⟩ := htext htag
    rw [if_pos htag]
    rw [hname] at hv ht
    cases kind with
    | some _ => contradiction
    | none =>
      obtain ⟨k, hk, rfl⟩ := map_eq_ok.1 ht
      simp [hinside, readTag_of_value hv hk]
  · next htag =>
    obtain rfl := Except.ok.inj ht
    rw [if_neg htag, hinside]
    simp [hv]

section Read

variable {budget room : Nat} {cs inside rest : List Char} {fields : Json} {k : κ}

private theorem read_of_elements {vs : List Json} (hskip : skipBlanks cs = '[' :: inside)
    (h : readElements (value budget room) budget true [] inside = .ok (vs, rest))
    (htext : variants.TagIsText (.array vs))
    (hsplit : variants.split (.array vs) = .ok (k, fields)) :
    variants.read budget (room + 1) cs = .ok ((k, fields), rest) := by
  cases vs with
  | nil => contradiction
  | cons w vs =>
    obtain ⟨name, rfl⟩ := htext w rfl
    obtain ⟨k', hk, hsplit⟩ := bind_eq_ok.1 hsplit
    obtain ⟨rfl, rfl⟩ := ok_pair_inj hsplit
    obtain ⟨first, behind, hnext, hname, hothers⟩ := cons_of_readElements h
    have htag := readTag_of_value hname hk
    rw [read_list hskip, hnext]
    simp only [ok_bind, htag, hothers]
    rfl

private theorem read_of_entries {es : List (String × Json)}
    (hskip : skipBlanks cs = '\x7b' :: inside)
    (h : readEntries (value budget room) budget inside = .ok (es, rest))
    (htext : variants.TagIsText (.object es))
    (hsplit : variants.split (.object es) = .ok (k, fields)) :
    variants.read budget (room + 1) cs = .ok ((k, fields), rest) := by
  obtain ⟨⟨kept, behind⟩, hkept, h⟩ := bind_eq_ok.1 h
  obtain ⟨rfl, rfl⟩ := ok_pair_inj h
  obtain ⟨es, rfl, hloop⟩ := exists_of_foldEntries_keepEntry hkept
  rw [List.append_nil, List.reverse_reverse] at htext hsplit
  obtain ⟨left, rfl, hfold⟩ := exists_foldlM_splitEntry hsplit
  have hread := hloop _ _ (fun e he => stepFollows_takeEntry (htext e he)) _ _ hfold
  rw [read_object hskip, hread]
  rfl

theorem read_of_value {v : Json} (h : value budget room cs = .ok (v, rest))
    (htext : variants.TagIsText v) (hsplit : variants.split v = .ok (k, fields)) :
    variants.read budget room cs = .ok ((k, fields), rest) := by
  rcases value_cases h with ⟨s, inside, rfl, -, -⟩ | ⟨hdepth, -, -⟩ | hlist | hobject
  · contradiction
  · cases v with
    | null | bool | number | text | array | object => contradiction
  · obtain ⟨left, vs, inside, rfl, rfl, hskip, hvs⟩ := hlist
    exact read_of_elements hskip hvs htext hsplit
  · obtain ⟨left, es, inside, rfl, rfl, hskip, hes⟩ := hobject
    exact read_of_entries hskip hes htext hsplit

end Read

end Variants

end PromptChain.Json
