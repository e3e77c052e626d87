import PromptChain.Json.Skip
import PromptChain.Proofs.Json.Written

/-!
# Values that are passed over

A value that can be read can be passed over, and both leave the same text behind: strings and
numerals one by one, lists and objects by what is on the stack. So passing over a written value
leads to what follows it.
-/

set_option autoImplicit false

namespace PromptChain.Json

/-- Where passing over a string stands while reading it stands here. A leading half is behind, as is
any character; its second half is passed over as an escape of its own. -/
def Spelling.passing : Spelling → Passing
  | .plain => .plain
  | .escape => .escape
  | .digits _ left _ => .digits left
  | .half _ => .plain
  | .halfEscape _ => .escape

theorem passSpelling_of_readSpelling {state : Spelling} {done cs s rest : List Char}
    (h : readSpelling state done cs = .ok (s, rest)) :
    passSpelling state.passing cs = .ok rest := by
  induction cs generalizing state done with
  | nil => cases state <;> contradiction
  | cons c cs ih =>
    cases state with
    | plain =>
      rw [readSpelling] at h
      rw [Spelling.passing, passSpelling]
      split at h
      · next hquote =>
        obtain ⟨-, rfl⟩ := ok_pair_inj h
        rw [if_pos hquote]
      · next hquote =>
        rw [if_neg hquote]
        split at h
        · next hbackslash =>
          rw [if_pos hbackslash]
          exact ih h
        · next hbackslash =>
          rw [if_neg hbackslash]
          split at h
          · contradiction
          · next hcontrol =>
            rw [if_neg hcontrol]
            exact ih h
    | escape =>
      rw [readSpelling] at h
      rw [Spelling.passing, passSpelling]
      split at h
      · next hunit =>
        rw [if_pos hunit]
        split at h
        · contradiction
        · next hlacks =>
          rw [if_neg hlacks]
          exact ih h
      · next hunit =>
        rw [if_neg hunit]
        cases hshort : shortEscape? c with
        | none =>
          rw [hshort] at h
          contradiction
        | some d =>
          rw [hshort] at h
          exact ih h
    | digits leading left value =>
      rw [readSpelling] at h
      rw [Spelling.passing, passSpelling]
      cases hdigit : hexDigit? c with
      | none =>
        rw [hdigit] at h
        contradiction
      | some d =>
        rw [hdigit] at h
        dsimp only at h
        rw [if_neg (by simp)]
        split at h
        · next hmore =>
          rw [if_pos hmore]
          exact ih h
        · next hmore =>
          rw [if_neg hmore]
          split at h
          · contradiction
          · exact ih h
          · exact ih h
    -- The reader insists on the second half; passing over, it is one more escape.
    | half leading =>
      rw [readSpelling] at h
      split at h
      · next hbackslash =>
        rw [hbackslash, Spelling.passing, passSpelling, if_neg (by decide), if_pos rfl]
        exact ih h
      · contradiction
    | halfEscape leading =>
      rw [readSpelling] at h
      rw [Spelling.passing, passSpelling]
      split at h
      · next hunit =>
        rw [if_pos hunit]
        split at h
        · contradiction
        · next hlacks =>
          rw [if_neg hlacks]
          exact ih h
      · contradiction

theorem passQuotation_of_readQuotation {cs rest : List Char} {s : String}
    (h : readQuotation cs = .ok (s, rest)) : passQuotation cs = .ok rest := by
  rw [readQuotation] at h
  split at h
  · contradiction
  · next spelled left hspelled =>
    obtain ⟨-, rfl⟩ := ok_pair_inj h
    rw [passQuotation, show Passing.plain = Spelling.plain.passing from rfl,
      passSpelling_of_readSpelling hspelled]

theorem length_lt_of_passSpelling {state : Passing} {cs rest : List Char}
    (h : passSpelling state cs = .ok rest) : rest.length < cs.length := by
  induction cs generalizing state with
  | nil => cases state <;> contradiction
  | cons c cs ih =>
    rw [List.length_cons, Nat.lt_succ_iff]
    cases state with
    | plain =>
      rw [passSpelling] at h
      split at h
      · rw [Except.ok.inj h]
      · split at h
        · exact (ih h).le
        · split at h
          · contradiction
          · exact (ih h).le
    | escape =>
      rw [passSpelling] at h
      split at h
      · split at h
        · contradiction
        · exact (ih h).le
      · split at h
        · exact (ih h).le
        · contradiction
    | digits left =>
      rw [passSpelling] at h
      split at h
      · contradiction
      · split at h <;> exact (ih h).le

theorem length_lt_of_passQuotation {cs rest : List Char} (h : passQuotation cs = .ok rest) :
    rest.length < cs.length := by
  rw [passQuotation] at h
  split at h
  · contradiction
  · next left hleft =>
    obtain rfl := Except.ok.inj h
    exact length_lt_of_passSpelling hleft

/-! ## Numerals -/

theorem passDigits_of_ne_nil {cs : List Char} (h : (spanDigits cs).1 ≠ []) :
    passDigits cs = .ok (spanDigits cs).2 := by
  rw [passDigits]
  exact if_neg h

theorem length_lt_of_passDigits {cs rest : List Char} (h : passDigits cs = .ok rest) :
    rest.length < cs.length := by
  rw [passDigits] at h
  dsimp only at h
  split at h
  · contradiction
  · next hdigits =>
    obtain rfl := Except.ok.inj h
    have hlength :=
      congrArg List.length (List.takeWhile_append_dropWhile (p := Char.isDigit) (l := cs))
    have hpos : 0 < (cs.takeWhile Char.isDigit).length := List.length_pos_iff.2 hdigits
    rw [List.length_append] at hlength
    dsimp only [spanDigits]
    omega

theorem passWhole_of_readWhole {cs : List Char} {s : Scaling} (h : readWhole cs = .ok s) :
    passWhole cs = .ok s.rest := by
  cases cs with
  | nil => contradiction
  | cons c cs =>
    rw [readWhole] at h
    split at h
    · next hzero =>
      subst hzero
      split at h
      · next hspan =>
        obtain rfl := Except.ok.inj h
        rw [passWhole, if_pos hspan]
      · contradiction
    · next hzero =>
      split at h
      · next hdigit =>
        obtain rfl := Except.ok.inj h
        have hother : ∀ rest, c :: cs = '0' :: rest → False :=
          fun rest heq => hzero (List.cons.inj heq).1
        have hspan : (spanDigits (c :: cs)).1 ≠ [] := by simp [spanDigits, hdigit]
        rw [passWhole.eq_2 _ hother, passDigits_of_ne_nil hspan]
        rfl
      · contradiction

theorem passFraction_of_readFraction {s t : Scaling} (h : readFraction s = .ok t) :
    passFraction s.rest = .ok t.rest := by
  rw [readFraction] at h
  split at h
  · next cs hcs =>
    dsimp only at h
    split at h
    · contradiction
    · next hdigits =>
      obtain rfl := Except.ok.inj h
      rw [hcs, passFraction, passDigits_of_ne_nil hdigits]
  · next hother =>
    obtain rfl := Except.ok.inj h
    exact passFraction.eq_2 _ hother

theorem unsigned_eq (cs : List Char) : unsigned cs = (exponentSign cs).2 := by
  cases cs with
  | nil => rfl
  | cons c cs =>
    by_cases hplus : c = '+'
    · simp [hplus, unsigned, exponentSign]
    · by_cases hminus : c = '-' <;> simp [hplus, hminus, unsigned, exponentSign]

theorem length_unsigned_le (cs : List Char) : (unsigned cs).length ≤ cs.length := by
  rw [unsigned.eq_def]
  split <;> simp

theorem passExponent_of_readExponent {s t : Scaling} (h : readExponent s = .ok t) :
    passExponent s.rest = .ok t.rest := by
  obtain ⟨word, exponent, cs⟩ := s
  cases cs with
  | nil =>
    obtain rfl := Except.ok.inj h
    rfl
  | cons c cs =>
    rw [passExponent]
    by_cases hmark : (c = 'e' || c = 'E') = true
    · rw [readExponent_mark word exponent cs hmark] at h
      rw [if_pos hmark, unsigned_eq]
      split at h
      · contradiction
      · next hdigits =>
        obtain rfl := Except.ok.inj h
        exact passDigits_of_ne_nil hdigits
    · rw [readExponent] at h
      dsimp only at h
      rw [if_neg hmark] at h
      obtain rfl := Except.ok.inj h
      rw [if_neg hmark]

theorem passExponent_of_not_continuesNumeral {cs : List Char} (h : continuesNumeral cs = false) :
    (passFraction cs >>= passExponent) = .ok cs := by
  cases cs with
  | nil => rfl
  | cons c cs =>
    simp only [continuesNumeral, Bool.or_eq_false_iff, decide_eq_false_iff_not] at h
    obtain ⟨⟨hpoint, hsmall⟩, hbig⟩ := h
    have hother : ∀ rest, c :: cs = '.' :: rest → False :=
      fun rest heq => hpoint (List.cons.inj heq).1
    rw [passFraction.eq_2 _ hother, ok_bind, passExponent, if_neg (by simp [hsmall, hbig])]

theorem passMagnitude_of_readMagnitude {negative : Bool} {cs rest : List Char} {n : Number}
    (h : readMagnitude negative cs = .ok (n, rest)) : passMagnitude cs = .ok rest := by
  obtain ⟨whole, hwhole, h⟩ := bind_eq_ok.1 h
  rw [passMagnitude, passWhole_of_readWhole hwhole, ok_bind]
  split at h
  · next hplain =>
    obtain ⟨-, rfl⟩ := ok_pair_inj h
    rw [Bool.and_eq_true, Bool.not_eq_true'] at hplain
    exact passExponent_of_not_continuesNumeral hplain.2
  · obtain ⟨fraction, hfraction, h⟩ := bind_eq_ok.1 h
    obtain ⟨scaling, hscaling, h⟩ := bind_eq_ok.1 h
    obtain ⟨x, -, h⟩ := bind_eq_ok.1 h
    obtain ⟨-, rfl⟩ := ok_pair_inj h
    rw [passFraction_of_readFraction hfraction, ok_bind, passExponent_of_readExponent hscaling]

theorem passNumeral_of_readNumeral {cs rest : List Char} {n : Number}
    (h : readNumeral cs = .ok (n, rest)) : passNumeral cs = .ok rest := by
  rw [readNumeral.eq_def] at h
  rw [passNumeral.eq_def]
  dsimp only at h ⊢
  split at h
  · contradiction
  · next r hr =>
    obtain rfl := Except.ok.inj h
    split at hr
    · simp only [passMagnitude_of_readMagnitude hr]
    · simp only [passMagnitude_of_readMagnitude hr]

theorem length_lt_of_passMagnitude {cs rest : List Char} (h : passMagnitude cs = .ok rest) :
    rest.length < cs.length := by
  obtain ⟨whole, hwhole, h⟩ := bind_eq_ok.1 h
  obtain ⟨fraction, hfraction, h⟩ := bind_eq_ok.1 h
  have hwhole : whole.length < cs.length := by
    rw [passWhole.eq_def] at hwhole
    split at hwhole
    · split at hwhole
      · obtain rfl := Except.ok.inj hwhole
        exact Nat.lt_succ_self _
      · contradiction
    · exact length_lt_of_passDigits hwhole
  have hfraction : fraction.length ≤ whole.length := by
    rw [passFraction.eq_def] at hfraction
    split at hfraction
    · exact (length_lt_of_passDigits hfraction).le.trans (Nat.le_succ _)
    · rw [Except.ok.inj hfraction]
  have hexponent : rest.length ≤ fraction.length := by
    rw [passExponent.eq_def] at h
    split at h
    · rw [← Except.ok.inj h]
    · split at h
      · have hsign := length_unsigned_le ‹List Char›
        exact (length_lt_of_passDigits h).le.trans (hsign.trans (Nat.le_succ _))
      · rw [← Except.ok.inj h]
  omega

theorem length_lt_of_passNumeral {cs rest : List Char} (h : passNumeral cs = .ok rest) :
    rest.length < cs.length := by
  rw [passNumeral.eq_def] at h
  dsimp only at h
  split at h
  · contradiction
  · next left hleft =>
    obtain rfl := Except.ok.inj h
    split at hleft
    · exact (length_lt_of_passMagnitude hleft).trans (Nat.lt_succ_self _)
    · exact length_lt_of_passMagnitude hleft

theorem length_skipBlanks_le (cs : List Char) : (skipBlanks cs).length ≤ cs.length :=
  (List.dropWhile_suffix isBlank).length_le

theorem skipBlanks_skipBlanks (cs : List Char) : skipBlanks (skipBlanks cs) = skipBlanks cs := by
  induction cs with
  | nil => rfl
  | cons c cs ih =>
    cases hc : isBlank c with
    | true =>
      have hskip : skipBlanks (c :: cs) = skipBlanks cs := by simp [skipBlanks, hc]
      rw [hskip, ih]
    | false => rw [skipBlanks_cons hc, skipBlanks_cons hc]

theorem passValue_skipBlanks (budget : Nat) (stack : List Bracket) (cs : List Char) :
    passValue budget stack (skipBlanks cs) = passValue budget stack cs := by
  cases budget with
  | zero => rfl
  | succ budget => rw [passValue, passValue, skipBlanks_skipBlanks]

theorem length_le_of_expect {ls cs rest : List Char} (h : expect ls cs = .ok rest) :
    rest.length ≤ cs.length := by
  induction ls generalizing cs with
  | nil => rw [← Except.ok.inj h]
  | cons l ls ih =>
    cases cs with
    | nil => contradiction
    | cons c cs =>
      rw [expect] at h
      split at h
      · exact (ih h).trans (Nat.le_succ _)
      · contradiction

theorem length_lt_of_passColon {cs rest : List Char} (h : passColon cs = .ok rest) :
    rest.length < cs.length := by
  rw [passColon] at h
  split at h
  · next hskip =>
    obtain rfl := Except.ok.inj h
    have hle := length_skipBlanks_le cs
    rw [hskip] at hle
    exact hle
  · contradiction
  · contradiction

/-- A value is passed over up to `rest`, within two steps for every character of it. -/
def PassesTo (cs rest : List Char) : Prop :=
  ∃ n, n + 2 * rest.length ≤ 2 * cs.length ∧
    ∀ budget stack, passValue (budget + n) stack cs = passOpen budget stack rest

/-- The inside of an open bracket is passed over up to `rest`, behind a value in it. -/
def ClosesAt (bracket : Bracket) (cs rest : List Char) : Prop :=
  ∃ n, n + 2 * rest.length ≤ 2 * cs.length ∧
    ∀ budget stack, passOpen (budget + n) (bracket :: stack) cs = passOpen budget stack rest

/-- A list or an object is passed over up to `rest`, behind its opening bracket. -/
def EndsAt (bracket : Bracket) (cs rest : List Char) : Prop :=
  ∃ n, n + 2 * rest.length ≤ 2 * cs.length + 1 ∧
    ∀ budget stack, passFirst (budget + n) stack bracket cs = passOpen budget stack rest

section brackets

variable {bracket : Bracket} {c : Char} {cs inside next left rest : List Char}

theorem closesAt_end (hskip : skipBlanks cs = c :: rest) (hcloses : bracket.closes c = true)
    (hcomma : c ≠ ',') : ClosesAt bracket cs rest := by
  have hle := length_skipBlanks_le cs
  rw [hskip, List.length_cons] at hle
  refine ⟨1, by omega, fun budget stack => ?_⟩
  rw [passOpen, hskip]
  dsimp only
  rw [if_neg hcomma, if_pos hcloses]

theorem closesAt_comma (hskip : skipBlanks cs = ',' :: inside)
    (hinside : passToValue bracket inside = .ok next) (hlength : next.length ≤ inside.length)
    (hvalue : PassesTo next left) (hleft : ClosesAt bracket left rest) :
    ClosesAt bracket cs rest := by
  obtain ⟨n, hn, hpass⟩ := hvalue
  obtain ⟨m, hm, hclose⟩ := hleft
  have hle := length_skipBlanks_le cs
  rw [hskip, List.length_cons] at hle
  refine ⟨m + n + 1, by omega, fun budget stack => ?_⟩
  rw [← Nat.add_assoc, ← Nat.add_assoc, passOpen, hskip]
  dsimp only
  rw [if_pos rfl, hinside, ok_bind, hpass, hclose]

theorem endsAt_end (hskip : skipBlanks cs = c :: rest) (hcloses : bracket.closes c = true) :
    EndsAt bracket cs rest := by
  have hle := length_skipBlanks_le cs
  rw [hskip, List.length_cons] at hle
  refine ⟨1, by omega, fun budget stack => ?_⟩
  rw [passFirst, hskip]
  dsimp only
  rw [if_pos hcloses]

theorem endsAt_value (hskip : skipBlanks cs = c :: inside) (hcloses : bracket.closes c = false)
    (hinside : passToValue bracket (c :: inside) = .ok next)
    (hlength : next.length ≤ inside.length + 1)
    (hvalue : PassesTo next left) (hleft : ClosesAt bracket left rest) :
    EndsAt bracket cs rest := by
  obtain ⟨n, hn, hpass⟩ := hvalue
  obtain ⟨m, hm, hclose⟩ := hleft
  have hle := length_skipBlanks_le cs
  rw [hskip, List.length_cons] at hle
  refine ⟨m + n + 1, by omega, fun budget stack => ?_⟩
  rw [← Nat.add_assoc, ← Nat.add_assoc, passFirst, hskip]
  dsimp only
  rw [if_neg (by rw [hcloses]; exact Bool.false_ne_true), hinside, ok_bind, hpass, hclose]

end brackets

theorem PassesTo.of_skipBlanks {cs rest : List Char} (h : PassesTo (skipBlanks cs) rest) :
    PassesTo cs rest := by
  obtain ⟨n, hn, hpass⟩ := h
  have hle := length_skipBlanks_le cs
  refine ⟨n, by omega, fun budget stack => ?_⟩
  rw [← passValue_skipBlanks, hpass]

/-! ## Lists -/

theorem nextElement?_eq_none {first : Bool} {cs : List Char}
    (h : nextElement? first cs = .ok none) :
    ∃ rest, skipBlanks cs = ']' :: rest := by
  rw [nextElement?] at h
  split at h
  · contradiction
  · next c rest hskip =>
    split at h
    · next hc => exact ⟨rest, hc ▸ hskip⟩
    · split at h
      · simp at h
      · split at h
        · split at h <;> simp [malformed] at h
        · contradiction

theorem nextElement?_first {cs next : List Char} (h : nextElement? true cs = .ok (some next)) :
    ∃ c inside, skipBlanks cs = c :: inside ∧ c ≠ ']' ∧ next = c :: inside := by
  rw [nextElement?] at h
  split at h
  · contradiction
  · next c inside hskip =>
    split at h
    · simp at h
    · next hc =>
      rw [if_pos rfl] at h
      exact ⟨c, inside, hskip, hc, (Option.some.inj (Except.ok.inj h)).symm⟩

theorem nextElement?_behind {cs next : List Char} (h : nextElement? false cs = .ok (some next)) :
    ∃ inside, skipBlanks cs = ',' :: inside ∧ next = skipBlanks inside := by
  rw [nextElement?] at h
  split at h
  · contradiction
  · next c inside hskip =>
    split at h
    · simp at h
    · rw [if_neg Bool.false_ne_true] at h
      split at h
      · next hcomma =>
        split at h
        · contradiction
        · contradiction
        · exact ⟨inside, hcomma ▸ hskip, (Option.some.inj (Except.ok.inj h)).symm⟩
      · contradiction

section loops

variable {α : Type} {read : Reader α}
    (hread : ∀ cs a rest, read cs = .ok (a, rest) → PassesTo cs rest)
  {cs rest : List Char}

include hread

theorem closesAt_of_readElements {budget : Nat} {done as : List α}
    (h : readElements read budget false done cs = .ok (as, rest)) : ClosesAt .list cs rest := by
  induction budget generalizing done cs with
  | zero => contradiction
  | succ budget ih =>
    obtain ⟨next, hnext, h⟩ := bind_eq_ok.1 h
    cases next with
    | none =>
      obtain ⟨left, hclose, h⟩ := bind_eq_ok.1 h
      obtain ⟨-, rfl⟩ := ok_pair_inj h
      obtain ⟨behind, hskip⟩ := nextElement?_eq_none hnext
      obtain rfl := Except.ok.inj (hclose.symm.trans (closeList_end hskip))
      exact closesAt_end hskip rfl (by decide)
    | some element =>
      obtain ⟨⟨a, left⟩, ha, hloop⟩ := bind_eq_ok.1 h
      obtain ⟨inside, hskip, rfl⟩ := nextElement?_behind hnext
      exact closesAt_comma hskip rfl (Nat.le_refl _) (hread _ a left ha).of_skipBlanks (ih hloop)

theorem endsAt_of_readElements {budget : Nat} {as : List α}
    (h : readElements read budget true [] cs = .ok (as, rest)) : EndsAt .list cs rest := by
  cases budget with
  | zero => contradiction
  | succ budget =>
    obtain ⟨next, hnext, h⟩ := bind_eq_ok.1 h
    cases next with
    | none =>
      obtain ⟨left, hclose, h⟩ := bind_eq_ok.1 h
      obtain ⟨-, rfl⟩ := ok_pair_inj h
      obtain ⟨behind, hskip⟩ := nextElement?_eq_none hnext
      obtain rfl := Except.ok.inj (hclose.symm.trans (closeList_end hskip))
      exact endsAt_end hskip rfl
    | some element =>
      obtain ⟨⟨a, left⟩, ha, hloop⟩ := bind_eq_ok.1 h
      obtain ⟨c, inside, hskip, hc, rfl⟩ := nextElement?_first hnext
      exact endsAt_value hskip (by simpa [Bracket.closes] using hc) rfl (Nat.le_refl _)
        (hread _ a left ha) (closesAt_of_readElements hread hloop)

end loops

/-! ## Objects -/

theorem nextKey?_eq_none {first : Bool} {cs : List Char} (h : nextKey? first cs = .ok none) :
    ∃ rest, skipBlanks cs = '\x7d' :: rest := by
  have hsome : ∀ x : Reading (String × List Char), some <$> x ≠ .ok none := fun x hx => by
    obtain ⟨key, -, hkey⟩ := map_eq_ok.1 hx
    contradiction
  rw [nextKey?] at h
  split at h
  · contradiction
  · next c rest hskip =>
    split at h
    · next hc => exact ⟨rest, hc ▸ hskip⟩
    · split at h
      · split at h
        · exact absurd h (hsome _)
        · contradiction
      · split at h
        · split at h
          · contradiction
          · exact absurd h (hsome _)
          · contradiction
          · contradiction
        · contradiction

theorem nextKey?_first_eq_some {cs next : List Char} {key : String}
    (h : nextKey? true cs = .ok (some (key, next))) :
    ∃ inside, skipBlanks cs = '"' :: inside ∧ readQuotation inside = .ok (key, next) := by
  rw [nextKey?] at h
  split at h
  · contradiction
  · next c inside hskip =>
    split at h
    · simp at h
    · rw [if_pos rfl] at h
      split at h
      · next hc =>
        obtain ⟨entry, hentry, heq⟩ := map_eq_ok.1 h
        obtain rfl := Option.some.inj heq
        exact ⟨inside, hc ▸ hskip, hentry⟩
      · contradiction

theorem nextKey?_behind_eq_some {cs next : List Char} {key : String}
    (h : nextKey? false cs = .ok (some (key, next))) :
    ∃ inside quoted, skipBlanks cs = ',' :: inside ∧
      skipBlanks inside = '"' :: quoted ∧ readQuotation quoted = .ok (key, next) := by
  rw [nextKey?] at h
  split at h
  · contradiction
  · next c inside hskip =>
    split at h
    · simp at h
    · rw [if_neg Bool.false_ne_true] at h
      split at h
      · next hcomma =>
        split at h
        · contradiction
        · next quoted hquote =>
          obtain ⟨entry, hentry, heq⟩ := map_eq_ok.1 h
          obtain rfl := Option.some.inj heq
          exact ⟨inside, quoted, hcomma ▸ hskip, hquote, hentry⟩
        · contradiction
        · contradiction
      · contradiction

theorem passKey_of_keepEntry {α : Type} {read : Reader α} {cs quoted next rest : List Char}
    {key : String} {done kept : List (String × α)} (hskip : skipBlanks cs = '"' :: quoted)
    (hkey : readQuotation quoted = .ok (key, next))
    (h : keepEntry read done key next = .ok (kept, rest)) :
    ∃ inside a, passKey cs = .ok inside ∧ inside.length ≤ cs.length ∧
    read inside = .ok (a, rest) := by
  obtain ⟨inside, hcolon, h⟩ := bind_eq_ok.1 h
  obtain ⟨⟨a, left⟩, ha, h⟩ := bind_eq_ok.1 h
  obtain ⟨-, rfl⟩ := ok_pair_inj h
  have hquoted := passQuotation_of_readQuotation hkey
  have hle := length_skipBlanks_le cs
  have hshorter := length_lt_of_passQuotation hquoted
  have hshortest := length_lt_of_passColon hcolon
  rw [hskip, List.length_cons] at hle
  refine ⟨inside, a, ?_, by omega, ha⟩
  rw [passKey, hskip]
  exact bind_eq_ok.2 ⟨next, hquoted, hcolon⟩

section loops

variable {α : Type} {read : Reader α}
    (hread : ∀ cs a rest, read cs = .ok (a, rest) → PassesTo cs rest)
  {cs rest : List Char}

include hread

theorem closesAt_of_foldEntries {budget : Nat} {done es : List (String × α)}
    (h : foldEntries (keepEntry read) budget false done cs = .ok (es, rest)) :
    ClosesAt .object cs rest := by
  induction budget generalizing done cs with
  | zero => contradiction
  | succ budget ih =>
    obtain ⟨next, hnext, h⟩ := bind_eq_ok.1 h
    cases next with
    | none =>
      obtain ⟨left, hclose, h⟩ := bind_eq_ok.1 h
      obtain ⟨-, rfl⟩ := ok_pair_inj h
      obtain ⟨behind, hskip⟩ := nextKey?_eq_none hnext
      obtain rfl := Except.ok.inj (hclose.symm.trans (closeObject_end hskip))
      exact closesAt_end hskip rfl (by decide)
    | some entry =>
      obtain ⟨key, next⟩ := entry
      obtain ⟨⟨kept, left⟩, hkept, hloop⟩ := bind_eq_ok.1 h
      obtain ⟨entries, quoted, hskip, hquote, hkey⟩ := nextKey?_behind_eq_some hnext
      obtain ⟨inside, a, hpass, hlength, ha⟩ := passKey_of_keepEntry hquote hkey hkept
      exact closesAt_comma hskip hpass hlength (hread inside a left ha) (ih hloop)

theorem endsAt_of_readEntries {budget : Nat} {es : List (String × α)}
    (h : readEntries read budget cs = .ok (es, rest)) : EndsAt .object cs rest := by
  obtain ⟨⟨done, left⟩, hfold, hdone⟩ := bind_eq_ok.1 h
  obtain ⟨-, rfl⟩ := ok_pair_inj hdone
  cases budget with
  | zero => contradiction
  | succ budget =>
    obtain ⟨next, hnext, hentry⟩ := bind_eq_ok.1 hfold
    cases next with
    | none =>
      obtain ⟨left, hclose, hend⟩ := bind_eq_ok.1 hentry
      obtain ⟨-, rfl⟩ := ok_pair_inj hend
      obtain ⟨behind, hskip⟩ := nextKey?_eq_none hnext
      obtain rfl := Except.ok.inj (hclose.symm.trans (closeObject_end hskip))
      exact endsAt_end hskip rfl
    | some entry =>
      obtain ⟨key, next⟩ := entry
      obtain ⟨⟨kept, left⟩, hkept, hloop⟩ := bind_eq_ok.1 hentry
      obtain ⟨quoted, hskip, hkey⟩ := nextKey?_first_eq_some hnext
      obtain ⟨inside, a, hpass, hlength, ha⟩ :=
        passKey_of_keepEntry (skipBlanks_cons rfl quoted) hkey hkept
      exact endsAt_value hskip rfl hpass hlength (hread inside a left ha)
        (closesAt_of_foldEntries hread hloop)

end loops

theorem passValue_cons {c : Char} {cs inside : List Char} (hskip : skipBlanks cs = c :: inside)
    (budget : Nat) (stack : List Bracket) : passValue (budget + 1) stack cs =
      if c = 'n' then expect ['u', 'l', 'l'] inside >>= passOpen budget stack
      else if c = 't' then expect ['r', 'u', 'e'] inside >>= passOpen budget stack
      else if c = 'f' then expect ['a', 'l', 's', 'e'] inside >>= passOpen budget stack
      else if c = '"' then passQuotation inside >>= passOpen budget stack
      else if c = '-' || c.isDigit then passNumeral (c :: inside) >>= passOpen budget stack
      else if c = '[' then passFirst budget stack .list inside
      else if c = '\x7b' then passFirst budget stack .object inside
      else malformed .valueExpected := by
  rw [passValue, hskip]

theorem passesTo_of_step {step : Reading (List Char)} {cs rest : List Char}
    (hstep : step = .ok rest) (hlength : rest.length < cs.length)
    (h : ∀ budget stack, passValue (budget + 1) stack cs = step >>= passOpen budget stack) :
    PassesTo cs rest := by
  refine ⟨1, by omega, fun budget stack => ?_⟩
  rw [h, hstep, ok_bind]

theorem passesTo_of_endsAt {bracket : Bracket} {cs inside rest : List Char}
    (hlength : inside.length < cs.length) (hends : EndsAt bracket inside rest)
    (h : ∀ budget stack, passValue (budget + 1) stack cs = passFirst budget stack bracket inside) :
    PassesTo cs rest := by
  obtain ⟨n, hn, hpass⟩ := hends
  refine ⟨n + 1, by omega, fun budget stack => ?_⟩
  rw [← Nat.add_assoc, h, hpass]

theorem passesTo_of_readScalar {containers : Char → Reader Json} {cs rest : List Char} {v : Json}
    (hlist : ∀ inside v rest, containers '[' inside = .ok (v, rest) → EndsAt .list inside rest)
    (hobject : ∀ inside v rest, containers '\x7b' inside = .ok (v, rest) →
      EndsAt .object inside rest)
    (h : readScalar containers cs = .ok (v, rest)) : PassesTo cs rest := by
  rw [readScalar] at h
  split at h
  · contradiction
  · next c inside hskip =>
    have hle := length_skipBlanks_le cs
    rw [hskip, List.length_cons] at hle
    have hpass := passValue_cons hskip
    split at h
    · next hnull =>
      obtain ⟨left, hleft, h⟩ := bind_eq_ok.1 h
      obtain ⟨-, rfl⟩ := ok_pair_inj h
      have hshort := length_le_of_expect hleft
      refine passesTo_of_step hleft (by omega) fun budget stack => ?_
      rw [hpass, if_pos hnull]
    next hnull =>
    split at h
    · next htrue =>
      obtain ⟨left, hleft, h⟩ := bind_eq_ok.1 h
      obtain ⟨-, rfl⟩ := ok_pair_inj h
      have hshort := length_le_of_expect hleft
      refine passesTo_of_step hleft (by omega) fun budget stack => ?_
      rw [hpass, if_neg hnull, if_pos htrue]
    next htrue =>
    split at h
    · next hfalse =>
      obtain ⟨left, hleft, h⟩ := bind_eq_ok.1 h
      obtain ⟨-, rfl⟩ := ok_pair_inj h
      have hshort := length_le_of_expect hleft
      refine passesTo_of_step hleft (by omega) fun budget stack => ?_
      rw [hpass, if_neg hnull, if_neg htrue, if_pos hfalse]
    next hfalse =>
    split at h
    · next hquote =>
      obtain ⟨⟨s, left⟩, hs, h⟩ := bind_eq_ok.1 h
      obtain ⟨-, rfl⟩ := ok_pair_inj h
      have hleft := passQuotation_of_readQuotation hs
      have hshort := length_lt_of_passQuotation hleft
      refine passesTo_of_step hleft (by omega) fun budget stack => ?_
      rw [hpass, if_neg hnull, if_neg htrue, if_neg hfalse, if_pos hquote]
    next hquote =>
    split at h
    · next hdigit =>
      obtain ⟨⟨n, left⟩, hn, h⟩ := bind_eq_ok.1 h
      obtain ⟨-, rfl⟩ := ok_pair_inj h
      have hleft := passNumeral_of_readNumeral hn
      have hshort := length_lt_of_passNumeral hleft
      rw [List.length_cons] at hshort
      refine passesTo_of_step hleft (by omega) fun budget stack => ?_
      rw [hpass, if_neg hnull, if_neg htrue, if_neg hfalse, if_neg hquote, if_pos hdigit]
    next hdigit =>
    split at h
    · by_cases hbracket : c = '['
      · subst hbracket
        refine passesTo_of_endsAt (by omega) (hlist inside v rest h) fun budget stack => ?_
        rw [hpass]
        rfl
      · next hopens =>
        obtain rfl : c = '\x7b' := by simpa [hbracket] using hopens
        refine passesTo_of_endsAt (by omega) (hobject inside v rest h) fun budget stack => ?_
        rw [hpass]
        rfl
    · contradiction

theorem passesTo_of_value {budget room : Nat} {cs rest : List Char} {v : Json}
    (h : value budget room cs = .ok (v, rest)) : PassesTo cs rest := by
  induction room generalizing cs rest v with
  | zero =>
    refine passesTo_of_readScalar (fun inside v rest hlist => ?_)
      (fun inside v rest hobject => ?_) h
    · simp [malformed] at hlist
    · simp [malformed] at hobject
  | succ room ih =>
    refine passesTo_of_readScalar (fun inside v rest hlist => ?_)
      (fun inside v rest hobject => ?_) h
    · obtain ⟨⟨vs, left⟩, hvs, hlist⟩ := bind_eq_ok.1 hlist
      obtain ⟨-, rfl⟩ := ok_pair_inj hlist
      exact endsAt_of_readElements (fun _ _ _ => ih) hvs
    · obtain ⟨⟨es, left⟩, hes, hobject⟩ := bind_eq_ok.1 hobject
      obtain ⟨-, rfl⟩ := ok_pair_inj hobject
      exact endsAt_of_readEntries (fun _ _ _ => ih) hes

/-- Passing over a value that can be read leads to the same place. -/
theorem skipValue_of_value {budget room : Nat} {cs rest : List Char} {v : Json}
    (h : value budget room cs = .ok (v, rest)) : skipValue cs = .ok rest := by
  obtain ⟨n, hn, hpass⟩ := passesTo_of_value h
  -- The budget covers the steps of the value and the last one, which finds nothing open.
  obtain ⟨spare, hspare⟩ : ∃ spare, 2 * cs.length + 2 = spare + 1 + n :=
    ⟨2 * cs.length + 1 - n, by omega⟩
  rw [skipValue, hspare, hpass]
  rfl

end PromptChain.Json
