import PromptChain.Json.Numeral
import PromptChain.Json.Writer
import PromptChain.Proofs.Sequencing
import Mathlib.Data.List.TakeWhile
import Mathlib.Tactic.IntervalCases

/-!
# Written numbers read back

Every integer that fits a word, signed or not, is read back from its digits, and no other integer is
ever read. What a numeral is read as does not depend on what follows it, as long as that cannot go
on with it.
-/

set_option autoImplicit false

namespace PromptChain

def Number.InRange : Number → Prop
  | .integer i => -2 ^ 63 ≤ i ∧ i ≤ 2 ^ 64 - 1
  | .double _ => True

namespace Json

/-- A number that reads back from the way it is written. -/
def ReadsBack (n : Number) : Prop := readNumeral (numeral n) = .ok (n, [])

instance (n : Number) : Decidable (ReadsBack n) := inferInstanceAs (Decidable (_ = _))

/-- A text that no numeral before it goes on with. -/
def Stops (rest : List Char) : Prop := (spanDigits rest).1 = [] ∧ continuesNumeral rest = false

theorem stops_nil : Stops [] := ⟨rfl, rfl⟩

theorem stops_cons_iff (c : Char) (rest : List Char) :
    Stops (c :: rest) ↔ c.isDigit = false ∧ c ≠ '.' ∧ c ≠ 'e' ∧ c ≠ 'E' := by
  cases h : c.isDigit <;> simp [Stops, spanDigits, continuesNumeral, h, and_assoc]

private theorem spanDigits_append (cs : List Char) {rest : List Char} (h : Stops rest) :
    spanDigits (cs ++ rest) = ((spanDigits cs).1, (spanDigits cs).2 ++ rest) := by
  induction cs with
  | nil =>
    have htake : rest.takeWhile Char.isDigit = [] := h.1
    have hdrop : rest.dropWhile Char.isDigit = rest := by
      have happend := List.takeWhile_append_dropWhile (p := Char.isDigit) (l := rest)
      rwa [htake, List.nil_append] at happend
    simp [spanDigits, htake, hdrop]
  | cons c cs ih =>
    simp only [spanDigits, Prod.mk.injEq] at ih ⊢
    cases hc : c.isDigit <;> simp [hc, ih]

/-- A numeral that has been read so far, in front of a longer text. -/
private def before (s : Scaling) (rest : List Char) : Scaling := { s with rest := s.rest ++ rest }

variable {rest : List Char}

private theorem readWhole_append {cs : List Char} {s : Scaling} (hrest : Stops rest)
    (h : readWhole cs = .ok s) : readWhole (cs ++ rest) = .ok (before s rest) := by
  cases cs with
  | nil => simp [readWhole] at h
  | cons c cs =>
    by_cases hzero : c = '0'
    · by_cases hspan : (spanDigits cs).1 = []
      · simp only [readWhole, hzero, hspan, if_true] at h
        rw [← Except.ok.inj h]
        simp [readWhole, hzero, spanDigits_append cs hrest, hspan, before]
      · simp [readWhole, hzero, hspan] at h
    · by_cases hdigit : c.isDigit
      · simp only [readWhole, hzero, hdigit, if_false, if_true] at h
        rw [← Except.ok.inj h, List.cons_append]
        simp only [readWhole, hzero, hdigit, if_false, if_true, ← List.cons_append,
          spanDigits_append (c :: cs) hrest, before]
      · simp [readWhole, hzero, hdigit] at h

private theorem readFraction_append {s t : Scaling} (hrest : Stops rest)
    (h : readFraction s = .ok t) : readFraction (before s rest) = .ok (before t rest) := by
  obtain ⟨word, exponent, cs⟩ := s
  by_cases hpoint : ∃ ds, cs = '.' :: ds
  · obtain ⟨ds, rfl⟩ := hpoint
    by_cases hspan : (spanDigits ds).1 = []
    · simp [readFraction, hspan] at h
    · simp only [readFraction, hspan, if_false] at h
      rw [← Except.ok.inj h]
      simp [readFraction, before, spanDigits_append ds hrest, hspan]
  · have hsame : ∀ ds, cs ≠ '.' :: ds := fun ds hds => hpoint ⟨ds, hds⟩
    have hlonger : ∀ ds, cs ++ rest ≠ '.' :: ds := by
      intro ds hds
      cases cs with
      | nil =>
        rw [show rest = '.' :: ds from hds, stops_cons_iff] at hrest
        exact hrest.2.1 rfl
      | cons c cs => exact hsame cs (by rw [(List.cons.inj hds).1])
    rw [readFraction] at h ⊢
    split at h
    · next ds hds => exact absurd hds (hsame ds)
    · rw [← Except.ok.inj h]
      split
      · next ds hds => exact absurd hds (hlonger ds)
      · rfl

/-- Whether an exponent is negative, and its text without the sign. -/
def exponentSign : List Char → Bool × List Char
  | '+' :: cs => (false, cs)
  | '-' :: cs => (true, cs)
  | cs => (false, cs)

private theorem exponentSign_append {cs : List Char} (h : cs ≠ []) (rest : List Char) :
    exponentSign (cs ++ rest) = ((exponentSign cs).1, (exponentSign cs).2 ++ rest) := by
  cases cs with
  | nil => exact absurd rfl h
  | cons c cs =>
    by_cases hplus : c = '+'
    · simp [hplus, exponentSign]
    · by_cases hminus : c = '-' <;> simp [hplus, hminus, exponentSign]

theorem readExponent_mark (word : Nat) (exponent : Int) {c : Char} (cs : List Char)
    (h : c = 'e' || c = 'E') : readExponent ⟨word, exponent, c :: cs⟩ =
      if (spanDigits (exponentSign cs).2).1 = [] then
        .error (digitMissing (spanDigits (exponentSign cs).2).2)
      else .ok ⟨word,
        if (exponentSign cs).1 then exponent - digitsValue (spanDigits (exponentSign cs).2).1
        else exponent + digitsValue (spanDigits (exponentSign cs).2).1,
        (spanDigits (exponentSign cs).2).2⟩ := by
  simp only [readExponent, h, if_true]
  rfl

private theorem readExponent_append {s t : Scaling} (hrest : Stops rest)
    (h : readExponent s = .ok t) : readExponent (before s rest) = .ok (before t rest) := by
  obtain ⟨word, exponent, cs⟩ := s
  cases cs with
  | nil =>
    rw [← Except.ok.inj h]
    cases rest with
    | nil => rfl
    | cons c cs =>
      have hc := (stops_cons_iff c cs).1 hrest
      simp [readExponent, before, hc]
  | cons c cs =>
    by_cases hmark : c = 'e' || c = 'E'
    · rw [readExponent_mark word exponent cs hmark] at h
      rw [before, List.cons_append, readExponent_mark word exponent _ hmark]
      by_cases hspan : (spanDigits (exponentSign cs).2).1 = []
      · simp [hspan] at h
      · have hcs : cs ≠ [] := fun he => hspan (by simp [he, exponentSign, spanDigits])
        rw [if_neg hspan] at h
        rw [← Except.ok.inj h, exponentSign_append hcs, spanDigits_append _ hrest, if_neg hspan]
        rfl
    · simp only [readExponent, hmark] at h
      simp [readExponent, before, hmark, ← Except.ok.inj h]

private theorem continuesNumeral_append (cs : List Char) (hrest : Stops rest) :
    continuesNumeral (cs ++ rest) = continuesNumeral cs := by
  cases cs with
  | nil => exact hrest.2
  | cons c cs => rfl

private theorem readMagnitude_append {negative : Bool} {cs left : List Char} {n : Number}
    (hrest : Stops rest) (h : readMagnitude negative cs = .ok (n, left)) :
    readMagnitude negative (cs ++ rest) = .ok (n, left ++ rest) := by
  obtain ⟨whole, hwhole, h⟩ := bind_eq_ok.1 h
  have hcontinues : continuesNumeral (before whole rest).rest = continuesNumeral whole.rest :=
    continuesNumeral_append whole.rest hrest
  rw [readMagnitude, readWhole_append hrest hwhole, ok_bind, hcontinues,
    show (before whole rest).exponent = whole.exponent from rfl]
  by_cases hdone : whole.exponent = 0 && !continuesNumeral whole.rest
  · rw [if_pos hdone] at h ⊢
    obtain ⟨rfl, rfl⟩ := ok_pair_inj h
    rfl
  · rw [if_neg hdone] at h ⊢
    obtain ⟨fraction, hfraction, h⟩ := bind_eq_ok.1 h
    obtain ⟨scaling, hscaling, h⟩ := bind_eq_ok.1 h
    obtain ⟨m, hm, h⟩ := bind_eq_ok.1 h
    obtain ⟨rfl, rfl⟩ := ok_pair_inj h
    rw [readFraction_append hrest hfraction, ok_bind, readExponent_append hrest hscaling, ok_bind]
    simp [before, hm]

private theorem readNumeral_minus (cs : List Char) {r : Number × List Char} :
    readNumeral ('-' :: cs) = .ok r ↔ readMagnitude true cs = .ok r := by
  rw [readNumeral]
  cases readMagnitude true cs <;> simp [malformed]

private theorem readNumeral_plain {c : Char} (hc : c ≠ '-') (cs : List Char)
    {r : Number × List Char} :
    readNumeral (c :: cs) = .ok r ↔ readMagnitude false (c :: cs) = .ok r := by
  unfold readNumeral
  simp only
  split
  · next cause hread =>
    split at hread
    · next heq => exact absurd (List.cons.inj heq).1 hc
    · simp [hread, malformed]
  · next a hread =>
    split at hread
    · next heq => exact absurd (List.cons.inj heq).1 hc
    · simp [hread]

private theorem readNumeral_nil {r : Number × List Char} : readNumeral [] ≠ .ok r := by
  simp [readNumeral, readMagnitude, readWhole, malformed]

theorem readNumeral_append {cs left : List Char} {n : Number} (hrest : Stops rest)
    (h : readNumeral cs = .ok (n, left)) : readNumeral (cs ++ rest) = .ok (n, left ++ rest) := by
  cases cs with
  | nil => exact absurd h readNumeral_nil
  | cons c cs =>
    rw [List.cons_append]
    by_cases hc : c = '-'
    · subst hc
      rw [readNumeral_minus] at h ⊢
      exact readMagnitude_append hrest h
    · rw [readNumeral_plain hc] at h ⊢
      exact readMagnitude_append hrest h

private theorem head_of_readMagnitude {negative : Bool} {c : Char} {cs : List Char}
    {r : Number × List Char} (h : readMagnitude negative (c :: cs) = .ok r) : c.isDigit := by
  obtain ⟨whole, hwhole, -⟩ := bind_eq_ok.1 h
  by_cases hzero : c = '0'
  · subst hzero
    rfl
  · by_contra hdigit
    simp [readWhole, hzero, hdigit] at hwhole

theorem head_of_readNumeral {cs : List Char} {r : Number × List Char} (h : readNumeral cs = .ok r) :
    ∃ c ds, cs = c :: ds ∧ (c = '-' ∨ c.isDigit) := by
  cases cs with
  | nil => exact absurd h readNumeral_nil
  | cons c cs =>
    refine ⟨c, cs, rfl, ?_⟩
    by_cases hc : c = '-'
    · exact .inl hc
    · exact .inr (head_of_readMagnitude ((readNumeral_plain hc cs).1 h))

private theorem head_toDigits_ne_zero {n : Nat} (hn : 0 < n) :
    ∃ c cs, Nat.toDigits 10 n = c :: cs ∧ c ≠ '0' := by
  induction n using Nat.strong_induction_on with
  | _ n ih =>
    by_cases hlt : n < 10
    · refine ⟨n.digitChar, [], Nat.toDigits_of_lt_base hlt, ?_⟩
      interval_cases n <;> decide
    · obtain ⟨c, cs, hcs, hc⟩ := ih (n / 10) (by omega) (by omega)
      refine ⟨c, cs ++ [(n % 10).digitChar], ?_, hc⟩
      rw [Nat.toDigits_of_base_le (by omega) (by omega), hcs, List.cons_append]

private theorem le_ofDigitChars (ds : List Char) (word : Nat) :
    word ≤ Nat.ofDigitChars 10 ds word := by
  rw [Nat.ofDigitChars_eq_ofDigitChars_zero]
  have hpow : 1 ≤ 10 ^ ds.length := Nat.one_le_pow _ _ (by omega)
  have hmul : 1 * word ≤ 10 ^ ds.length * word := Nat.mul_le_mul_right word hpow
  omega

private theorem absorb_eq (ds : List Char) (word : Nat)
    (h : Nat.ofDigitChars 10 ds word ≤ greatestWord) :
    absorb word ds = (Nat.ofDigitChars 10 ds word, []) := by
  induction ds generalizing word with
  | nil => simp [absorb]
  | cons d ds ih =>
    have hnext : 10 * word + (d.toNat - '0'.toNat) = word * 10 + digitValue d := by
      rw [digitValue, Nat.mul_comm]
    rw [Nat.ofDigitChars_cons, hnext] at h ⊢
    have hle : word * 10 + digitValue d ≤ greatestWord := (le_ofDigitChars ds _).trans h
    simp only [absorb, hle, if_true, ih _ h]

private theorem absorb_le {word : Nat} (h : word ≤ greatestWord) (ds : List Char) :
    (absorb word ds).1 ≤ greatestWord := by
  induction ds generalizing word with
  | nil => exact h
  | cons d ds ih =>
    by_cases hnext : word * 10 + digitValue d ≤ greatestWord
    · simpa only [absorb, hnext, if_true] using ih hnext
    · simpa only [absorb, hnext, if_false] using h

private theorem readWhole_naturalText {n : Nat} (h : n ≤ greatestWord) :
    readWhole (Decimal.naturalText n) = .ok ⟨n, 0, []⟩ := by
  rcases Nat.eq_zero_or_pos n with rfl | hn
  · rfl
  · obtain ⟨c, cs, hcs, hc⟩ := head_toDigits_ne_zero hn
    have hdigits : ∀ d ∈ c :: cs, d.isDigit := fun d hd =>
      Nat.isDigit_of_mem_toDigits (by omega) (by omega) (hcs ▸ hd)
    have hspan : spanDigits (c :: cs) = (c :: cs, []) := by
      rw [spanDigits, List.takeWhile_eq_self_iff.2 hdigits, List.dropWhile_eq_nil_iff.2 hdigits]
    have hvalue : Nat.ofDigitChars 10 (c :: cs) 0 = n := hcs ▸ Nat.ofDigitChars_ten_toDigits
    rw [Decimal.naturalText, hcs]
    simp only [readWhole, hc, hdigits c List.mem_cons_self, if_false, if_true, hspan,
      absorb_eq _ 0 (hvalue.trans_le h), hvalue]
    rfl

private theorem readMagnitude_naturalText {n : Nat} (h : n ≤ greatestWord) (negative : Bool) :
    readMagnitude negative (Decimal.naturalText n) = .ok (asInteger negative n, []) := by
  rw [readMagnitude, readWhole_naturalText h]
  rfl

private theorem naturalText_eq_cons (n : Nat) :
    ∃ c cs, Decimal.naturalText n = c :: cs ∧ c.isDigit := by
  obtain ⟨c, cs, hcs⟩ := List.exists_cons_of_ne_nil (Nat.toDigits_ne_nil (n := n) (b := 10))
  refine ⟨c, cs, hcs, ?_⟩
  exact Nat.isDigit_of_mem_toDigits (n := n) (by omega) (by omega) (hcs ▸ List.mem_cons_self)

theorem readsBack_integer {i : Int} (h : (Number.integer i).InRange) : ReadsBack (.integer i) := by
  obtain ⟨hleast, hgreatest⟩ := h
  have hword : greatestWord = 18446744073709551615 := by decide
  cases i with
  | ofNat n =>
    have hn : n ≤ greatestWord := by rw [Int.ofNat_eq_natCast] at hgreatest; omega
    obtain ⟨c, cs, hcs, hdigit⟩ := naturalText_eq_cons n
    have hc : c ≠ '-' := by
      rintro rfl
      exact absurd hdigit (by decide)
    have hread := readMagnitude_naturalText hn false
    rw [hcs] at hread
    rw [ReadsBack, numeral, Decimal.integerText, hcs, readNumeral_plain hc, hread]
    rfl
  | negSucc n =>
    rw [Int.negSucc_eq] at hleast
    have hread := readMagnitude_naturalText (show n + 1 ≤ greatestWord by omega) true
    have hsmall : n + 1 ≠ 0 ∧ ¬ 0x8000000000000000 < n + 1 := by omega
    rw [ReadsBack, numeral, Decimal.integerText, readNumeral_minus, hread]
    simp only [asInteger, hsmall, Bool.not_true, decide_false, Bool.or_self, Bool.false_eq_true,
      if_false]
    rfl

private theorem word_le_of_readWhole {cs : List Char} {s : Scaling} (h : readWhole cs = .ok s) :
    s.word ≤ greatestWord := by
  cases cs with
  | nil => simp [readWhole] at h
  | cons c cs =>
    by_cases hzero : c = '0'
    · by_cases hspan : (spanDigits cs).1 = []
      · simp only [readWhole, hzero, hspan, if_true] at h
        rw [← Except.ok.inj h]
        exact Nat.zero_le _
      · simp [readWhole, hzero, hspan] at h
    · by_cases hdigit : c.isDigit
      · simp only [readWhole, hzero, hdigit, if_false, if_true] at h
        rw [← Except.ok.inj h]
        exact absorb_le (Nat.zero_le _) _
      · simp [readWhole, hzero, hdigit] at h

private theorem inRange_asInteger (negative : Bool) {word : Nat} (h : word ≤ greatestWord) :
    (asInteger negative word).InRange := by
  have hword : greatestWord = 18446744073709551615 := by decide
  rw [asInteger]
  split
  · simp only [Number.InRange]
    omega
  · split
    · trivial
    · next hsmall =>
      simp only [Bool.or_eq_true, decide_eq_true_eq, not_or] at hsmall
      simp only [Number.InRange]
      omega

private theorem inRange_of_readMagnitude {negative : Bool} {cs left : List Char} {n : Number}
    (h : readMagnitude negative cs = .ok (n, left)) : n.InRange := by
  obtain ⟨whole, hwhole, h⟩ := bind_eq_ok.1 h
  by_cases hdone : whole.exponent = 0 && !continuesNumeral whole.rest
  · simp only [hdone, if_true, pure_eq_ok, Except.ok.injEq, Prod.mk.injEq] at h
    rw [← h.1]
    exact inRange_asInteger negative (word_le_of_readWhole hwhole)
  · simp only [hdone] at h
    obtain ⟨fraction, -, h⟩ := bind_eq_ok.1 h
    obtain ⟨scaling, -, h⟩ := bind_eq_ok.1 h
    obtain ⟨m, hm, h⟩ := bind_eq_ok.1 h
    obtain ⟨rfl, -⟩ := ok_pair_inj h
    rw [asDouble] at hm
    split at hm
    · rw [← Except.ok.inj hm]
      trivial
    · contradiction

theorem inRange_of_readNumeral {cs left : List Char} {n : Number}
    (h : readNumeral cs = .ok (n, left)) : n.InRange := by
  cases cs with
  | nil => exact absurd h readNumeral_nil
  | cons c cs =>
    by_cases hc : c = '-'
    · subst hc
      exact inRange_of_readMagnitude ((readNumeral_minus cs).1 h)
    · exact inRange_of_readMagnitude ((readNumeral_plain hc cs).1 h)

end Json

end PromptChain
