import PromptChain.Json.Reader
import PromptChain.Proofs.Json.Induction

/-!
# What is read from a text

Whatever the text, a value that is read nests no deeper than there was room for, and its numbers are
in range. The loops over lists and objects keep what their steps keep.
-/

set_option autoImplicit false

namespace PromptChain.Json

section loops

variable {α σ : Type}

theorem mem_of_readElements {read : Reader α} {budget : Nat} {first : Bool} {done as : List α}
    {cs rest : List Char} (h : readElements read budget first done cs = .ok (as, rest)) :
    ∀ a ∈ as, a ∈ done ∨ ∃ cs rest, read cs = .ok (a, rest) := by
  induction budget generalizing first done cs with
  | zero => simp [readElements, malformed] at h
  | succ budget ih =>
    obtain ⟨next, -, h⟩ := bind_eq_ok.1 h
    cases next with
    | none =>
      obtain ⟨left, -, h⟩ := bind_eq_ok.1 h
      obtain ⟨rfl, -⟩ := ok_pair_inj h
      exact fun a ha => .inl (List.mem_reverse.1 ha)
    | some cs =>
      obtain ⟨⟨b, left⟩, hb, h⟩ := bind_eq_ok.1 h
      intro a ha
      rcases ih h a ha with hdone | hread
      · rcases List.mem_cons.1 hdone with rfl | hdone
        · exact .inr ⟨cs, left, hb⟩
        · exact .inl hdone
      · exact .inr hread

theorem foldEntries_invariant {step : σ → String → Reader σ} {motive : σ → Prop}
    (hstep : ∀ s key cs t rest, motive s → step s key cs = .ok (t, rest) → motive t)
    {budget : Nat} {first : Bool} {s t : σ} {cs rest : List Char} (hs : motive s)
    (h : foldEntries step budget first s cs = .ok (t, rest)) : motive t := by
  induction budget generalizing first s cs with
  | zero => simp [foldEntries, malformed] at h
  | succ budget ih =>
    obtain ⟨next, -, h⟩ := bind_eq_ok.1 h
    cases next with
    | none =>
      obtain ⟨left, -, h⟩ := bind_eq_ok.1 h
      obtain ⟨rfl, -⟩ := ok_pair_inj h
      exact hs
    | some entry =>
      obtain ⟨⟨u, left⟩, hu, h⟩ := bind_eq_ok.1 h
      exact ih (hstep s entry.1 entry.2 u left hs hu) h

theorem mem_of_readEntries {read : Reader α} {budget : Nat} {cs rest : List Char}
    {es : List (String × α)} (h : readEntries read budget cs = .ok (es, rest)) :
    ∀ e ∈ es, ∃ cs rest, read cs = .ok (e.2, rest) := by
  obtain ⟨⟨done, left⟩, hdone, h⟩ := bind_eq_ok.1 h
  obtain ⟨rfl, -⟩ := ok_pair_inj h
  have hkept : ∀ e ∈ done, ∃ cs rest, read cs = .ok (e.2, rest) := by
    refine foldEntries_invariant (motive := fun done : List (String × α) =>
      ∀ e ∈ done, ∃ cs rest, read cs = .ok (e.2, rest)) ?_ (by simp) hdone
    intro done key cs done' left hdone hstep
    obtain ⟨inside, -, hstep⟩ := bind_eq_ok.1 hstep
    obtain ⟨⟨v, behind⟩, hv, hstep⟩ := bind_eq_ok.1 hstep
    obtain ⟨rfl, -⟩ := ok_pair_inj hstep
    exact List.forall_mem_cons.2 ⟨⟨inside, behind, hv⟩, hdone⟩
  exact fun e he => hkept e (List.mem_reverse.1 he)

end loops

theorem readScalar_cases {containers : Char → Reader Json} {cs rest : List Char} {v : Json}
    (h : readScalar containers cs = .ok (v, rest)) :
    (∃ s inside, v = .text s ∧ skipBlanks cs = '"' :: inside ∧
        readQuotation inside = .ok (s, rest)) ∨
      (v.depth = 0 ∧ v.InRange ∧ ∀ s, v ≠ .text s) ∨
      ∃ c inside, (c = '[' ∨ c = '\x7b') ∧ skipBlanks cs = c :: inside ∧
        containers c inside = .ok (v, rest) := by
  rw [readScalar] at h
  split at h
  · contradiction
  · next c inside hcs =>
    split at h
    · obtain ⟨left, -, h⟩ := bind_eq_ok.1 h
      obtain ⟨rfl, -⟩ := ok_pair_inj h
      exact .inr (.inl ⟨rfl, nofun, nofun⟩)
    split at h
    · obtain ⟨left, -, h⟩ := bind_eq_ok.1 h
      obtain ⟨rfl, -⟩ := ok_pair_inj h
      exact .inr (.inl ⟨rfl, nofun, nofun⟩)
    split at h
    · obtain ⟨left, -, h⟩ := bind_eq_ok.1 h
      obtain ⟨rfl, -⟩ := ok_pair_inj h
      exact .inr (.inl ⟨rfl, nofun, nofun⟩)
    split at h
    · next hquote =>
      obtain ⟨⟨s, left⟩, hs, h⟩ := bind_eq_ok.1 h
      obtain ⟨rfl, rfl⟩ := ok_pair_inj h
      exact .inl ⟨s, inside, rfl, hquote ▸ hcs, hs⟩
    split at h
    · obtain ⟨⟨n, left⟩, hn, h⟩ := bind_eq_ok.1 h
      obtain ⟨rfl, -⟩ := ok_pair_inj h
      refine .inr (.inl ⟨rfl, fun m hm => ?_, nofun⟩)
      rw [List.mem_singleton.1 hm]
      exact inRange_of_readNumeral hn
    split at h
    · next hopens => exact .inr (.inr ⟨c, inside, by simpa using hopens, hcs, h⟩)
    · contradiction

/-- What a value was read from: the quotation of a text, a list or an object, for which there was
room, or another scalar. -/
theorem value_cases {budget room : Nat} {cs rest : List Char} {v : Json}
    (h : value budget room cs = .ok (v, rest)) :
    (∃ s inside, v = .text s ∧ skipBlanks cs = '"' :: inside ∧
        readQuotation inside = .ok (s, rest)) ∨
      (v.depth = 0 ∧ v.InRange ∧ ∀ s, v ≠ .text s) ∨
      (∃ left vs inside, room = left + 1 ∧ v = .array vs ∧ skipBlanks cs = '[' :: inside ∧
        readElements (value budget left) budget true [] inside = .ok (vs, rest)) ∨
      ∃ left es inside, room = left + 1 ∧ v = .object es ∧ skipBlanks cs = '\x7b' :: inside ∧
        readEntries (value budget left) budget inside = .ok (es, rest) := by
  cases room with
  | zero =>
    rcases readScalar_cases h with htext | hscalar | ⟨c, inside, -, -, h⟩
    · exact .inl htext
    · exact .inr (.inl hscalar)
    · contradiction
  | succ left =>
    rcases readScalar_cases h with htext | hscalar | ⟨c, inside, hc, hcs, h⟩
    · exact .inl htext
    · exact .inr (.inl hscalar)
    · rcases hc with rfl | rfl
      · obtain ⟨⟨vs, behind⟩, hvs, h⟩ := bind_eq_ok.1 h
        obtain ⟨rfl, rfl⟩ := ok_pair_inj h
        exact .inr (.inr (.inl ⟨left, vs, inside, rfl, rfl, hcs, hvs⟩))
      · obtain ⟨⟨es, behind⟩, hes, h⟩ := bind_eq_ok.1 h
        obtain ⟨rfl, rfl⟩ := ok_pair_inj h
        exact .inr (.inr (.inr ⟨left, es, inside, rfl, rfl, hcs, hes⟩))

theorem depth_le_of_value {budget room : Nat} {cs rest : List Char} {v : Json}
    (h : value budget room cs = .ok (v, rest)) : v.depth ≤ room ∧ v.InRange := by
  induction room generalizing cs rest v with
  | zero =>
    rcases value_cases h with ⟨s, inside, rfl, -, -⟩ | ⟨hdepth, hrange, -⟩ | hlist | hobject
    · exact ⟨le_rfl, nofun⟩
    · exact ⟨hdepth.le, hrange⟩
    · obtain ⟨left, -, -, hroom, -⟩ := hlist
      contradiction
    · obtain ⟨left, -, -, hroom, -⟩ := hobject
      contradiction
  | succ room ih =>
    rcases value_cases h with ⟨s, inside, rfl, -, -⟩ | ⟨hdepth, hrange, -⟩ | hlist | hobject
    · exact ⟨Nat.zero_le _, nofun⟩
    · exact ⟨by omega, hrange⟩
    · obtain ⟨left, vs, inside, hroom, rfl, -, hvs⟩ := hlist
      obtain rfl : room = left := Nat.succ.inj hroom
      have hparts : ∀ v ∈ vs, v.depth ≤ room ∧ v.InRange := by
        intro v hv
        rcases mem_of_readElements hvs v hv with hnil | ⟨cs, rest, hread⟩
        · contradiction
        · exact ih hread
      exact ⟨(depth_array_le_iff vs room).2 fun v hv => (hparts v hv).1,
        eachNumber_array_iff.2 fun v hv => (hparts v hv).2⟩
    · obtain ⟨left, es, inside, hroom, rfl, -, hes⟩ := hobject
      obtain rfl : room = left := Nat.succ.inj hroom
      have hparts : ∀ e ∈ es, e.2.depth ≤ room ∧ e.2.InRange := by
        intro e he
        obtain ⟨cs, rest, hread⟩ := mem_of_readEntries hes e he
        exact ih hread
      exact ⟨(depth_object_le_iff es room).2 fun e he => (hparts e he).1,
        eachNumber_object_iff.2 fun e he => (hparts e he).2⟩

theorem exists_of_readWith {α : Type} {read : Nat → Reader α} {text : String} {a : α}
    (h : readWith read text = .ok a) : ∃ budget rest, read budget text.toList = .ok (a, rest) := by
  obtain ⟨⟨b, rest⟩, hb, h⟩ := bind_eq_ok.1 h
  dsimp only at h
  split at h
  · exact ⟨_, rest, Except.ok.inj h ▸ hb⟩
  · contradiction

end PromptChain.Json
