import PromptChain.Command.Basic
import PromptChain.Proofs.Revision.RoundTrip

/-!
# What a file is loaded as

A file is loaded as the revision that it holds, or else as a new revision of the chain that it
holds. The chain that is loaded has distinct ids in either case.
-/

set_option autoImplicit false

namespace PromptChain

theorem Config.proper_of_ofText {text : String} {config : Config} (h : ofText text = .ok config) :
    config.llms.Proper := by
  obtain ⟨budget, rest, h⟩ := Json.exists_of_readWith h
  obtain ⟨⟨⟨llms, defaultName, logFilter, ⟨⟩⟩, left⟩, hread, h⟩ := bind_eq_ok.1 h
  obtain ⟨rfl, -⟩ := ok_pair_inj h
  obtain ⟨⟨cs, rest, -, hllms⟩ | hstandard, -⟩ := Json.TextFields.given_read hread
  · exact (Llms.proper_of_read hllms).1
  · obtain rfl := Option.some.inj hstandard
    exact Llms.proper_standard

namespace Command

variable {files : Directory} {config : Config} {path : String} {r : Revision}

theorem held_eq_ok {h : Held} : held files path = .ok h ↔ ∃ text, files.read path = .ok text ∧
    match h with
    | .revision r => Revision.ofText text = .ok r
    | .chain c => (∃ cause, Revision.ofText text = .error (.unreadable cause)) ∧
        Node.ofText text = .ok c ∧ c.checkIds = .ok () := by
  rw [held]
  cases files.read path with
  | error refusal => simp
  | ok text =>
    simp only [Except.ok.injEq, exists_eq_left']
    cases Revision.ofText text with
    | ok r' => cases h <;> simp
    | error fault =>
      cases fault with
      | unreadable cause =>
        cases Node.ofText text with
        | error cause' => cases h <;> simp
        | ok chain => cases hcheck : chain.checkIds <;> cases h <;> simp <;> grind
      | _ => cases h <;> simp

theorem load_eq_ok : load files config path = .ok r ↔ ∃ text, files.read path = .ok text ∧
    (Revision.ofText text = .ok r ∨ ∃ cause chain,
      Revision.ofText text = .error (.unreadable cause) ∧ Node.ofText text = .ok chain ∧
      chain.checkIds = .ok () ∧ r = .create none chain config.llms) := by
  have hload : load files config path = .ok r ↔
      ∃ h, held files path = .ok h ∧ .ok (h.asRevision config) = (.ok r : Except String Revision) :=
        bind_eq_ok
  simp only [hload, held_eq_ok, Except.ok.injEq]
  constructor
  · rintro ⟨h, ⟨text, hread, hheld⟩, rfl⟩
    refine ⟨text, hread, ?_⟩
    cases h with
    | revision r => exact .inl hheld
    | chain c =>
      obtain ⟨⟨cause, hcause⟩, hchain, hcheck⟩ := hheld
      exact .inr ⟨cause, c, hcause, hchain, hcheck, rfl⟩
  · rintro ⟨text, hread, hr | ⟨cause, c, hcause, hchain, hcheck, rfl⟩⟩
    · exact ⟨.revision r, ⟨text, hread, hr⟩, rfl⟩
    · exact ⟨.chain c, ⟨text, hread, ⟨cause, hcause⟩, hchain, hcheck⟩, rfl⟩

theorem ne_empty_of_load (h : load files config path = .ok r) : path ≠ "" := by
  obtain ⟨text, hread, -⟩ := load_eq_ok.1 h
  rintro rfl
  simp [Directory.read, Directory.approach] at hread

theorem idsDistinct_of_load (h : load files config path = .ok r) : r.chain.IdsDistinct := by
  obtain ⟨text, -, hr | ⟨cause, chain, -, -, hcheck, rfl⟩⟩ := load_eq_ok.1 h
  · exact (Revision.proper_of_ofText hr).2.2
  · rw [Revision.create, Node.IdsDistinct, Node.ids_refresh]
    exact (Node.checkIds_eq_ok_iff chain).1 hcheck

theorem proper_of_chosenConfig {name : Option String} (h : chosenConfig files name = .ok config) :
    config.llms.Proper := by
  cases name with
  | none =>
    obtain rfl := Except.ok.inj h
    exact Llms.proper_standard
  | some path =>
    rw [chosenConfig] at h
    split at h
    · contradiction
    · next config' hload =>
      obtain rfl := Except.ok.inj h
      rw [loadConfig] at hload
      split at hload
      · contradiction
      split at hload
      · contradiction
      · next hread =>
        obtain rfl := Except.ok.inj hload
        exact Config.proper_of_ofText hread

end Command

end PromptChain
