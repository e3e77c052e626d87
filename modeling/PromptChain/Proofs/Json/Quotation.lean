import PromptChain.Json.Quotation

/-!
# Written strings read back

A string that is written between quotes is read back as it is, whatever its characters, and reading
goes on behind the closing quote.
-/

set_option autoImplicit false

namespace PromptChain.Json

private theorem hexDigit?_digitChar {d : Nat} (h : d < 16) :
    hexDigit? (Nat.digitChar d) = some d := by
  revert d
  decide

private theorem utf8Size_digitChar {d : Nat} (h : d < 16) : (Nat.digitChar d).utf8Size = 1 := by
  revert d
  decide

private theorem readSpelling_unit {n : Nat} (h : n < 0x20) (done rest : List Char) :
    readSpelling .plain done
        ('\\' :: 'u' :: '0' :: '0' :: Nat.digitChar (n / 16) :: Nat.digitChar (n % 16) :: rest) =
      readSpelling .plain (Char.ofNat n :: done) rest := by
  have hhigh : hexDigit? (Nat.digitChar (n / 16)) = some (n / 16) := hexDigit?_digitChar (by omega)
  have hlow : hexDigit? (Nat.digitChar (n % 16)) = some (n % 16) := hexDigit?_digitChar (by omega)
  have hzero : hexDigit? '0' = some 0 := by decide
  have hlacks :
      lacksDigits ('0' :: '0' :: Nat.digitChar (n / 16) :: Nat.digitChar (n % 16) :: rest) =
        false := by
    have hone : ('0' : Char).utf8Size = 1 := by decide
    simp [lacksDigits, hone, utf8Size_digitChar (show n / 16 < 16 by omega),
      utf8Size_digitChar (show n % 16 < 16 by omega)]
  have hunit : unitRead none n = .ok (.inl (Char.ofNat n)) := by
    have htrailing : isTrailingSurrogate n = false := by simp [isTrailingSurrogate]; omega
    have hleading : isLeadingSurrogate n = false := by simp [isLeadingSurrogate]; omega
    simp [unitRead, htrailing, hleading]
  have hn : n / 16 * 16 + n % 16 = n := by omega
  simp [readSpelling, hlacks, hzero, hhigh, hlow, hn, hunit]

theorem readSpelling_escaped (c : Char) (done rest : List Char) :
    readSpelling .plain done (escaped c ++ rest) = readSpelling .plain (c :: done) rest := by
  unfold escaped
  split
  case h_8 hquote hbackslash _ _ _ _ _ =>
    split
    · next h =>
      have hunit := readSpelling_unit h done rest
      rw [Char.ofNat_toNat] at hunit
      exact hunit
    · next h =>
      have hne : c ≠ '"' ∧ c ≠ '\\' := ⟨fun he => hquote he, fun he => hbackslash he⟩
      simp [readSpelling, hne, h]
  all_goals simp [readSpelling, shortEscape?]

private theorem readSpelling_flatMap_escaped (cs done rest : List Char) :
    readSpelling .plain done (cs.flatMap escaped ++ '"' :: rest) =
      .ok (done.reverse ++ cs, rest) := by
  induction cs generalizing done with
  | nil => simp [readSpelling]
  | cons c cs ih =>
    rw [List.flatMap_cons, List.append_assoc, readSpelling_escaped, ih]
    simp

theorem readQuotation_flatMap_escaped (s : String) (rest : List Char) :
    readQuotation (s.toList.flatMap escaped ++ '"' :: rest) = .ok (s, rest) := by
  rw [readQuotation, readSpelling_flatMap_escaped]
  simp

theorem quotation_append (s : String) (rest : List Char) :
    quotation s ++ rest = '"' :: (s.toList.flatMap escaped ++ '"' :: rest) := by
  simp [quotation]

end PromptChain.Json
