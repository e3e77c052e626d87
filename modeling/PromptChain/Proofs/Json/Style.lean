import PromptChain.Json.Reader
import PromptChain.Json.Writer
import PromptChain.Proofs.Json.Quotation
import PromptChain.Proofs.Json.Induction

/-!
# Styles of writing

A `Style` is a way to lay out the text of a value: which blanks stand around the parts of a list or
an object, and after a colon. Compact and pretty texts are two styles. What is read from a text
depends on the value alone, so whatever holds of texts in one style holds in every style.
-/

set_option autoImplicit false

namespace PromptChain.Json

def Blank (cs : List Char) : Prop := ∀ c ∈ cs, isBlank c

theorem skipBlanks_append {blanks : List Char} (h : Blank blanks) (cs : List Char) :
    skipBlanks (blanks ++ cs) = skipBlanks cs := by
  induction blanks with
  | nil => rfl
  | cons c blanks ih =>
    rw [Blank, List.forall_mem_cons] at h
    rw [← ih h.2]
    simp [skipBlanks, h.1]

theorem skipBlanks_cons {c : Char} (h : isBlank c = false) (cs : List Char) :
    skipBlanks (c :: cs) = c :: cs := by
  simp [skipBlanks, h]

theorem stops_of_isBlank {c : Char} (h : isBlank c) (cs : List Char) : Stops (c :: cs) := by
  rw [stops_cons_iff]
  simp only [isBlank, Bool.or_eq_true, decide_eq_true_eq] at h
  rcases h with ((rfl | rfl) | rfl) | rfl <;> decide

theorem stops_append {blanks cs : List Char} (hblanks : Blank blanks) (hcs : Stops cs) :
    Stops (blanks ++ cs) := by
  cases blanks with
  | nil => exact hcs
  | cons c blanks => exact stops_of_isBlank (hblanks c List.mem_cons_self) _

/-- The parts behind the first one, a comma before each, and the closing bracket. -/
def continued (inner outer : List Char) (close : Char) : List (List Char) → List Char
  | [] => outer ++ [close]
  | part :: parts => ',' :: inner ++ part ++ continued inner outer close parts

/-- Parts between brackets, without the opening one: blanks before each part and before the end. -/
def enclosed (inner outer : List Char) (close : Char) : List (List Char) → List Char
  | [] => [close]
  | part :: parts => inner ++ part ++ continued inner outer close parts

private theorem length_continued (inner outer : List Char) (close : Char)
    (parts : List (List Char)) :
    parts.length < (continued inner outer close parts).length ∧
      ∀ part ∈ parts, part.length ≤ (continued inner outer close parts).length := by
  induction parts with
  | nil => simp [continued]
  | cons part parts ih =>
    simp only [continued, List.length_append, List.length_cons, List.forall_mem_cons]
    exact ⟨by omega, by omega, fun p hp => by have := ih.2 p hp; omega⟩

private theorem length_le_enclosed (inner outer : List Char) (close : Char)
    (parts : List (List Char)) :
    parts.length ≤ (enclosed inner outer close parts).length ∧
      ∀ part ∈ parts, part.length ≤ (enclosed inner outer close parts).length := by
  cases parts with
  | nil => simp [enclosed]
  | cons part parts =>
    have hrest := length_continued inner outer close parts
    simp only [enclosed, List.length_append, List.length_cons, List.forall_mem_cons]
    exact ⟨by omega, by omega, fun p hp => by have := hrest.2 p hp; omega⟩

def entryText (gap : List Char) (text : Json → List Char) (e : String × Json) : List Char :=
  quotation e.1 ++ ':' :: gap ++ text e.2

/-- A way to lay out values: the text of a value at a level, the blanks at the start of the lines of
a level, and the gap after a colon. -/
structure Style where
  text : Nat → Json → List Char
  indent : Nat → List Char
  gap : List Char
  blank_indent : ∀ level, Blank (indent level)
  blank_gap : Blank gap
  text_null : ∀ level, text level .null = ['n', 'u', 'l', 'l']
  text_true : ∀ level, text level (.bool true) = ['t', 'r', 'u', 'e']
  text_false : ∀ level, text level (.bool false) = ['f', 'a', 'l', 's', 'e']
  text_number : ∀ level n, text level (.number n) = numeral n
  text_text : ∀ level s, text level (.text s) = quotation s
  text_array : ∀ level vs, text level (.array vs) =
    '[' :: enclosed (indent (level + 1)) (indent level) ']' (vs.map (text (level + 1)))
  text_object : ∀ level es, text level (.object es) =
    '\x7b' :: enclosed (indent (level + 1)) (indent level) '\x7d'
      (es.map (entryText gap (text (level + 1))))

theorem Style.length_lt_text_array (w : Style) (level : Nat) (vs : List Json) :
    vs.length < (w.text level (.array vs)).length ∧
      ∀ v ∈ vs, (w.text (level + 1) v).length < (w.text level (.array vs)).length := by
  obtain ⟨hcount, hparts⟩ := length_le_enclosed (w.indent (level + 1)) (w.indent level) ']'
    (vs.map (w.text (level + 1)))
  rw [List.length_map] at hcount
  rw [w.text_array, List.length_cons]
  refine ⟨Nat.lt_succ_of_le hcount, fun v hv => Nat.lt_succ_of_le ?_⟩
  exact hparts _ (List.mem_map_of_mem hv)

theorem Style.length_lt_text_object (w : Style) (level : Nat) (es : List (String × Json)) :
    es.length < (w.text level (.object es)).length ∧
      ∀ e ∈ es, (w.text (level + 1) e.2).length < (w.text level (.object es)).length := by
  obtain ⟨hcount, hparts⟩ := length_le_enclosed (w.indent (level + 1)) (w.indent level) '\x7d'
    (es.map (entryText w.gap (w.text (level + 1))))
  rw [List.length_map] at hcount
  rw [w.text_object, List.length_cons]
  refine ⟨Nat.lt_succ_of_le hcount, fun e he => ?_⟩
  have hpart := hparts _ (List.mem_map_of_mem he)
  rw [entryText, List.length_append] at hpart
  omega

private theorem compactItems_eq (v : Json) (vs : List Json) :
    compactItems (v :: vs) = enclosed [] [] ']' ((v :: vs).map compact) := by
  induction vs generalizing v with
  | nil => simp [compactItems, enclosed, continued]
  | cons w vs ih =>
    rw [compactItems, ih]
    · simp [enclosed, continued]
    · simp

private theorem compactEntries_eq (e : String × Json) (es : List (String × Json)) :
    compactEntries (e :: es) =
      enclosed [] [] '\x7d' ((e :: es).map (entryText [] compact)) := by
  induction es generalizing e with
  | nil => simp [compactEntries, enclosed, continued, entryText]
  | cons f es ih =>
    rw [compactEntries, ih]
    · simp [enclosed, continued, entryText]
    · simp

private theorem prettyItems_eq (level : Nat) (v : Json) (vs : List Json) :
    prettyItems level (v :: vs) =
      enclosed (newLine (level + 1)) (newLine level) ']' ((v :: vs).map (pretty (level + 1))) := by
  induction vs generalizing v with
  | nil => simp [prettyItems, enclosed, continued]
  | cons w vs ih =>
    rw [prettyItems, ih]
    · simp [enclosed, continued]
    · simp

private theorem prettyEntries_eq (level : Nat) (e : String × Json) (es : List (String × Json)) :
    prettyEntries level (e :: es) =
      enclosed (newLine (level + 1)) (newLine level) '\x7d'
        ((e :: es).map (entryText [' '] (pretty (level + 1)))) := by
  induction es generalizing e with
  | nil => simp [prettyEntries, enclosed, continued, entryText]
  | cons f es ih =>
    rw [prettyEntries, ih]
    · simp [enclosed, continued, entryText]
    · simp

def Style.compact : Style where
  text _ := Json.compact
  indent _ := []
  gap := []
  blank_indent _ := by simp [Blank]
  blank_gap := by simp [Blank]
  text_null _ := by rw [Json.compact]
  text_true _ := by rw [Json.compact]
  text_false _ := by rw [Json.compact]
  text_number _ n := by rw [Json.compact]
  text_text _ s := by rw [Json.compact]
  text_array _ vs := by
    cases vs with
    | nil => simp [Json.compact, compactItems, enclosed]
    | cons v vs => rw [Json.compact, compactItems_eq]
  text_object _ es := by
    cases es with
    | nil => simp [Json.compact, compactEntries, enclosed]
    | cons e es => rw [Json.compact, compactEntries_eq]

def Style.pretty : Style where
  text := Json.pretty
  indent := newLine
  gap := [' ']
  blank_indent level := by
    intro c hc
    rcases List.mem_cons.1 hc with rfl | hc
    · rfl
    · rw [List.eq_of_mem_replicate hc]
      rfl
  blank_gap := by simp [Blank, isBlank]
  text_null _ := by rw [Json.pretty]
  text_true _ := by rw [Json.pretty]
  text_false _ := by rw [Json.pretty]
  text_number _ n := by rw [Json.pretty]
  text_text _ s := by rw [Json.pretty]
  text_array level vs := by
    cases vs with
    | nil => simp [Json.pretty, enclosed]
    | cons v vs => rw [Json.pretty, prettyItems_eq]
  text_object level es := by
    cases es with
    | nil => simp [Json.pretty, enclosed]
    | cons e es => rw [Json.pretty, prettyEntries_eq]

end PromptChain.Json
