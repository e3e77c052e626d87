import PromptChain.Proofs.Json.Image
import PromptChain.Proofs.Json.Lawful

/-!
# When written values are the same

A value whose doubles are finite is its own image. Two maps that are written are the same when they
are equal in whatever order, and two records with the same names when their fields are, one by one.
-/

set_option autoImplicit false

namespace PromptChain

def Number.isFinite : Number → Bool
  | integer _ => true
  | double x => x.isFinite

namespace Json

variable {α : Type}

/-- Every double of the value is finite. -/
def Finite (v : Json) : Prop := v.EachNumber (·.isFinite = true)

instance (v : Json) : Decidable v.Finite :=
  inferInstanceAs (Decidable (∀ n ∈ v.numbers, n.isFinite = true))

theorem image_of_finite {v : Json} (h : v.Finite) : v.image = v := by
  induction v with
  | null | bool | text => rfl
  | number n =>
    cases n with
    | integer i => rfl
    | double x =>
      have hx : x.isFinite = true := h (.double x) (List.mem_singleton_self _)
      rw [image, imageNumber, if_pos hx]
  | array vs ih =>
    rw [Finite, eachNumber_array_iff] at h
    rw [image, imageItems_eq, List.map_congr_left fun v hv => ih v hv (h v hv)]
    exact congrArg array (List.map_id vs)
  | object es ih =>
    rw [Finite, eachNumber_object_iff] at h
    have himages : es.map (fun e => (e.1, e.2.image)) = es.map id :=
      List.map_congr_left fun e he => by rw [ih e he (h e he), id]
    rw [image, imageEntries_eq, himages, List.map_id]

theorem sameImage_of_finite {v w : Json} (hv : v.Finite) (hw : w.Finite) :
    sameImage (some v) (some w) = v.same w := by
  rw [sameImage, image_of_finite hv, image_of_finite hw]

theorem same_text (s t : String) : (text s).same (text t) = decide (s = t) := by
  rw [same]

theorem same_ofWord64 (m n : UInt64) : (ofWord64 m).same (ofWord64 n) = decide (m = n) := by
  rw [ofWord64, ofWord64, same, Number.same]
  simp [← UInt64.toNat_inj]

theorem same_ofWord32 (m n : UInt32) : (ofWord32 m).same (ofWord32 n) = decide (m = n) := by
  rw [ofWord32, ofWord32, same, Number.same]
  simp [← UInt32.toNat_inj]

theorem same_ofSigned32 (m n : Int32) : (ofSigned32 m).same (ofSigned32 n) = decide (m = n) := by
  rw [ofSigned32, ofSigned32, same, Number.same]
  simp [Int32.toInt_inj]

theorem same_ofDouble (x y : Float) : (ofDouble x).same (ofDouble y) = (x == y) := by
  rw [ofDouble, ofDouble, same, Number.same]

theorem same_ofTexts (l m : List String) : (ofTexts l).same (ofTexts m) = decide (l = m) := by
  rw [ofTexts, ofTexts, same]
  induction l generalizing m with
  | nil => cases m <;> rfl
  | cons s l ih =>
    cases m with
    | nil => rfl
    | cons t m => simp [sameItems, same_text, ih]

private theorem null_same {v : Json} (h : v ≠ .null) : null.same v = false := by
  cases v <;> first | contradiction | rfl

private theorem same_null {v : Json} (h : v ≠ .null) : v.same null = false := by
  cases v <;> first | contradiction | rfl

theorem same_ofOption {write : α → Json} {eq : α → α → Bool} (hnull : ∀ x, write x ≠ .null)
    {a : Option α} (heq : ∀ x ∈ a, ∀ y, (write x).same (write y) = eq x y) (b : Option α) :
    (ofOption write a).same (ofOption write b) = a.elim b.isNone fun x => b.any (eq x) := by
  cases a with
  | none =>
    cases b with
    | none => rfl
    | some y => exact null_same (hnull y)
  | some x =>
    cases b with
    | none => exact same_null (hnull x)
    | some y => exact heq x rfl y

theorem same_ofOption_eq [DecidableEq α] {write : α → Json} (hnull : ∀ x, write x ≠ .null)
    (heq : ∀ x y, (write x).same (write y) = decide (x = y)) (a b : Option α) :
    (ofOption write a).same (ofOption write b) = decide (a = b) := by
  rw [same_ofOption hnull fun x _ y => heq x y]
  cases a <;> cases b <;> simp

theorem same_object (es fs : List (String × Json)) :
    (object es).same (object fs) = Entries.sameBy same es fs := by
  rw [same, Entries.sameBy]
  congr 1
  induction es with
  | nil => rfl
  | cons e es ih =>
    rw [sameEntries, ih, List.all_cons]
    cases Entries.get? fs e.1 <;> rfl

theorem same_ofMap {write : α → Json} {eq : α → α → Bool} {es fs : List (String × α)}
    (heq : ∀ e ∈ es, ∀ y, (write e.2).same (write y) = eq e.2 y) :
    (ofMap write es).same (ofMap write fs) = Entries.sameBy eq es fs := by
  rw [ofMap, ofMap, same_object, Entries.sameBy, Entries.sameBy, List.length_map, List.length_map,
    List.all_map]
  congr 1
  rw [Bool.eq_iff_iff, List.all_eq_true, List.all_eq_true]
  refine forall₂_congr fun e he => ?_
  rw [Function.comp_apply, Entries.get?_map]
  cases Entries.get? fs e.1 with
  | none => rfl
  | some y => exact Bool.eq_iff_iff.1 (heq e he y)

private theorem sameEntries_append {before es fs : List (String × Json)}
    (hkeys : Entries.keys es = Entries.keys fs) (hdistinct : Entries.Distinct (before ++ fs)) :
    sameEntries es (before ++ fs) = sameItems (es.map (·.2)) (fs.map (·.2)) := by
  induction es generalizing before fs with
  | nil =>
    have hfs : fs = [] := List.map_eq_nil_iff.1 hkeys.symm
    rw [hfs]
    rfl
  | cons e es ih =>
    cases fs with
    | nil => contradiction
    | cons f fs =>
      obtain ⟨hkey : e.1 = f.1, hrest⟩ := List.cons.inj hkeys
      have hget : Entries.get? (before ++ f :: fs) e.1 = some f.2 := by
        have hmem : f ∈ before ++ f :: fs := List.mem_append_right before List.mem_cons_self
        rw [hkey]
        exact Entries.get?_of_mem hdistinct hmem
      have hsplit : before ++ f :: fs = (before ++ [f]) ++ fs := List.append_cons before f fs
      rw [hsplit] at hdistinct
      have hes : sameEntries es (before ++ f :: fs) = sameItems (es.map (·.2)) (fs.map (·.2)) := by
        rw [hsplit]
        exact ih hrest hdistinct
      rw [sameEntries, hget, hes]
      rfl

theorem same_record {es fs : List (String × Json)} (hkeys : Entries.keys es = Entries.keys fs)
    (hnames : (Entries.keys fs).Nodup) :
    (object es).same (object fs) = sameItems (es.map (·.2)) (fs.map (·.2)) := by
  have hlength : es.length = fs.length := by
    have h := congrArg List.length hkeys
    rwa [Entries.keys, Entries.keys, List.length_map, List.length_map] at h
  have hentries : sameEntries es ([] ++ fs) = sameItems (es.map (·.2)) (fs.map (·.2)) :=
    sameEntries_append hkeys hnames
  rw [same, decide_eq_true hlength, Bool.true_and]
  exact hentries

section Tagged

variable {κ : Type} {variants : Variants κ} {s t : String} {es fs : List (String × Json)}

theorem same_taggedWith (hkeys : Entries.keys es = Entries.keys fs)
    (hnames : (variants.tag :: Entries.keys fs).Nodup) :
    (taggedWith variants s es).same (taggedWith variants s fs) =
      sameItems (es.map (·.2)) (fs.map (·.2)) := by
  have htagged : Entries.keys ((variants.tag, text s) :: es) =
      Entries.keys ((variants.tag, text s) :: fs) := congrArg (variants.tag :: ·) hkeys
  rw [taggedWith, taggedWith, same_record htagged hnames, List.map_cons, List.map_cons, sameItems,
    same_text, decide_eq_true rfl, Bool.true_and]

theorem same_taggedWith_of_ne (hne : s ≠ t) :
    (taggedWith variants s es).same (taggedWith variants t fs) = false := by
  have htag : Entries.get? ((variants.tag, text t) :: fs) variants.tag = some (text t) := by
    rw [Entries.get?_cons, if_pos rfl]
  rw [taggedWith, taggedWith, same, sameEntries, htag]
  simp [same_text, hne]

end Tagged

end Json

end PromptChain
