import PromptChain.Json.Image
import PromptChain.Json.Encode
import PromptChain.Proofs.Json.Induction
import Mathlib

/-!
# Images of tidy values

A value that names every key of its objects once has the same image as itself, whatever its doubles
are: those that are no number have the image null.
-/

set_option autoImplicit false

namespace PromptChain

theorem Number.same_self {x : Float} (h : x.isFinite = true) :
    (double x).same (double x) = true := by
  rw [same, Float.beq_self_iff]
  rintro rfl
  exact absurd h (by decide)

namespace Json

private theorem map_eq_self_iff {α : Type} (f : α → α) (l : List α) :
    l.map f = l ↔ ∀ a ∈ l, f a = a := by
  simpa using List.map_inj_left (f := f) (g := id)

theorem tidy_array_iff (vs : List Json) : (array vs).Tidy ↔ ∀ v ∈ vs, v.Tidy := by
  rw [Tidy, tidied, array.injEq, tidiedItems_eq]
  exact map_eq_self_iff tidied vs

theorem tidy_object_iff (es : List (String × Json)) :
    (object es).Tidy ↔ Entries.Distinct es ∧ ∀ e ∈ es, e.2.Tidy := by
  have hitems : (∀ e ∈ es, e.2.Tidy) ↔ es.map (fun e => (e.1, e.2.tidied)) = es := by
    rw [map_eq_self_iff]
    exact forall₂_congr fun e _ => by simp [Tidy, Prod.ext_iff]
  rw [Tidy, tidied, object.injEq, tidiedEntries_eq, hitems]
  constructor
  · intro h
    have hdistinct : Entries.Distinct es := h ▸ Entries.distinct_ofList _
    rw [Entries.ofList_eq_self ((Entries.distinct_map_iff _ es).2 hdistinct)] at h
    exact ⟨hdistinct, h⟩
  · rintro ⟨hdistinct, h⟩
    rw [h, Entries.ofList_eq_self hdistinct]

theorem tidy_record {es : List (String × Json)} (hnames : (es.map (·.1)).Nodup)
    (hfields : ∀ e ∈ es, e.2.Tidy) : (object es).Tidy :=
  (tidy_object_iff es).2 ⟨hnames, hfields⟩

@[simp] theorem tidy_text (s : String) : (text s).Tidy := rfl

@[simp] theorem tidy_ofWord64 (n : UInt64) : (ofWord64 n).Tidy := rfl

@[simp] theorem tidy_ofWord32 (n : UInt32) : (ofWord32 n).Tidy := rfl

@[simp] theorem tidy_ofSigned32 (n : Int32) : (ofSigned32 n).Tidy := rfl

@[simp] theorem tidy_ofDouble (x : Float) : (ofDouble x).Tidy := rfl

@[simp] theorem tidy_ofTexts (l : List String) : (ofTexts l).Tidy := by
  rw [ofTexts, tidy_array_iff]
  intro v hv
  obtain ⟨s, -, rfl⟩ := List.mem_map.1 hv
  rfl

theorem tidy_ofOption {α : Type} {write : α → Json} {a : Option α} (h : ∀ x ∈ a, (write x).Tidy) :
    (ofOption write a).Tidy := by
  cases a with
  | none => rfl
  | some x => exact h x rfl

theorem tidy_ofMap {α : Type} {write : α → Json} {es : List (String × α)} (h : Entries.Distinct es)
    (hvalues : ∀ e ∈ es, (write e.2).Tidy) : (ofMap write es).Tidy := by
  rw [ofMap, tidy_object_iff, Entries.distinct_map_iff]
  refine ⟨h, fun e he => ?_⟩
  obtain ⟨e', he', rfl⟩ := List.mem_map.1 he
  exact hvalues e' he'

theorem imageItems_eq (vs : List Json) : imageItems vs = vs.map image := by
  induction vs with
  | nil => rfl
  | cons v vs ih => rw [imageItems, ih, List.map_cons]

theorem imageEntries_eq (es : List (String × Json)) :
    imageEntries es = es.map fun e => (e.1, e.2.image) := by
  induction es with
  | nil => rfl
  | cons e es ih => rw [imageEntries, ih, List.map_cons]

theorem sameItems_self {vs : List Json} (h : ∀ v ∈ vs, v.same v = true) :
    sameItems vs vs = true := by
  induction vs with
  | nil => rfl
  | cons v vs ih =>
    obtain ⟨hv, hvs⟩ := List.forall_mem_cons.1 h
    rw [sameItems, hv, ih hvs, Bool.and_self]

theorem sameEntries_of_get? {es fs : List (String × Json)}
    (h : ∀ e ∈ es, Entries.get? fs e.1 = some e.2 ∧ e.2.same e.2 = true) :
    sameEntries es fs = true := by
  induction es with
  | nil => rfl
  | cons e es ih =>
    obtain ⟨⟨hget, hsame⟩, hes⟩ := List.forall_mem_cons.1 h
    rw [sameEntries, hget, ih hes, Bool.and_true]
    exact hsame

private theorem same_image_self {v : Json} (h : v.Tidy) : v.image.same v.image = true := by
  induction v with
  | null => rfl
  | bool b => simp [image, same]
  | text s => simp [image, same]
  | number n =>
    rw [image]
    cases n with
    | integer i => simp [imageNumber, same, Number.same]
    | double x =>
      rw [imageNumber]
      split
      · next hfinite => exact Number.same_self hfinite
      · rfl
  | array vs ih =>
    rw [tidy_array_iff] at h
    rw [image, same, imageItems_eq]
    apply sameItems_self
    intro w hw
    obtain ⟨v, hv, rfl⟩ := List.mem_map.1 hw
    exact ih v hv (h v hv)
  | object es ih =>
    obtain ⟨hdistinct, hvalues⟩ := (tidy_object_iff es).1 h
    have himages : Entries.Distinct (es.map fun e => (e.1, e.2.image)) :=
      (Entries.distinct_map_iff _ es).2 hdistinct
    rw [image, same, imageEntries_eq, decide_eq_true rfl, Bool.true_and]
    apply sameEntries_of_get?
    intro f hf
    refine ⟨Entries.get?_of_mem himages hf, ?_⟩
    obtain ⟨e, he, rfl⟩ := List.mem_map.1 hf
    exact ih e he (hvalues e he)

theorem sameImage_self {v : Json} (h : v.Tidy) : sameImage (some v) (some v) = true :=
  same_image_self h

end Json

end PromptChain
