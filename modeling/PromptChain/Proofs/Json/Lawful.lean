import PromptChain.Json.Decode
import PromptChain.Json.Encode
import PromptChain.Proofs.Json.Record

/-!
# Typed values written and taken back

A way to write values and a way to take them are lawful together when a proper value is taken back
from the way it is written, and when whatever is taken is proper and is written no deeper than what
it was taken from. Lists, maps, missing values and records of lawful parts are lawful.
-/

set_option autoImplicit false

namespace PromptChain.Json

/-- Writing and taking values of a type fit together on its proper values. -/
structure Lawful {α : Type} (write : α → Json) (take : Decoder α) (Proper : α → Prop) : Prop where
  take_write : ∀ a, Proper a → take (write a) = .ok a
  inRange_write : ∀ a, Proper a → (write a).InRange
  proper : ∀ v a, v.InRange → take v = .ok a → Proper a
  depth_le : ∀ v a, take v = .ok a → (write a).depth ≤ v.depth

variable {α : Type}

theorem Lawful.congr {write : α → Json} {take : Decoder α} {P Q : α → Prop}
    (h : Lawful write take P) (hiff : ∀ a, P a ↔ Q a) : Lawful write take Q := by
  rwa [show Q = P from funext fun a => propext (hiff a).symm]

theorem lawful_text : Lawful .text Decoder.text fun _ => True where
  take_write _ _ := rfl
  inRange_write _ _ := nofun
  proper _ _ _ _ := trivial
  depth_le v s h := by
    cases v with
    | text t => exact Nat.le_refl 0
    | null | bool | number | array | object => contradiction

private theorem lawful_integer (write : α → Int) {take : Int → α} {wanted : String}
    {least greatest : Int} (hleast : -2 ^ 63 ≤ least) (hgreatest : greatest ≤ 2 ^ 64 - 1)
    (hwrite : ∀ a, least ≤ write a ∧ write a ≤ greatest) (htake : ∀ a, take (write a) = a) :
    Lawful (fun a => .number (.integer (write a)))
      (fun v => do return take (← Decoder.integer wanted least greatest v)) fun _ => True where
  take_write a _ := by simp [Decoder.integer, hwrite a, htake]
  inRange_write a _ := by
    intro n hn
    rw [List.mem_singleton.1 hn]
    have hbounds := hwrite a
    exact ⟨by omega, by omega⟩
  proper _ _ _ _ := trivial
  depth_le _ _ _ := Nat.zero_le _

theorem lawful_word64 : Lawful ofWord64 Decoder.word64 fun _ => True := by
  refine lawful_integer (fun n : UInt64 => (n.toNat : Int)) (by omega) (by omega)
    (fun n => ?_) fun n => ?_
  · have hbound := n.toNat_lt
    omega
  · simp

theorem lawful_word32 : Lawful ofWord32 Decoder.word32 fun _ => True := by
  refine lawful_integer (fun n : UInt32 => (n.toNat : Int)) (by omega) (by omega)
    (fun n => ?_) fun n => ?_
  · have hbound := n.toNat_lt
    omega
  · simp

theorem lawful_signed32 : Lawful ofSigned32 Decoder.signed32 fun _ => True := by
  refine lawful_integer Int32.toInt (by omega) (by omega) (fun n => ?_) fun n => ?_
  · have hleast := n.le_toInt
    have hgreatest := n.toInt_lt
    omega
  · simp

theorem lawful_double : Lawful ofDouble Decoder.double fun _ => True where
  take_write _ _ := rfl
  inRange_write x _ := by
    intro n hn
    rw [List.mem_singleton.1 hn]
    trivial
  proper _ _ _ _ := trivial
  depth_le _ _ _ := Nat.zero_le _

theorem lawful_freeForm : Lawful (fun v => v) Decoder.freeForm fun v => v.InRange ∧ v.Tidy where
  take_write v hv := congrArg Except.ok hv.2
  inRange_write v hv := hv.1
  proper v w hv h := by
    rw [← Except.ok.inj h]
    exact ⟨eachNumber_tidied hv, tidy_tidied v⟩
  depth_le v w h := by
    rw [← Except.ok.inj h]
    exact depth_tidied_le v

variable {write : α → Json} {take : Decoder α} {Proper : α → Prop}

private theorem optional_eq_ok {v : Json} {o : Option α} (h : Decoder.optional take v = .ok o) :
    o = none ∨ ∃ a, o = some a ∧ take v = .ok a := by
  cases v with
  | null => exact .inl (Except.ok.inj h).symm
  | bool | number | text | array | object =>
    obtain ⟨a, ha, rfl⟩ := map_eq_ok.1 h
    exact .inr ⟨a, rfl, ha⟩

theorem Lawful.optional (h : Lawful write take Proper) (hnull : ∀ a, Proper a → write a ≠ .null) :
    Lawful (ofOption write) (.optional take) fun o => ∀ a ∈ o, Proper a where
  take_write o ho := by
    cases o with
    | none => rfl
    | some a =>
      have hread := h.take_write a (ho a rfl)
      have hne := hnull a (ho a rfl)
      rw [ofOption]
      cases hw : write a <;> simp_all [Decoder.optional]
  inRange_write o ho := by
    cases o with
    | none => exact nofun
    | some a => exact h.inRange_write a (ho a rfl)
  proper v o hv ho := by
    rcases optional_eq_ok ho with rfl | ⟨a, rfl, ha⟩
    · exact nofun
    · intro b hb
      rw [← Option.some.inj hb]
      exact h.proper v a hv ha
  depth_le v o ho := by
    rcases optional_eq_ok ho with rfl | ⟨a, rfl, ha⟩
    · exact Nat.zero_le _
    · exact h.depth_le v a ha

private theorem items_map_write {as : List α} (h : ∀ a ∈ as, take (write a) = .ok a) :
    Decoder.items take (as.map write) = .ok as := by
  induction as with
  | nil => rfl
  | cons a as ih =>
    rw [List.forall_mem_cons] at h
    rw [List.map_cons, Decoder.items, h.1, ok_bind, ih h.2]
    rfl

private theorem mem_of_items {vs : List Json} {as : List α} (h : Decoder.items take vs = .ok as) :
    ∀ a ∈ as, ∃ v ∈ vs, take v = .ok a := by
  induction vs generalizing as with
  | nil =>
    rw [← Except.ok.inj h]
    exact nofun
  | cons v vs ih =>
    obtain ⟨a, ha, h⟩ := bind_eq_ok.1 h
    obtain ⟨as', has, h⟩ := bind_eq_ok.1 h
    rw [← Except.ok.inj h, List.forall_mem_cons]
    refine ⟨⟨v, List.mem_cons_self, ha⟩, fun b hb => ?_⟩
    obtain ⟨w, hw, hb⟩ := ih has b hb
    exact ⟨w, List.mem_cons_of_mem v hw, hb⟩

theorem Lawful.list (h : Lawful write take Proper) :
    Lawful (fun as => .array (as.map write)) (.list take) fun as => ∀ a ∈ as, Proper a where
  take_write as has := items_map_write fun a ha => h.take_write a (has a ha)
  inRange_write as has := by
    refine eachNumber_array_iff.2 (List.forall_mem_map.2 fun a ha => ?_)
    exact h.inRange_write a (has a ha)
  proper v as hv has := by
    cases v with
    | array vs =>
      intro a ha
      obtain ⟨w, hw, htake⟩ := mem_of_items has a ha
      exact h.proper w a (eachNumber_array_iff.1 hv w hw) htake
    | null | bool | number | text | object => contradiction
  depth_le v as has := by
    cases v with
    | array vs =>
      rw [depth, depth, Nat.succ_le_succ_iff, depthItems_le_iff, List.forall_mem_map]
      intro a ha
      obtain ⟨w, hw, htake⟩ := mem_of_items has a ha
      exact (h.depth_le w a htake).trans ((depthItems_le_iff vs _).1 le_rfl w hw)
    | null | bool | number | text | object => contradiction

theorem depth_pos_of_list {v : Json} {as : List α} (h : Decoder.list take v = .ok as) :
    0 < v.depth := by
  cases v with
  | array vs => exact Nat.succ_pos _
  | null | bool | number | text | object => contradiction

theorem entries_map_write {as : List (String × α)} (h : ∀ e ∈ as, take (write e.2) = .ok e.2) :
    Decoder.entries take (as.map fun e => (e.1, write e.2)) = .ok as := by
  induction as with
  | nil => rfl
  | cons e as ih =>
    rw [List.forall_mem_cons] at h
    rw [List.map_cons, Decoder.entries, h.1, ok_bind, ih h.2]
    rfl

private theorem mem_of_entries {es : List (String × Json)} {as : List (String × α)}
    (h : Decoder.entries take es = .ok as) : ∀ a ∈ as, ∃ e ∈ es, take e.2 = .ok a.2 := by
  induction es generalizing as with
  | nil =>
    rw [← Except.ok.inj h]
    exact nofun
  | cons e es ih =>
    obtain ⟨a, ha, h⟩ := bind_eq_ok.1 h
    obtain ⟨as', has, h⟩ := bind_eq_ok.1 h
    rw [← Except.ok.inj h, List.forall_mem_cons]
    refine ⟨⟨e, List.mem_cons_self, ha⟩, fun b hb => ?_⟩
    obtain ⟨f, hf, hb⟩ := ih has b hb
    exact ⟨f, List.mem_cons_of_mem e hf, hb⟩

private theorem mem_of_map {es : List (String × Json)} {as : List (String × α)}
    (h : Decoder.map take (.object es) = .ok as) : ∀ a ∈ as, ∃ e ∈ es, take e.2 = .ok a.2 := by
  obtain ⟨as', has, h⟩ := bind_eq_ok.1 h
  rw [← Except.ok.inj h]
  exact fun a ha => mem_of_entries has a (Entries.mem_of_mem_ofList ha)

theorem Lawful.map (h : Lawful write take Proper) :
    Lawful (ofMap write) (.map take) fun es => Entries.Distinct es ∧ ∀ e ∈ es, Proper e.2 where
  take_write es hes := by
    rw [ofMap, Decoder.map, entries_map_write fun e he => h.take_write e.2 (hes.2 e he), ok_bind,
      Entries.ofList_eq_self hes.1]
    rfl
  inRange_write es hes := by
    refine eachNumber_object_iff.2 (List.forall_mem_map.2 fun e he => ?_)
    exact h.inRange_write e.2 (hes.2 e he)
  proper v es hv hes := by
    cases v with
    | object fs =>
      refine ⟨?_, fun e he => ?_⟩
      · obtain ⟨es', -, hes⟩ := bind_eq_ok.1 hes
        rw [← Except.ok.inj hes]
        exact Entries.distinct_ofList es'
      · obtain ⟨f, hf, htake⟩ := mem_of_map hes e he
        exact h.proper f.2 e.2 (eachNumber_object_iff.1 hv f hf) htake
    | null | bool | number | text | array => contradiction
  depth_le v es hes := by
    cases v with
    | object fs =>
      rw [ofMap, depth, depth, Nat.succ_le_succ_iff, depthEntries_le_iff, List.forall_mem_map]
      intro e he
      obtain ⟨f, hf, htake⟩ := mem_of_map hes e he
      exact (h.depth_le f.2 e.2 htake).trans ((depthEntries_le_iff fs _).1 le_rfl f hf)
    | null | bool | number | text | array => contradiction

theorem lawful_texts : Lawful ofTexts (.list .text) fun _ => True :=
  lawful_text.list.congr (by simp)

/-! ## Records -/

/-- The fields of a record are written and taken one by one; `write` gives the entries of a row. A
default is written no deeper than `spare`, unless it is written no deeper than what is taken
anyway. -/
structure LawfulFields {αs : List Type} (fields : ValueFields αs)
    (write : Row αs → List (String × Json)) (Proper : Row αs → Prop) (spare : Nat) : Prop where
  writtenAs : ∀ row, Proper row → fields.WrittenAs row (write row)
  inRange_write : ∀ row, Proper row → ∀ e ∈ write row, e.2.InRange
  proper : ∀ S row, (∀ v, S v → v.InRange) → fields.Given S row → Proper row
  depth_le : ∀ S row d, spare ≤ d → (∀ v, S v → v.depth ≤ d) → fields.Given S row →
    depthEntries (write row) ≤ d

variable {αs : List Type} {fields : ValueFields αs} {writeRow : Row αs → List (String × Json)}
  {ProperRow : Row αs → Prop} {spare : Nat}

theorem lawfulFields_nil (spare : Nat) : LawfulFields .nil (fun _ => []) (fun _ => True) spare where
  writtenAs _ _ := rfl
  inRange_write _ _ := nofun
  proper _ _ _ _ := trivial
  depth_le _ _ _ _ _ _ := Nat.zero_le _

theorem read_required (name : String) {v : Json} {a : α} {t : Unit} :
    (required name take).read v = .ok (a, t) ↔ take v = .ok a := by
  rw [required, bind_eq_ok]
  constructor
  · rintro ⟨b, hb, h⟩
    rw [hb, (ok_pair_inj h).1]
  · exact fun h => ⟨a, h, rfl⟩

theorem LawfulFields.defaulted (hs : LawfulFields fields writeRow ProperRow spare)
    (h : Lawful write take Proper) (name : String) (default : α) (hproper : Proper default)
    (hdepth : (write default).depth ≤ spare) :
    LawfulFields (.cons (Json.defaulted name default take) fields)
      (fun row => (name, write row.1) :: writeRow row.2) (fun row => Proper row.1 ∧ ProperRow row.2)
      spare where
  writtenAs row hrow :=
    ⟨rfl, (read_required name).2 (h.take_write row.1 hrow.1), hs.writtenAs row.2 hrow.2⟩
  inRange_write row hrow :=
    List.forall_mem_cons.2 ⟨h.inRange_write row.1 hrow.1, hs.inRange_write row.2 hrow.2⟩
  proper S row hS hrow := by
    obtain ⟨hgiven, hrow⟩ := hrow
    refine ⟨?_, hs.proper S row.2 hS hrow⟩
    rcases hgiven with ⟨v, t, hv, hread⟩ | habsent
    · exact h.proper v row.1 (hS v hv) ((read_required name).1 hread)
    · exact Option.some.inj habsent ▸ hproper
  depth_le S row d hd hS hrow := by
    obtain ⟨hgiven, hrow⟩ := hrow
    refine Nat.max_le.2 ⟨?_, hs.depth_le S row.2 d hd hS hrow⟩
    rcases hgiven with ⟨v, t, hv, hread⟩ | habsent
    · exact (h.depth_le v row.1 ((read_required name).1 hread)).trans (hS v hv)
    · exact Option.some.inj habsent ▸ hdepth.trans hd

theorem LawfulFields.required (hs : LawfulFields fields writeRow ProperRow spare)
    (h : Lawful write take Proper) (name : String) :
    LawfulFields (.cons (Json.required name take) fields)
      (fun row => (name, write row.1) :: writeRow row.2) (fun row => Proper row.1 ∧ ProperRow row.2)
      spare where
  writtenAs row hrow :=
    ⟨rfl, (read_required name).2 (h.take_write row.1 hrow.1), hs.writtenAs row.2 hrow.2⟩
  inRange_write row hrow :=
    List.forall_mem_cons.2 ⟨h.inRange_write row.1 hrow.1, hs.inRange_write row.2 hrow.2⟩
  proper S row hS hrow := by
    obtain ⟨⟨v, t, hv, hread⟩ | habsent, hrow⟩ := hrow
    · exact ⟨h.proper v row.1 (hS v hv) ((read_required name).1 hread), hs.proper S row.2 hS hrow⟩
    · contradiction
  depth_le S row d hd hS hrow := by
    obtain ⟨⟨v, t, hv, hread⟩ | habsent, hrow⟩ := hrow
    · refine Nat.max_le.2 ⟨?_, hs.depth_le S row.2 d hd hS hrow⟩
      exact (h.depth_le v row.1 ((read_required name).1 hread)).trans (hS v hv)
    · contradiction

theorem LawfulFields.lawful (hs : LawfulFields fields writeRow ProperRow spare) (name : String)
    (ofRow : Row αs → α) (hnames : fields.names.Nodup)
    (hspare : ∀ S row d, (∀ v, S v → v.depth ≤ d) → fields.Given S row → spare ≤ d)
    (htake : ∀ v, take v = do return ofRow (← ValueFields.ofJson name fields v))
    (hwrite : ∀ row, write (ofRow row) = .object (writeRow row))
    (hproper : ∀ a, Proper a ↔ ∃ row, ProperRow row ∧ ofRow row = a) :
    Lawful write take Proper where
  take_write a ha := by
    obtain ⟨row, hrow, rfl⟩ := (hproper a).1 ha
    rw [htake, hwrite, ValueFields.ofJson_writtenAs name hnames (hs.writtenAs row hrow)]
    rfl
  inRange_write a ha := by
    obtain ⟨row, hrow, rfl⟩ := (hproper a).1 ha
    rw [hwrite]
    exact eachNumber_object_iff.2 (hs.inRange_write row hrow)
  proper v a hv h := by
    rw [htake] at h
    obtain ⟨row, hrow, h⟩ := bind_eq_ok.1 h
    obtain ⟨-, hgiven⟩ := ValueFields.given_ofJson hrow
    rw [← Except.ok.inj h, hproper]
    exact ⟨row, hs.proper _ row (fun w hw => eachNumber_of_mem_members hv hw) hgiven, rfl⟩
  depth_le v a h := by
    rw [htake] at h
    obtain ⟨row, hrow, h⟩ := bind_eq_ok.1 h
    obtain ⟨hpos, hgiven⟩ := ValueFields.given_ofJson hrow
    have hmembers : ∀ w ∈ v.members, w.depth ≤ v.depth - 1 := fun w hw => by
      have := depth_lt_of_mem_members hw
      omega
    have hentries := hs.depth_le _ row _ (hspare _ row _ hmembers hgiven) hmembers hgiven
    rw [← Except.ok.inj h, hwrite, depth]
    omega

variable {κ : Type} {variants : Variants κ}

theorem splitEntries_cons (kind : Option κ) (done : List (String × Json)) (e : String × Json)
    (es : List (String × Json)) :
    variants.splitEntries kind done (e :: es) =
      if e.1 = variants.tag then
        match kind with
        | some _ => misfit (.duplicateField e.1)
        | none => do variants.splitEntries (some (← variants.ofTag e.2)) done es
      else variants.splitEntries kind (e :: done) es := by
  cases kind <;> rfl

private theorem mem_of_splitEntries {kind : Option κ} {done es : List (String × Json)} {k : κ}
    {v : Json} (h : variants.splitEntries kind done es = .ok (k, v)) :
    ∃ fs, v = .object fs ∧ ∀ e ∈ fs, e ∈ done ∨ e ∈ es := by
  induction es generalizing kind done with
  | nil =>
    cases kind with
    | none => contradiction
    | some k' =>
      obtain ⟨-, rfl⟩ := ok_pair_inj h
      exact ⟨_, rfl, fun e he => .inl (List.mem_reverse.1 he)⟩
  | cons e es ih =>
    rw [splitEntries_cons] at h
    split at h
    · cases kind with
      | some k' => contradiction
      | none =>
        obtain ⟨k', -, h⟩ := bind_eq_ok.1 h
        obtain ⟨fs, hv, hfs⟩ := ih h
        exact ⟨fs, hv, fun e he => (hfs e he).imp_right (List.mem_cons_of_mem _)⟩
    · obtain ⟨fs, hv, hfs⟩ := ih h
      refine ⟨fs, hv, fun e he => ?_⟩
      rcases hfs e he with hdone | hes
      · rcases List.mem_cons.1 hdone with rfl | hdone
        · exact .inr List.mem_cons_self
        · exact .inl hdone
      · exact .inr (List.mem_cons_of_mem _ hes)

theorem depth_le_of_split {v fields : Json} {k : κ} (h : variants.split v = .ok (k, fields)) :
    fields.depth ≤ v.depth ∧ (v.InRange → fields.InRange) := by
  cases v with
  | object es =>
    obtain ⟨fs, rfl, hfs⟩ := mem_of_splitEntries h
    have hmem : ∀ e ∈ fs, e ∈ es := fun e he => (hfs e he).resolve_left List.not_mem_nil
    constructor
    · rw [depth, depth, Nat.succ_le_succ_iff, depthEntries_le_iff]
      exact fun e he => (depthEntries_le_iff es _).1 le_rfl e (hmem e he)
    · exact fun hv => eachNumber_object_iff.2 fun e he => eachNumber_object_iff.1 hv e (hmem e he)
  | array vs =>
    cases vs with
    | nil => contradiction
    | cons w vs =>
      obtain ⟨k', -, h⟩ := bind_eq_ok.1 h
      obtain ⟨-, rfl⟩ := ok_pair_inj h
      constructor
      · rw [depth, depth, Nat.succ_le_succ_iff]
        exact Nat.le_max_right _ _
      · intro hv
        exact eachNumber_array_iff.2 (List.forall_mem_cons.1 (eachNumber_array_iff.1 hv)).2
  | null | bool | number | text => contradiction

theorem splitEntries_others {k : κ} {done es : List (String × Json)}
    (h : variants.tag ∉ Entries.keys es) :
    variants.splitEntries (some k) done es = .ok (k, .object (done.reverse ++ es)) := by
  induction es generalizing done with
  | nil => simp [Variants.splitEntries]
  | cons e es ih =>
    simp only [Entries.keys, List.map_cons, List.mem_cons, not_or] at h ih
    rw [Variants.splitEntries, if_neg (Ne.symm h.1), ih h.2]
    simp

def taggedWith (variants : Variants κ) (name : String) (es : List (String × Json)) : Json :=
  .object ((variants.tag, .text name) :: es)

def untagged : Json → List (String × Json)
  | .object (_ :: es) => es
  | _ => []

@[simp] theorem depth_taggedWith (name : String) (es : List (String × Json)) :
    (taggedWith variants name es).depth = (object es).depth := by
  simp [taggedWith, depth, depthEntries]

theorem split_taggedWith {name : String} {k : κ} {es : List (String × Json)}
    (hname : variants.ofName name = .ok k) (htag : variants.tag ∉ Entries.keys es) :
    variants.split (taggedWith variants name es) = .ok (k, .object es) := by
  rw [taggedWith, Variants.split, Variants.splitEntries, if_pos rfl, Variants.ofTag, hname]
  exact splitEntries_others htag

theorem Lawful.tagged {kind : α → κ} {name : κ → String} {takeFields : κ → Decoder α}
    (hwrite : ∀ a, write a = taggedWith variants (name (kind a)) (untagged (write a)))
    (hname : ∀ k, variants.ofName (name k) = .ok k)
    (htag : ∀ a, variants.tag ∉ Entries.keys (untagged (write a)))
    (h : ∀ k, Lawful (fun a => .object (untagged (write a))) (takeFields k)
      fun a => Proper a ∧ kind a = k) :
    Lawful write
      (fun v => do
        let (k, fields) ← variants.split v
        takeFields k fields) Proper where
  take_write a ha := by
    rw [hwrite, split_taggedWith (hname (kind a)) (htag a)]
    exact (h (kind a)).take_write a ⟨ha, rfl⟩
  inRange_write a ha := by
    have hfields := eachNumber_object_iff.1 ((h (kind a)).inRange_write a ⟨ha, rfl⟩)
    rw [hwrite]
    exact eachNumber_object_iff.2 (List.forall_mem_cons.2 ⟨nofun, hfields⟩)
  proper v a hv ha := by
    obtain ⟨⟨k, fields⟩, hsplit, ha⟩ := bind_eq_ok.1 ha
    exact ((h k).proper fields a ((depth_le_of_split hsplit).2 hv) ha).1
  depth_le v a ha := by
    obtain ⟨⟨k, fields⟩, hsplit, ha⟩ := bind_eq_ok.1 ha
    have hfields := (h k).depth_le fields a ha
    have hsame : (write a).depth = (object (untagged (write a))).depth := by
      rw [hwrite, depth_taggedWith]
      rfl
    rw [hsame]
    exact hfields.trans (depth_le_of_split hsplit).1

end PromptChain.Json
