import PromptChain.Generator.Wiring
import PromptChain.Proofs.Interface.Membership
import PromptChain.Proofs.Node.BranchLabels
import PromptChain.Proofs.Node.Places

/-!
# Keys of wired nodes

Whatever is drawn, a wired node keeps the id and the kind that it had and passes `isWired`. A leaf
that does needs no keys but those of the vocabulary, and gives none but these and the results of a
look-up.
-/

set_option autoImplicit false

namespace PromptChain.Generator

section Draws

variable {α β : Type}

@[simp] theorem drawing_bind (m : Drawing α) (f : α → Drawing β) (d : Draws) :
    (m >>= f) d = f (m d).1 (m d).2 := rfl

@[simp] theorem drawing_pure (a : α) (d : Draws) : (pure a : Drawing α) d = (a, d) := rfl

theorem drawBelow_lt {bound : Nat} (h : 0 < bound) (d : Draws) : (drawBelow bound d).1 < bound :=
  Nat.mod_lt _ h

theorem exists_drawFrom? {l : List α} (h : l ≠ []) (d : Draws) :
    ∃ a ∈ l, ∃ d', drawFrom? l d = (some a, d') := by
  have hlt := drawBelow_lt (List.length_pos_iff.2 h) d
  refine ⟨l[(drawBelow l.length d).1], List.getElem_mem hlt, (drawBelow l.length d).2, ?_⟩
  rw [drawFrom?, drawing_bind, List.getElem?_eq_getElem hlt]
  rfl

theorem skipOver_le (place : Nat) (l : List Nat) : skipOver place l ≤ place + l.length := by
  induction l generalizing place with
  | nil => exact Nat.le_refl place
  | cons n ns ih =>
    have hle := ih (place + 1)
    rw [skipOver, List.length_cons]
    split <;> omega

theorem le_skipOver (place : Nat) (l : List Nat) : place ≤ skipOver place l := by
  induction l generalizing place with
  | nil => exact Nat.le_refl place
  | cons n ns ih =>
    have hle := ih (place + 1)
    rw [skipOver]
    split <;> omega

theorem skipOver_not_mem {l : List Nat} (h : l.Pairwise (· < ·)) (place : Nat) :
    skipOver place l ∉ l := by
  induction l generalizing place with
  | nil => exact List.not_mem_nil
  | cons n ns ih =>
    obtain ⟨hless, hns⟩ := List.pairwise_cons.1 h
    rw [skipOver, List.mem_cons, not_or]
    split
    · have hle := le_skipOver (place + 1) ns
      exact ⟨by omega, ih hns (place + 1)⟩
    · exact ⟨by omega, fun hmem => by have hlt := hless place hmem; omega⟩

theorem perm_insertAscending (n : Nat) (l : List Nat) : (insertAscending n l).Perm (n :: l) := by
  induction l with
  | nil => exact .refl _
  | cons m ms ih =>
    rw [insertAscending]
    split
    · exact .refl _
    · exact (ih.cons m).trans (.swap n m ms)

theorem pairwise_insertAscending {n : Nat} {l : List Nat} (h : l.Pairwise (· < ·)) (hn : n ∉ l) :
    (insertAscending n l).Pairwise (· < ·) := by
  induction l with
  | nil => exact List.pairwise_singleton ..
  | cons m ms ih =>
    obtain ⟨hless, hms⟩ := List.pairwise_cons.1 h
    rw [List.mem_cons, not_or] at hn
    rw [insertAscending]
    split
    · refine List.pairwise_cons.2 ⟨List.forall_mem_cons.2 ⟨by omega, fun k hk => ?_⟩, h⟩
      have hlt := hless k hk
      omega
    · refine List.pairwise_cons.2 ⟨fun k hk => ?_, ih hms hn.2⟩
      rcases List.mem_cons.1 ((perm_insertAscending n ms).mem_iff.1 hk) with rfl | hk
      · omega
      · exact hless k hk

theorem length_drawDistinct (bound count : Nat) (drawn : List Nat) (d : Draws) :
    (drawDistinct bound count drawn d).1.length = count := by
  induction count generalizing drawn d with
  | zero => rfl
  | succ count ih => exact congrArg (· + 1) (ih _ _)

theorem nodup_drawDistinct (bound count : Nat) {drawn : List Nat} (h : drawn.Pairwise (· < ·))
    (d : Draws) : (drawDistinct bound count drawn d).1.Nodup ∧
      ∀ n ∈ (drawDistinct bound count drawn d).1, n ∉ drawn := by
  induction count generalizing drawn d with
  | zero => exact ⟨List.nodup_nil, nofun⟩
  | succ count ih =>
    rw [drawDistinct, drawing_bind, drawing_bind, drawing_pure]
    have hnew := skipOver_not_mem h (drawBelow (bound - drawn.length) d).1
    obtain ⟨hnodup, hout⟩ :=
      ih (pairwise_insertAscending h hnew) (drawBelow (bound - drawn.length) d).2
    simp only [(perm_insertAscending _ drawn).mem_iff, List.mem_cons, not_or] at hout
    exact ⟨List.nodup_cons.2 ⟨fun hmem => (hout _ hmem).1 rfl, hnodup⟩,
      List.forall_mem_cons.2 ⟨hnew, fun n hn => (hout n hn).2⟩⟩

theorem lt_of_mem_drawDistinct {bound count : Nat} {drawn : List Nat}
    (h : count + drawn.length ≤ bound) (d : Draws) :
    ∀ n ∈ (drawDistinct bound count drawn d).1, n < bound := by
  induction count generalizing drawn d with
  | zero => exact nofun
  | succ count ih =>
    rw [drawDistinct, drawing_bind, drawing_bind, drawing_pure]
    refine List.forall_mem_cons.2 ⟨?_, fun n hn => ih ?_ _ n hn⟩
    · have hleft : 0 < bound - drawn.length := by omega
      have hlt := drawBelow_lt hleft d
      have hle := skipOver_le (drawBelow (bound - drawn.length) d).1 drawn
      omega
    · rw [(perm_insertAscending _ drawn).length_eq, List.length_cons]
      omega

end Draws

variable {keys : Nat}

def InVocabulary (keys : Nat) (key : String) : Prop := ∃ i < keys, key = keyText i

private theorem foldl_digits (n : Nat) :
    (Decimal.naturalText n).foldl (fun n d => n * 10 + (d.toNat - '0'.toNat)) 0 = n := by
  conv_rhs => rw [← Nat.ofDigitChars_ten_toDigits (n := n), Nat.ofDigitChars_eq_foldl]
  exact congrArg (List.foldl · 0 _) (funext₂ fun m d => by rw [Nat.mul_comm])

theorem keyText_injective : Function.Injective keyText := by
  intro i j h
  have hdigits := congrArg String.toList h
  simp only [keyText, String.toList_append, List.append_cancel_left_eq, String.toList_ofList]
    at hdigits
  exact Decimal.naturalText_injective hdigits

theorem isKey_iff {key : String} : isKey keys key = true ↔ InVocabulary keys key := by
  simp only [isKey, Bool.and_eq_true, decide_eq_true_eq]
  constructor
  · rintro ⟨hlt, hkey⟩
    exact ⟨_, hlt, hkey⟩
  · rintro ⟨i, hi, rfl⟩
    have hdrop : (keyText i).toList.drop 4 = Decimal.naturalText i := by
      simp [keyText]
    rw [hdrop, foldl_digits]
    exact ⟨hi, rfl⟩

theorem isKey_drawKey (h : 0 < keys) (d : Draws) : isKey keys (drawKey keys d).1 = true :=
  isKey_iff.2 ⟨_, drawBelow_lt h d, rfl⟩

theorem isSample_drawSample (d : Draws) : isSample keys (drawSample keys d).1 = true := by
  have hlt : (drawBelow (min sampleSize keys + 1) d).1 < min sampleSize keys + 1 :=
    drawBelow_lt (Nat.succ_pos _) d
  have hle : (drawBelow (min sampleSize keys + 1) d).1 ≤ keys :=
    Nat.le_trans (Nat.le_of_lt_succ hlt) (Nat.min_le_right _ _)
  simp only [isSample, drawSample, drawing_bind, drawing_pure, Bool.and_eq_true, decide_eq_true_eq,
    List.length_map, length_drawDistinct, List.all_eq_true, List.forall_mem_map]
  refine ⟨⟨?_, fun i hi => isKey_iff.2 ⟨i, lt_of_mem_drawDistinct hle _ i hi, rfl⟩⟩, ?_⟩
  · exact Nat.le_trans (Nat.le_of_lt_succ hlt) (Nat.min_le_left _ _)
  · exact decide_eq_true ((nodup_drawDistinct _ _ .nil _).1.map keyText_injective)

theorem inVocabulary_of_isSample {sample : List String} (h : isSample keys sample = true) :
    ∀ key ∈ sample, InVocabulary keys key := by
  simp only [isSample, Bool.and_eq_true, List.all_eq_true] at h
  exact fun key hkey => isKey_iff.1 (h.1.2 key hkey)

def resultsKey : String := "results"

/-- A node needs keys of a vocabulary only, and gives only such keys and results. -/
structure DrawsOn (keys : Nat) (n : Node) : Prop where
  needs : ∀ key, n.Needs key → InVocabulary keys key
  gives : ∀ key, n.Gives key → key = resultsKey ∨ InVocabulary keys key

theorem drawsOn_of_leaves {t : Node} (h : ∀ l : Leaf, .leaf l ∈ t.heads → DrawsOn keys (.leaf l)) :
    DrawsOn keys t := by
  induction t using Node.induction_children with
  | step t ih =>
    have hchildren : ∀ c ∈ t.children, DrawsOn keys c := fun c hc =>
      ih c hc fun l hl => h l (by
        rw [Node.heads_eq]
        exact List.mem_cons_of_mem _ (List.mem_flatMap.2 ⟨c, hc, hl⟩))
    cases t with
    | leaf l => exact h l List.mem_cons_self
    | sequence i ins outs steps =>
      constructor
      · intro key hkey
        obtain ⟨⟨c, hc, hneeds⟩, -⟩ := Node.needs_sequence.1 hkey
        exact (hchildren c hc).needs key hneeds
      · intro key hkey
        obtain ⟨c, hc, hgives⟩ := Node.gives_sequence.1 hkey
        exact (hchildren c hc).gives key hgives
    | choice i label branches fallback =>
      constructor
      · intro key hkey
        obtain ⟨c, hc, hneeds⟩ := Node.needs_choice.1 hkey
        exact (hchildren c hc).needs key hneeds
      · intro key hkey
        obtain ⟨hsome, hall⟩ := Node.gives_choice.1 hkey
        obtain ⟨c, hc⟩ := List.exists_mem_of_ne_nil _ hsome
        exact (hchildren c hc).gives key (hall c hc)

private theorem numResults_le {n : Nat} (h : n < mostResults) :
    1 ≤ (n + 1).toUInt32 ∧ (n + 1).toUInt32.toNat ≤ mostResults := by
  have hword : (n + 1).toUInt32.toNat = n + 1 :=
    Nat.mod_eq_of_lt (by unfold mostResults at h; omega)
  rw [UInt32.le_iff_toNat_le, hword]
  exact ⟨Nat.le_add_left 1 n, h⟩

/-- Whatever is drawn, a new leaf of any kind is wired. -/
theorem isWiredLeaf_wireLeaf (h : 0 < keys) {l : Leaf} {kind : Kind} {id : NodeId}
    (hl : .leaf l = Node.blank kind id) (d : Draws) :
    isWiredLeaf keys (wireLeaf keys l d).1 = true := by
  have hsample := @isSample_drawSample keys
  have hkey := isKey_drawKey h
  cases kind <;> cases hl <;>
    simp only [wireLeaf, drawing_bind, drawing_pure, isWiredLeaf, hsample, hkey, Entries.put,
      decide_true, Bool.and_true]
  case vectorSearch =>
    obtain ⟨hleast, hmost⟩ := numResults_le (drawBelow_lt (by decide) (drawSample keys d).2)
    simp only [hleast, hmost, decide_true, List.isEmpty_nil, Bool.and_true, Bool.true_and]
    rfl

theorem isWired_wire (h : 0 < keys) (kind : Kind) (id : NodeId) (d : Draws) :
    isWired keys (wire keys (.blank kind id) d).1 = true := by
  cases hkind : Node.blank kind id with
  | leaf l => exact isWiredLeaf_wireLeaf h hkind.symm d
  | sequence i ins outs steps => rfl
  | choice i key branches fallback =>
    cases kind <;> cases hkind
    simp [wire, isWired, isKey_drawKey h]

private theorem drawsOn_leaf {l : Leaf} {inputs : List String}
    (hl : l.interface.inputs = .ofList inputs) (hinputs : ∀ key ∈ inputs, InVocabulary keys key)
    (houtputs : ∀ key ∈ l.interface.outputs.items, key = resultsKey ∨ InVocabulary keys key) :
    DrawsOn keys (.leaf l) where
  needs key hkey := by
    rw [Node.Needs, Node.interface, hl, OrderedSet.mem_ofList] at hkey
    exact hinputs key hkey
  gives := houtputs

/-- A wired leaf needs and gives keys of the vocabulary, and results. -/
theorem drawsOn_of_isWiredLeaf {l : Leaf} (h : isWiredLeaf keys l = true) :
    DrawsOn keys (.leaf l) := by
  cases l with
  | prompt p | chat p =>
    simp only [isWiredLeaf, Bool.and_eq_true, and_assoc] at h
    obtain ⟨hinputs, hkey, -⟩ := h
    refine drawsOn_leaf rfl (inVocabulary_of_isSample hinputs) fun key hmem => .inr ?_
    rw [List.mem_singleton.1 hmem]
    exact isKey_iff.1 hkey
  | api a =>
    simp only [isWiredLeaf, Bool.and_eq_true, and_assoc, decide_eq_true_eq] at h
    obtain ⟨hinputs, -, -, -, -, hresults⟩ := h
    refine drawsOn_leaf rfl (inVocabulary_of_isSample hinputs) fun key hmem => .inl ?_
    rw [List.mem_singleton.1 hmem]
    exact hresults
  | vectorSearch v =>
    simp only [isWiredLeaf, Bool.and_eq_true, and_assoc, decide_eq_true_eq] at h
    obtain ⟨hinputs, -, -, -, -, -, -, -, -, hresults⟩ := h
    refine drawsOn_leaf rfl (inVocabulary_of_isSample hinputs) fun key hmem => .inl ?_
    rw [List.mem_singleton.1 hmem]
    exact hresults
  | reformat r =>
    simp only [isWiredLeaf, Bool.and_eq_true] at h
    obtain ⟨hinputs, hformatters⟩ := h
    refine drawsOn_leaf rfl (inVocabulary_of_isSample hinputs) fun key hmem => .inr ?_
    split at hformatters
    · next name text hform =>
      rw [Bool.and_eq_true] at hformatters
      have hkey : key = name := by
        simpa [Leaf.interface, hform, Entries.keys, OrderedSet.mem_ofList] using hmem
      rw [hkey]
      exact isKey_iff.1 hformatters.1
    · contradiction
  | transform f =>
    simp only [isWiredLeaf, Bool.and_eq_true, and_assoc] at h
    obtain ⟨hinputs, houtputs, -⟩ := h
    refine drawsOn_leaf rfl (inVocabulary_of_isSample hinputs) fun key hmem => .inr ?_
    exact inVocabulary_of_isSample houtputs key ((OrderedSet.mem_ofList key _).1 hmem)

/-- A node that stands for a new one, wired with a vocabulary. -/
structure Wired (keys : Nat) (new wired : Node) : Prop where
  id_eq : wired.id = new.id
  kind_eq : wired.kind = new.kind
  heads_eq : wired.heads = [wired]
  isWired : isWired keys wired = true

theorem wired_wire (h : 0 < keys) (kind : Kind) (id : NodeId) (d : Draws) :
    Wired keys (.blank kind id) (wire keys (.blank kind id) d).1 := by
  have hwired := isWired_wire h kind id d
  cases kind <;> exact ⟨rfl, rfl, rfl, hwired⟩

end PromptChain.Generator
