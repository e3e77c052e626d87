import PromptChain.Proofs.Node.Search

/-!
# Where a change takes place

A change at an id replaces the first node that bears it, where a node comes before its children and
a fallback before the branches. `ReplacesFirst` says this without a search: everything around that
node is the same before and after, and what is searched before it does not bear the id.
-/

set_option autoImplicit false

namespace PromptChain.Node

/-- Two trees that differ in the first node with an id only: where one has `old`, the other has
`new`. -/
inductive ReplacesFirst (target : NodeId) (old new : Node) : Node → Node → Prop where
  | root : old.id = target → ReplacesFirst target old new old new
  | step {i : NodeId} {ins outs : List String} {before after : List Node} {n n' : Node} :
      i ≠ target → (∀ m ∈ before, target ∉ m.ids) → ReplacesFirst target old new n n' →
      ReplacesFirst target old new (sequence i ins outs (before ++ n :: after))
        (sequence i ins outs (before ++ n' :: after))
  | fallback {i : NodeId} {key : String} {branches : List (String × Node)} {n n' : Node} :
      i ≠ target → ReplacesFirst target old new n n' →
      ReplacesFirst target old new (choice i key branches (some n))
        (choice i key branches (some n'))
  | branch {i : NodeId} {key label : String} {before after : List (String × Node)} {n n' : Node}
      {fallback : Option Node} :
      i ≠ target → (∀ m ∈ fallback, target ∉ m.ids) → (∀ b ∈ before, target ∉ b.2.ids) →
      ReplacesFirst target old new n n' →
      ReplacesFirst target old new (choice i key (before ++ (label, n) :: after) fallback)
        (choice i key (before ++ (label, n') :: after) fallback)

section lists

variable {α : Type} {g : α → Option α}

/-- Change the first element that can be changed; nothing if none can. -/
def changeFirst? (g : α → Option α) : List α → Option (List α)
  | [] => none
  | a :: as => match g a with
    | some b => some (b :: as)
    | none => (changeFirst? g as).map (a :: ·)

theorem changeFirst?_eq_some_iff {l l' : List α} : changeFirst? g l = some l' ↔
    ∃ before a a' after, l = before ++ a :: after ∧ l' = before ++ a' :: after ∧
      (∀ b ∈ before, g b = none) ∧ g a = some a' := by
  induction l generalizing l' with
  | nil => simp [changeFirst?]
  | cons c cs ih =>
    rw [changeFirst?]
    cases hc : g c with
    | some c' =>
      constructor
      · intro h
        obtain rfl := Option.some.inj h
        exact ⟨[], c, c', cs, rfl, rfl, nofun, hc⟩
      · rintro ⟨before, a, a', after, hsplit, rfl, hbefore, ha⟩
        cases before with
        | nil =>
          obtain ⟨rfl, rfl⟩ := List.cons.inj hsplit
          obtain rfl := Option.some.inj (hc.symm.trans ha)
          rfl
        | cons b before =>
          -- The first element can be changed, so none before the changed one can be it.
          obtain ⟨rfl, -⟩ := List.cons.inj hsplit
          have hnone := hbefore c List.mem_cons_self
          rw [hc] at hnone
          contradiction
    | none =>
      simp only [Option.map_eq_some_iff, ih]
      constructor
      · rintro ⟨-, ⟨before, a, a', after, rfl, rfl, hbefore, ha⟩, rfl⟩
        exact ⟨c :: before, a, a', after, rfl, rfl, List.forall_mem_cons.2 ⟨hc, hbefore⟩, ha⟩
      · rintro ⟨before, a, a', after, hsplit, rfl, hbefore, ha⟩
        cases before with
        | nil =>
          obtain ⟨rfl, -⟩ := List.cons.inj hsplit
          rw [hc] at ha
          contradiction
        | cons b before =>
          obtain ⟨rfl, rfl⟩ := List.cons.inj hsplit
          exact ⟨_, ⟨before, a, a', after, rfl, rfl, (List.forall_mem_cons.1 hbefore).2, ha⟩, rfl⟩

end lists

variable {target : NodeId} {f : Node → Node}

theorem changeInSteps_eq (steps : List Node) :
    changeInSteps target f steps = changeFirst? (change? target f) steps := by
  induction steps with
  | nil => rfl
  | cons n ns ih =>
    rw [changeInSteps, changeFirst?, ih]
    cases change? target f n <;> rfl

theorem changeInBranches_eq (branches : List (String × Node)) :
    changeInBranches target f branches =
      changeFirst? (fun b => (change? target f b.2).map (b.1, ·)) branches := by
  induction branches with
  | nil => rfl
  | cons b bs ih =>
    rw [changeInBranches, changeFirst?, ih]
    cases change? target f b.2 <;> rfl

theorem change?_eq_none_iff {t : Node} : change? target f t = none ↔ target ∉ t.ids := by
  rw [← find?_eq_none_iff]
  constructor
  · intro h
    rw [Option.eq_none_iff_forall_ne_some]
    intro m hm
    obtain ⟨rest, -, hchanged⟩ := exists_ids_of_find? hm
    obtain ⟨t', ht', -⟩ := hchanged f
    rw [h] at ht'
    contradiction
  · intro h
    exact change?_of_find?_eq_none h f

theorem find?_of_replacesFirst {old new t t' : Node} (h : ReplacesFirst target old new t t') :
    find? target t = some old := by
  induction h with
  | root hid => rw [find?_eq, if_pos hid]
  | @step i ins outs before after n n' hroot hbefore _ ih =>
    have hnone : before.findSome? (find? target) = none :=
      List.findSome?_eq_none_iff.2 fun m hm => find?_eq_none_iff.2 (hbefore m hm)
    rw [find?, if_neg hroot, findInSteps_eq, List.findSome?_append, hnone, List.findSome?_cons, ih]
    rfl
  | fallback hroot _ ih => rw [find?, if_neg hroot, findInFallback, ih]
  | @branch i key label before after n n' fallback hroot hfallback hbefore _ ih =>
    have hnone : (before.map (·.2)).findSome? (find? target) = none := by
      rw [List.findSome?_eq_none_iff, List.forall_mem_map]
      exact fun b hb => find?_eq_none_iff.2 (hbefore b hb)
    have hmissing : findInFallback target fallback = none := by
      cases fallback with
      | none => rfl
      | some m => exact find?_eq_none_iff.2 (hfallback m rfl)
    rw [find?, if_neg hroot, hmissing, findInBranches_eq, List.map_append,
      List.findSome?_append, hnone, List.map_cons, List.findSome?_cons, ih]
    rfl

/-- A change replaces the first node with the id by what becomes of it, and nothing else. -/
theorem change?_eq_some_iff {t t' : Node} :
    change? target f t = some t' ↔ ∃ m, ReplacesFirst target m (f m) t t' := by
  constructor
  · intro h
    induction t generalizing t' with
    | leaf l =>
      rw [change?] at h
      split at h
      · next hid =>
        obtain rfl := Option.some.inj h
        exact ⟨leaf l, .root hid⟩
      · contradiction
    | sequence i ins outs steps ih =>
      rw [change?] at h
      split at h
      · next hid =>
        obtain rfl := Option.some.inj h
        exact ⟨_, .root hid⟩
      · next hid =>
        obtain ⟨steps', hsteps, rfl⟩ := Option.map_eq_some_iff.1 h
        rw [changeInSteps_eq, changeFirst?_eq_some_iff] at hsteps
        obtain ⟨before, n, n', after, rfl, rfl, hbefore, hn⟩ := hsteps
        obtain ⟨m, hm⟩ := ih n (by simp) hn
        exact ⟨m, .step hid (fun k hk => change?_eq_none_iff.1 (hbefore k hk)) hm⟩
    | choice i key branches fallback ihb ihf =>
      rw [change?] at h
      split at h
      · next hid =>
        obtain rfl := Option.some.inj h
        exact ⟨_, .root hid⟩
      · next hid =>
        split at h
        · next n' hfallback =>
          obtain rfl := Option.some.inj h
          cases fallback with
          | none => contradiction
          | some n =>
            obtain ⟨m, hm⟩ := ihf n rfl hfallback
            exact ⟨m, .fallback hid hm⟩
        · next hfallback =>
          obtain ⟨branches', hbranches, rfl⟩ := Option.map_eq_some_iff.1 h
          rw [changeInBranches_eq, changeFirst?_eq_some_iff] at hbranches
          obtain ⟨before, ⟨label, n⟩, b', after, rfl, rfl, hbefore, hchanged⟩ := hbranches
          obtain ⟨n', hn, rfl⟩ := Option.map_eq_some_iff.1 hchanged
          obtain ⟨m, hm⟩ := ihb (label, n) (by simp) hn
          refine ⟨m, .branch hid (fun k hk => ?_) (fun b hb => ?_) hm⟩
          · obtain rfl := Option.mem_def.1 hk
            exact change?_eq_none_iff.1 hfallback
          · exact change?_eq_none_iff.1 (Option.map_eq_none_iff.1 (hbefore b hb))
  · rintro ⟨m, h⟩
    induction h with
    | root hid =>
      cases m with
      | leaf | sequence | choice => exact if_pos hid
    | @step i ins outs before after n n' hroot hbefore _ ih =>
      have hsteps : changeInSteps target f (before ++ n :: after) =
          some (before ++ n' :: after) := by
        rw [changeInSteps_eq, changeFirst?_eq_some_iff]
        exact ⟨before, n, n', after, rfl, rfl, fun k hk => change?_eq_none_iff.2 (hbefore k hk), ih⟩
      rw [change?, if_neg hroot, hsteps, Option.map_some]
    | fallback hroot _ ih => rw [change?, if_neg hroot, changeInFallback, ih]
    | @branch i key label before after n n' fallback hroot hfallback hbefore _ ih =>
      have hmissing : changeInFallback target f fallback = none := by
        cases fallback with
        | none => rfl
        | some k => exact change?_eq_none_iff.2 (hfallback k rfl)
      have hbranches : changeInBranches target f (before ++ (label, n) :: after) =
          some (before ++ (label, n') :: after) := by
        rw [changeInBranches_eq, changeFirst?_eq_some_iff]
        refine ⟨before, _, _, after, rfl, rfl, fun b hb => ?_, by rw [ih, Option.map_some]⟩
        rw [change?_eq_none_iff.2 (hbefore b hb), Option.map_none]
      rw [change?, if_neg hroot, hmissing, hbranches, Option.map_some]

theorem exists_replacesFirst_of_find? {t m : Node} (h : find? target t = some m) (f : Node → Node) :
    ∃ t', change? target f t = some t' ∧ ReplacesFirst target m (f m) t t' := by
  obtain ⟨t', ht'⟩ : ∃ t', change? target f t = some t' := by
    rw [← Option.ne_none_iff_exists', Ne, change?_eq_none_iff, ← find?_eq_none_iff, h]
    exact nofun
  obtain ⟨m', hreplaced⟩ := change?_eq_some_iff.1 ht'
  obtain rfl : m = m' := Option.some.inj (h.symm.trans (find?_of_replacesFirst hreplaced))
  exact ⟨t', ht', hreplaced⟩

theorem eq_of_replacesFirst_self {m t t' : Node} (h : ReplacesFirst target m m t t') : t' = t := by
  induction h with
  | root => rfl
  | step _ _ _ ih | fallback _ _ ih | branch _ _ _ _ ih => rw [ih]

theorem replace?_eq_some_iff {node t t' : Node} :
    replace? node t = some t' ↔ ∃ m, ReplacesFirst node.id m node t t' :=
  change?_eq_some_iff

end PromptChain.Node
