import PromptChain.Proofs.Session.Atomicity
import PromptChain.Proofs.Node.FreshIds

/-!
# Ids that a session gives out

An insertion takes an id at or above the counter of the session and leaves the counter behind it,
and nothing but the opening of a revision sets the counter back. So the ids that a run gives out
increase, until the greatest one is given: from then on no other is, and it only when no node bears
it.
-/

set_option autoImplicit false

namespace PromptChain.Session

theorem toNat_afterId (id : NodeId) : (afterId id).toNat = min (id.toNat + 1) (2 ^ 64 - 1) := by
  have hbound := id.toNat_lt
  rw [afterId]
  split
  · next h =>
    rw [h]
    rfl
  · next h =>
    have hne : id.toNat ≠ 2 ^ 64 - 1 := fun he => h (UInt64.toNat.inj he)
    rw [UInt64.toNat_add, UInt64.toNat_one]
    omega

theorem le_afterId (id : NodeId) : id ≤ afterId id := by
  have hbound := id.toNat_lt
  rw [UInt64.le_iff_toNat_le, toNat_afterId]
  omega

theorem not_greatestId_lt (id : NodeId) : ¬ Node.greatestId < id := by
  have hbound := id.toNat_lt
  rw [UInt64.lt_iff_toNat_lt, show Node.greatestId.toNat = 2 ^ 64 - 1 from rfl]
  omega

theorem lt_of_afterId_le {i j : NodeId} (h : afterId i ≤ j) :
    i < j ∨ i = Node.greatestId ∧ j = Node.greatestId := by
  have hi_lt := i.toNat_lt
  have hj_lt := j.toNat_lt
  have hlast : Node.greatestId.toNat = 2 ^ 64 - 1 := rfl
  rw [UInt64.le_iff_toNat_le, toNat_afterId] at h
  by_cases hi : i = Node.greatestId
  · rw [hi, hlast] at h
    exact .inr ⟨hi, UInt64.toNat.inj (by rw [hlast]; omega)⟩
  · have hne : i.toNat ≠ 2 ^ 64 - 1 := fun he => hi (UInt64.toNat.inj he)
    exact .inl (UInt64.lt_iff_toNat_lt.2 (by omega))

def Answer.givenIds : Answer → List NodeId
  | .inserted (some id) => [id]
  | _ => []

theorem Answer.givenIds_eq_nil_iff (answer : Answer) :
    answer.givenIds = [] ↔ ∀ id, answer ≠ .inserted (some id) := by
  cases answer with
  | inserted given => cases given <;> simp [givenIds]
  | done | built | failed => simp [givenIds]

def givenIds : Session → List Step → List NodeId
  | _, [] => []
  | s, step :: steps => (s.perform step).1.givenIds ++ givenIds (s.perform step).2 steps

theorem givenIds_append (s : Session) (steps others : List Step) :
    s.givenIds (steps ++ others) = s.givenIds steps ++ (s.run steps).givenIds others := by
  induction steps generalizing s with
  | nil => rfl
  | cons step steps ih => rw [List.cons_append, givenIds, givenIds, ih, List.append_assoc, run_cons]

def Opens (s : Session) (step : Step) : Prop :=
  ∃ name r t, step = .load name r ∧ s.load name r = .ok t

def OpensNothing : Session → List Step → Prop
  | _, [] => True
  | s, step :: steps => ¬ s.Opens step ∧ OpensNothing (s.perform step).2 steps

theorem opensNothing_append {s : Session} {steps others : List Step} :
    OpensNothing s (steps ++ others) ↔ OpensNothing s steps ∧
    OpensNothing (s.run steps) others := by
  induction steps generalizing s with
  | nil => simp [OpensNothing]
  | cons step steps ih => rw [List.cons_append, OpensNothing, OpensNothing, ih, and_assoc, run_cons]

/-- A step either gives no id out and keeps the counter, or takes the next id and leaves the counter
behind it. -/
theorem perform_counter {s : Session} {step : Step} (h : ¬ s.Opens step) :
    (s.perform step).1.givenIds = [] ∧ (s.perform step).2.nextId = s.nextId ∨
      ∃ id, (s.perform step).1.givenIds = [id] ∧ Node.nextId s.working s.nextId = .ok id ∧
        (s.perform step).2.nextId = afterId id := by
  cases step with
  | insert kind parent index =>
    rw [perform]
    split
    · next given t hinsert =>
      rcases insert_eq_ok hinsert with ⟨rfl, rfl⟩ | ⟨k, newId, -, hnext, rfl, rfl⟩
      · exact .inl ⟨rfl, rfl⟩
      · exact .inr ⟨newId, rfl, hnext, rfl⟩
    · exact .inl ⟨rfl, rfl⟩
  | update node =>
    rw [perform]
    split
    · next t hupdate =>
      obtain ⟨root, tree, -, -, rfl⟩ := update_eq_ok hupdate
      exact .inl ⟨rfl, rfl⟩
    · exact .inl ⟨rfl, rfl⟩
  | load name r =>
    rw [perform]
    split
    · next t hload => exact absurd ⟨name, r, t, rfl, hload⟩ h
    · exact .inl ⟨rfl, rfl⟩
  | build =>
    rw [perform]
    split <;> exact .inl ⟨rfl, rfl⟩
  | delete | setName | setLlms | toggle | markSaved | reset => exact .inl ⟨rfl, rfl⟩

/-- The counter lies behind every id that a run has given out, and not before where it was. -/
theorem run_counter {s : Session} {steps : List Step} (h : OpensNothing s steps) :
    s.nextId ≤ (s.run steps).nextId ∧
      ∀ i ∈ s.givenIds steps, afterId i ≤ (s.run steps).nextId := by
  induction steps generalizing s with
  | nil => exact ⟨UInt64.le_refl _, nofun⟩
  | cons step steps ih =>
    obtain ⟨hstep, hsteps⟩ := h
    obtain ⟨hcounter, hgiven⟩ := ih hsteps
    rw [givenIds, run_cons]
    rcases perform_counter hstep with ⟨hnone, hsame⟩ | ⟨id, hid, hnext, hafter⟩
    · rw [hsame] at hcounter
      rw [hnone]
      exact ⟨hcounter, hgiven⟩
    · rw [hafter] at hcounter
      have hfloor := UInt64.le_trans (Node.le_of_nextId hnext) (le_afterId id)
      rw [hid]
      exact ⟨UInt64.le_trans hfloor hcounter, List.forall_mem_cons.2 ⟨hcounter, hgiven⟩⟩

theorem given_lt_nextId {s : Session} {steps : List Step} (h : OpensNothing s steps) {id : NodeId}
    (hnext : Node.nextId (s.run steps).working (s.run steps).nextId = .ok id) :
    ∀ i ∈ s.givenIds steps, i < id ∨ i = Node.greatestId ∧ id = Node.greatestId := fun i hi =>
  lt_of_afterId_le (UInt64.le_trans ((run_counter h).2 i hi) (Node.le_of_nextId hnext))

private theorem perform_insert_of_not_given {s : Session} {kind : String} {parent : NodeId}
    {index : Nat} (h : (s.perform (.insert kind parent index)).1.givenIds = []) :
    (s.perform (.insert kind parent index)).2 = s := by
  rw [perform] at h ⊢
  split at h
  · next given t hinsert =>
    rcases insert_eq_ok hinsert with ⟨rfl, rfl⟩ | ⟨k, newId, -, -, rfl, -⟩
    · rfl
    · simp [Answer.givenIds] at h
  · rfl

/-- In a run that opens no revision, an insertion that gives an id out gives one that is greater
than all ids of the working tree, and greater than all ids that were given out before. Once the
greatest id is given, only that is given again, and only while no node bears it. An insertion that
gives no id out leaves the session as it was, and the run gives out the same ids without it. -/
theorem givenIds_increase {s : Session} {kind : String} {parent : NodeId} {index : Nat}
    {before after : List Step} (h : OpensNothing s (before ++ .insert kind parent index :: after)) :
    (∀ id, ((s.run before).perform (.insert kind parent index)).1 = .inserted (some id) →
      (∀ tree ∈ (s.run before).working, ∀ i ∈ tree.ids, i < id) ∧
      (Node.greatestId ∉ s.givenIds before → ∀ i ∈ s.givenIds before, i < id) ∧
      (Node.greatestId ∈ s.givenIds before →
        id = Node.greatestId ∧ ∀ tree ∈ (s.run before).working, Node.greatestId ∉ tree.ids)) ∧
    ((∀ id, ((s.run before).perform (.insert kind parent index)).1 ≠ .inserted (some id)) →
      ((s.run before).execute (.insert kind parent index)).2 = s.run before ∧
      s.givenIds (before ++ .insert kind parent index :: after) =
        s.givenIds (before ++ after)) := by
  obtain ⟨hbefore, hinsert, -⟩ := opensNothing_append.1 h
  refine ⟨fun id hid => ?_, fun hrefused => ?_⟩
  · have hnext : Node.nextId (s.run before).working (s.run before).nextId = .ok id := by
      rcases perform_counter hinsert with ⟨hnone, -⟩ | ⟨newId, hnew, hnext, -⟩
      · simp [hid, Answer.givenIds] at hnone
      · obtain rfl : id = newId := by simpa [hid, Answer.givenIds] using hnew
        exact hnext
    have htree : ∀ tree ∈ (s.run before).working, ∀ i ∈ tree.ids, i < id := by
      intro tree hworking i hi
      rw [Option.mem_def.1 hworking] at hnext
      exact UInt64.lt_iff_toNat_lt.2 (Node.toNat_lt_of_nextId hnext hi)
    -- The run has left the counter behind what it gave, and the new id is not below the counter.
    have hgiven := given_lt_nextId hbefore hnext
    refine ⟨htree, fun hnot i hi => ?_, fun hlast => ?_⟩
    · refine (hgiven i hi).resolve_right ?_
      rintro ⟨rfl, -⟩
      exact hnot hi
    · obtain ⟨-, rfl⟩ := (hgiven _ hlast).resolve_left (not_greatestId_lt id)
      exact ⟨rfl, fun tree hworking hmem => UInt64.lt_irrefl _ (htree tree hworking _ hmem)⟩
  · have hnone := (Answer.givenIds_eq_nil_iff _).2 hrefused
    have hsame := perform_insert_of_not_given hnone
    have hexecute := congrArg Prod.snd
      (perform_eq_execute (s.run before) (.insert kind parent index))
    refine ⟨hexecute.symm.trans hsame, ?_⟩
    rw [givenIds_append, givenIds_append, givenIds, hnone, hsame, List.nil_append]

/-- A run that comes to the greatest id, fails to insert after it, and deletes it. -/
private def exhaustingRun : List Step :=
  [.insert "sequential_spec" 0 0,
    .update (.sequence 0 [] [] [.blank .prompt (Node.greatestId - 1)]), .insert "llm_spec" 0 0,
    .insert "chat_spec" 0 0, .delete Node.greatestId]

private theorem opensNothing_of_no_load {steps : List Step}
    (h : ∀ step ∈ steps, ∀ name r, step ≠ .load name r) (s : Session) : OpensNothing s steps := by
  induction steps generalizing s with
  | nil => trivial
  | cons step steps ih =>
    rw [List.forall_mem_cons] at h
    refine ⟨?_, ih h.2 _⟩
    rintro ⟨name, r, t, hload, -⟩
    exact h.1 name r hload

theorem givenIds_increase_exhaustingRun :
    OpensNothing (new .standard) (exhaustingRun ++ .insert "api_spec" 0 0 :: [.reset]) ∧
    (new .standard).givenIds exhaustingRun = [0, Node.greatestId] ∧
    ∃ id, (((new .standard).run exhaustingRun).perform (.insert "api_spec" 0 0)).1 =
        .inserted (some id) ∧
      (∀ tree ∈ ((new .standard).run exhaustingRun).working, ∀ i ∈ tree.ids, i < id) ∧
      id = Node.greatestId := by
  have h : OpensNothing (new .standard) (exhaustingRun ++ .insert "api_spec" 0 0 :: [.reset]) :=
    opensNothing_of_no_load (by simp [exhaustingRun]) _
  have hgiven : (new .standard).givenIds exhaustingRun = [0, Node.greatestId] := rfl
  obtain ⟨htree, -, hlast⟩ := (givenIds_increase h).1 _ rfl
  exact ⟨h, hgiven, _, rfl, htree, (hlast (by simp [hgiven])).1⟩

end PromptChain.Session
