import PromptChain.RunInputs
import PromptChain.Proofs.Entries
import Mathlib.Data.List.Basic
import Mathlib.Data.List.Induction

/-!
# How the inputs of a run are filled in

The keys that a chain needs are filled in one by one: a key that is carried over from the last run
with what that run gave, the first other key with the message, and every key behind it with the
empty text. So the message reaches one key only, and of the last run only those outputs count that a
key asks for.
-/

set_option autoImplicit false

namespace PromptChain.RunInputs

/-- A key that ends the way keys do that are carried over. -/
def Carried (key : String) : Prop := ∃ stem, key = stem ++ carryIn

theorem stem?_eq_some_iff {key stem : String} : stem? key = some stem ↔ key = stem ++ carryIn := by
  constructor
  · intro h
    rw [stem?] at h
    split at h
    · next hsuffix =>
      have htake := List.suffix_iff_eq_append.1 (List.isSuffixOf_iff_suffix.1 hsuffix)
      obtain rfl := Option.some.inj h
      rw [← String.toList_inj, String.toList_append, String.toList_ofList]
      simpa only [String.length_toList] using htake.symm
    · contradiction
  · rintro rfl
    have hsuffix : carryIn.toList.isSuffixOf (stem ++ carryIn).toList = true := by
      rw [List.isSuffixOf_iff_suffix, String.toList_append]
      exact List.suffix_append _ _
    have hlength : (stem ++ carryIn).length - carryIn.length = stem.toList.length := by
      rw [String.length_append, String.length_toList]
      omega
    rw [stem?, if_pos hsuffix, hlength, String.toList_append, List.take_left, String.ofList_toList]

theorem isNone_stem?_iff {key : String} : (stem? key).isNone = true ↔ ¬ Carried key := by
  rw [Option.isNone_iff_eq_none, Option.eq_none_iff_forall_ne_some, Carried, not_exists]
  exact forall_congr' fun stem => not_congr stem?_eq_some_iff

theorem primaryKey?_eq_none_iff {keys : List String} :
    primaryKey? keys = none ↔ ∀ key ∈ keys, Carried key := by
  rw [primaryKey?, List.find?_eq_none]
  exact forall₂_congr fun key _ => by rw [isNone_stem?_iff, not_not]

theorem primaryKey?_eq_some_iff {keys : List String} {key : String} : primaryKey? keys = some key ↔
    ∃ before after, keys = before ++ key :: after ∧ (∀ k ∈ before, Carried k) ∧ ¬ Carried key := by
  have hcarried : ∀ k, (!(stem? k).isNone) = true ↔ Carried k := by
    intro k
    rw [Bool.not_eq_true', ← Bool.not_eq_true, isNone_stem?_iff, not_not]
  rw [primaryKey?, List.find?_eq_some_iff_append, isNone_stem?_iff]
  simp only [hcarried]
  constructor
  · rintro ⟨hkey, before, after, hkeys, hbefore⟩
    exact ⟨before, after, hkeys, hbefore, hkey⟩
  · rintro ⟨before, after, hkeys, hbefore, hkey⟩
    exact ⟨hkey, before, after, hkeys, hbefore⟩

theorem valueOf_carried (primary : Option String) (message : String)
    (lastOutput : List (String × String)) (stem : String) :
    valueOf primary message lastOutput (stem ++ carryIn) =
      (Entries.get? lastOutput (stem ++ carryOut)).getD notCarried := by
  rw [valueOf, stem?_eq_some_iff.2 rfl]

theorem valueOf_not_carried {key : String} (hkey : ¬ Carried key) (primary : Option String)
    (message : String) (lastOutput : List (String × String)) :
    valueOf primary message lastOutput key = if primary = some key then message else "" := by
  have hstem : stem? key = none := Option.isNone_iff_eq_none.1 (isNone_stem?_iff.2 hkey)
  rw [valueOf, hstem]

theorem valueOf_congr_message {primary : Option String} {key : String} (hkey : primary ≠ some key)
    (message message' : String) (lastOutput : List (String × String)) :
    valueOf primary message' lastOutput key = valueOf primary message lastOutput key := by
  by_cases hcarried : Carried key
  · obtain ⟨stem, rfl⟩ := hcarried
    rw [valueOf_carried, valueOf_carried]
  · rw [valueOf_not_carried hcarried, valueOf_not_carried hcarried, if_neg hkey, if_neg hkey]

theorem valueOf_congr_lastOutput {key : String} {lastOutput lastOutput' : List (String × String)}
    (h : ∀ stem, key = stem ++ carryIn →
      Entries.get? lastOutput' (stem ++ carryOut) = Entries.get? lastOutput (stem ++ carryOut))
    (primary : Option String) (message : String) :
    valueOf primary message lastOutput' key = valueOf primary message lastOutput key := by
  by_cases hcarried : Carried key
  · obtain ⟨stem, rfl⟩ := hcarried
    rw [valueOf_carried, valueOf_carried, h stem rfl]
  · rw [valueOf_not_carried hcarried, valueOf_not_carried hcarried]

/-- Fill in the next key: from the last run if it is carried over, with the message if no key has
taken it yet, and else with nothing. -/
def fill (message : String) (lastOutput : List (String × String)) (run : RunInputs) (key : String) :
    RunInputs :=
  match stem? key, run.primary with
  | some stem, primary =>
    ⟨primary, Entries.put run.values key
      ((Entries.get? lastOutput (stem ++ carryOut)).getD notCarried)⟩
  | none, none => ⟨some key, Entries.put run.values key message⟩
  | none, some primary => ⟨some primary, Entries.put run.values key ""⟩

section Fill

variable {message : String} {lastOutput : List (String × String)}

private theorem primaryKey?_append_singleton (keys : List String) (key : String) :
    primaryKey? (keys ++ [key]) =
      (primaryKey? keys).or (if (stem? key).isNone then some key else none) := by
  rw [primaryKey?, List.find?_append, List.find?_singleton]
  rfl

private theorem valueOf_append_singleton {keys : List String} {k : String} (hk : k ∈ keys)
    (key : String) : valueOf (primaryKey? (keys ++ [key])) message lastOutput k =
      valueOf (primaryKey? keys) message lastOutput k := by
  rw [valueOf, valueOf, primaryKey?_append_singleton]
  cases hstem : stem? k with
  | some stem => rfl
  | none =>
    cases hprimary : primaryKey? keys with
    | some primary => rfl
    | none =>
      have hcarried := primaryKey?_eq_none_iff.1 hprimary k hk
      exact absurd hcarried (isNone_stem?_iff.1 (by rw [hstem]; rfl))

private theorem foldl_fill {keys : List String} (hkeys : keys.Nodup) :
    keys.foldl (fill message lastOutput) ⟨none, []⟩ =
      ⟨primaryKey? keys,
        keys.map fun k => (k, valueOf (primaryKey? keys) message lastOutput k)⟩ := by
  -- From the back: what the loop has filled in so far is the run of the keys so far, and the next
  -- key leaves their values as they are.
  induction keys using List.reverseRecOn with
  | nil => rfl
  | append_singleton keys key ih =>
    obtain ⟨hbefore, -, hnew⟩ := List.nodup_append.1 hkeys
    have hfresh : key ∉ Entries.keys
        (keys.map fun k => (k, valueOf (primaryKey? keys) message lastOutput k)) := by
      rw [Entries.keys, List.map_map, List.mem_map]
      rintro ⟨k, hk, rfl⟩
      exact hnew k hk k (List.mem_singleton_self k) rfl
    have hkept :
        keys.map (fun k => (k, valueOf (primaryKey? (keys ++ [key])) message lastOutput k)) =
          keys.map fun k => (k, valueOf (primaryKey? keys) message lastOutput k) :=
      List.map_congr_left fun k hk => by rw [valueOf_append_singleton hk]
    rw [List.foldl_append, ih hbefore, List.foldl_cons, List.foldl_nil, List.map_append, hkept,
      List.map_singleton, fill, valueOf, primaryKey?_append_singleton]
    cases hstem : stem? key with
    | some stem => simp [Entries.put_of_not_mem hfresh]
    | none =>
      cases hprimary : primaryKey? keys with
      | none =>
        rw [hprimary] at hfresh
        simp [Entries.put_of_not_mem hfresh]
      | some primary =>
        have hne : primary ≠ key := by
          intro heq
          have hmem := List.mem_of_find?_eq_some hprimary
          exact hnew primary hmem key (List.mem_singleton_self key) heq
        rw [hprimary] at hfresh
        simp [Entries.put_of_not_mem hfresh, hne]

end Fill

section Chain

variable (chain : Node) (message : String) (lastOutput : List (String × String))

private theorem primary_forChain :
    (forChain chain message lastOutput).primary = primaryKey? chain.interface.inputs.items := rfl

private theorem keys_forChain :
    Entries.keys (forChain chain message lastOutput).values = chain.interface.inputs.items := by
  rw [forChain, Entries.keys, List.map_map]
  exact List.map_id _

private theorem get?_forChain {key : String} (hkey : key ∈ chain.interface.inputs.items) :
    Entries.get? (forChain chain message lastOutput).values key =
      some (valueOf (primaryKey? chain.interface.inputs.items) message lastOutput key) :=
  List.lookup_graph _ hkey

end Chain

/-- How the keys of a chain are to be filled in: the first that is not carried over takes the
message, those that are carried over take what the last run gave, and the others stay empty. -/
structure FilledIn (keys : List String) (message : String) (lastOutput : List (String × String))
    (run : RunInputs) : Prop where
  keys_values : Entries.keys run.values = keys
  primary_none : run.primary = none ↔ ∀ key ∈ keys, Carried key
  primary_some : ∀ key, run.primary = some key ↔
    ∃ before after, keys = before ++ key :: after ∧ (∀ k ∈ before, Carried k) ∧ ¬ Carried key
  message_of_primary : ∀ key, run.primary = some key → Entries.get? run.values key = some message
  carried_over : ∀ stem, stem ++ carryIn ∈ keys → Entries.get? run.values (stem ++ carryIn) =
    some ((Entries.get? lastOutput (stem ++ carryOut)).getD notCarried)
  empty_of_other : ∀ key ∈ keys, ¬ Carried key → run.primary ≠ some key →
    Entries.get? run.values key = some ""

theorem filledIn_forChain (chain : Node) (message : String) (lastOutput : List (String × String)) :
    FilledIn chain.interface.inputs.items message lastOutput
      (forChain chain message lastOutput) where
  keys_values := keys_forChain chain message lastOutput
  primary_none := primaryKey?_eq_none_iff
  primary_some := fun _ => primaryKey?_eq_some_iff
  message_of_primary := by
    intro key hprimary
    obtain ⟨before, after, hkeys, -, hcarried⟩ := primaryKey?_eq_some_iff.1 hprimary
    have hkey : key ∈ chain.interface.inputs.items := by
      rw [hkeys]
      exact List.mem_append_right before List.mem_cons_self
    rw [get?_forChain chain message lastOutput hkey, valueOf_not_carried hcarried]
    exact congrArg some (if_pos hprimary)
  carried_over := by
    intro stem hkey
    rw [get?_forChain chain message lastOutput hkey, valueOf_carried]
  empty_of_other := by
    intro key hkey hcarried hprimary
    rw [get?_forChain chain message lastOutput hkey, valueOf_not_carried hcarried]
    exact congrArg some (if_neg hprimary)

theorem get?_forChain_message (chain : Node) (message message' : String)
    (lastOutput : List (String × String)) {key : String}
    (hkey : (forChain chain message lastOutput).primary ≠ some key) :
    Entries.get? (forChain chain message' lastOutput).values key =
      Entries.get? (forChain chain message lastOutput).values key := by
  by_cases hmem : key ∈ chain.interface.inputs.items
  · rw [primary_forChain] at hkey
    rw [get?_forChain _ _ _ hmem, get?_forChain _ _ _ hmem,
      valueOf_congr_message hkey message message']
  · have hnone : ∀ m, Entries.get? (forChain chain m lastOutput).values key = none := by
      intro m
      apply Option.eq_none_iff_forall_ne_some.2
      intro value hvalue
      have hkeys := Entries.mem_keys_of_get? hvalue
      rw [keys_forChain] at hkeys
      exact hmem hkeys
    rw [hnone message', hnone message]

theorem forChain_congr_lastOutput {chain : Node} {lastOutput lastOutput' : List (String × String)}
    (h : ∀ stem, stem ++ carryIn ∈ chain.interface.inputs.items →
      Entries.get? lastOutput' (stem ++ carryOut) = Entries.get? lastOutput (stem ++ carryOut))
    (message : String) :
    forChain chain message lastOutput' = forChain chain message lastOutput := by
  have hvalue : ∀ key ∈ chain.interface.inputs.items,
      valueOf (primaryKey? chain.interface.inputs.items) message lastOutput' key =
        valueOf (primaryKey? chain.interface.inputs.items) message lastOutput key := by
    intro key hkey
    apply valueOf_congr_lastOutput
    rintro stem rfl
    exact h stem hkey
  rw [forChain, forChain]
  congr 1
  exact List.map_congr_left fun key hkey => by rw [hvalue key hkey]

/-- A run of a chain is given what it needs and nothing from elsewhere: its keys are filled in one
by one in their order, the message reaches the first key that is not carried over and no other, and
of the last run only those outputs count that a key is carried over from. -/
theorem forChain_fills_inputs (chain : Node) (message : String)
    (lastOutput : List (String × String)) :
    forChain chain message lastOutput =
        chain.interface.inputs.items.foldl (fill message lastOutput) ⟨none, []⟩ ∧
      FilledIn chain.interface.inputs.items message lastOutput (forChain chain message lastOutput) ∧
      (∀ message', (forChain chain message' lastOutput).primary =
          (forChain chain message lastOutput).primary ∧
        Entries.keys (forChain chain message' lastOutput).values =
          Entries.keys (forChain chain message lastOutput).values ∧
        ∀ key, (forChain chain message lastOutput).primary ≠ some key →
          Entries.get? (forChain chain message' lastOutput).values key =
            Entries.get? (forChain chain message lastOutput).values key) ∧
      ∀ lastOutput', (∀ stem, stem ++ carryIn ∈ chain.interface.inputs.items →
          Entries.get? lastOutput' (stem ++ carryOut) =
            Entries.get? lastOutput (stem ++ carryOut)) →
        forChain chain message lastOutput' = forChain chain message lastOutput := by
  refine ⟨?_, filledIn_forChain chain message lastOutput, ?_, ?_⟩
  · exact (foldl_fill chain.interface.inputs.nodup).symm
  · intro message'
    have hkeys : Entries.keys (forChain chain message' lastOutput).values =
        Entries.keys (forChain chain message lastOutput).values := by
      rw [keys_forChain, keys_forChain]
    exact ⟨rfl, hkeys, fun key hkey => get?_forChain_message chain message message' lastOutput hkey⟩
  · intro lastOutput' h
    exact forChain_congr_lastOutput h message

/-- A chain with keys to carry over, among them one without a stem and one that the last run does
not give. -/
private def talk : Node :=
  .sequence 0 [] [] [.leaf (.prompt ⟨1, ["_in", "history_in"], "draft", "", "llm"⟩),
    .leaf (.chat ⟨2, ["draft", "topic", "tone", "mood_in"], "history_out", "", "user", "llm"⟩)]

theorem forChain_fills_inputs_talk :
    forChain talk "hello" [("_out", "x"), ("more", "m"), ("history_out", "h")] =
      forChain talk "hello" [("history_out", "h"), ("_out", "x"), ("draft", "d")] ∧
    forChain talk "hello" [("history_out", "h"), ("_out", "x"), ("draft", "d")] =
      ⟨some "topic", [("_in", "x"), ("history_in", "h"), ("topic", "hello"), ("tone", ""),
        ("mood_in", "replaced but not found")]⟩ := by
  have hagree : ∀ key ∈ talk.interface.inputs.items, ∀ stem ∈ stem? key,
      Entries.get? [("_out", "x"), ("more", "m"), ("history_out", "h")] (stem ++ carryOut) =
        Entries.get? [("history_out", "h"), ("_out", "x"), ("draft", "d")] (stem ++ carryOut) := by
    decide +kernel
  obtain ⟨-, -, -, hcongr⟩ :=
    forChain_fills_inputs talk "hello" [("history_out", "h"), ("_out", "x"), ("draft", "d")]
  refine ⟨hcongr _ ?_, by decide +kernel⟩
  intro stem hstem
  exact hagree _ hstem stem (stem?_eq_some_iff.2 rfl)

end PromptChain.RunInputs
