import PromptChain.Proofs.Command.Execution
import PromptChain.Proofs.Directory

/-!
# Files that a command changes

A command changes no file until everything that can stop it is behind it, and then at most one. So a
command that fails leaves all files as they were, and one that succeeds changes the file that it
writes and no other.
-/

set_option autoImplicit false

namespace PromptChain

def Command.target? : Command → Option String
  | .show _ => none
  | .io _ _ => none
  | .recompute path output => some (output.getD path)
  | .insert path _ _ _ output => some (output.getD path)
  | .delete path _ output => some (output.getD path)
  | .validate _ => none

/-- What a command that writes prints before it draws the chain; an insertion names the new node. -/
def Command.opening (newId : NodeId) : Command → String
  | .insert _ kind parent _ _ => Command.insertedText kind newId parent
  | _ => ""

namespace Command

/-- A program, started on a machine, that leaves the files as they are unless it succeeds; then the
machine is as `post` says. -/
def Spares (m : Machine) (p : Program Unit) (post : Machine → Prop) : Prop :=
  match p.run.run m with
  | (.ok (), after) => post after
  | (.error _, after) => after.files = m.files

section

variable {α : Type} {m : Machine} {post : Machine → Prop}

theorem spares_get {f : Machine → Program Unit} (h : Spares m (f m) post) :
    Spares m (get >>= f) post := by
  rw [Spares, run_get_bind]
  exact h

theorem spares_lift {x : Except String α} {f : α → Program Unit}
    (h : ∀ a, x = .ok a → Spares m (f a) post) : Spares m (liftM x >>= f) post := by
  rw [Spares, run_lift_bind]
  cases x with
  | error complaint => rfl
  | ok a => exact h a rfl

theorem spares_report {events : List Log.Event} {f : Unit → Program Unit}
    (h : Spares { m with logged := m.logged ++ events } (f ()) post) :
    Spares m (report events >>= f) post := by
  rw [Spares, run_report_bind]
  exact h

theorem spares_load {config : Config} {path : String} {f : Revision → Program Unit}
    (h : ∀ r logged, Spares { m with logged } (f r) post) :
    Spares m (loadProgram config path >>= f) post := by
  rw [loadProgram, bind_assoc]
  refine spares_get ?_
  rw [bind_assoc]
  refine spares_lift fun g _ => ?_
  rw [bind_assoc]
  exact spares_report (h _ _)

theorem spares_open {config : Config} {path : String} {f : Session → Program Unit}
    (h : ∀ s logged, Spares { m with logged } (f s) post) :
    Spares m (openProgram config path >>= f) post := by
  rw [openProgram, bind_assoc]
  refine spares_load fun r logged => ?_
  rw [bind_assoc]
  refine spares_lift fun s _ => ?_
  rw [bind_assoc]
  exact spares_report (h _ _)

theorem spares_say_bind {text : String} {f : Unit → Program Unit}
    (h : Spares { m with printed := m.printed ++ text } (f ()) post) :
    Spares m (say text >>= f) post := by
  rw [Spares, run_say_bind]
  exact h

theorem spares_say {text : String} (h : post { m with printed := m.printed ++ text }) :
    Spares m (say text) post := h

theorem spares_write {path : String} {r : Revision}
    (h : ∀ files logged, m.files.ChangedAt path r.pretty files →
      post ⟨files, m.printed ++ (r.chain.outline ++ "\n"), logged⟩) :
    Spares m (writeProgram path r) post := by
  rw [Spares, run_writeProgram, stored, saveRevision]
  cases hwrite : m.files.write path r.pretty with
  | error refusal => rfl
  | ok files => exact h files _ (Directory.changedAt_of_write hwrite)

end

/-- What a machine is like after a command has succeeded on some files. -/
def Done (command : Command) (files : Directory) (after : Machine) : Prop :=
  match command.target? with
  | none => after.files = files
  | some target => ∃ (r : Revision) (newId : NodeId),
      after.printed = command.opening newId ++ (r.chain.outline ++ "\n") ∧
      files.ChangedAt target r.pretty after.files

private theorem done_of_target?_eq_none {command : Command} {files : Directory} {after : Machine}
    (h : command.target? = none) (hafter : after.files = files) : command.Done files after := by
  rwa [Done, h]

theorem spares_program (elapsed : String) (config : Config) (files : Directory)
    (logged : List Log.Event) (command : Command) :
    Spares ⟨files, "", logged⟩ (command.program elapsed config) (command.Done files) := by
  cases command with
  | «show» path =>
    refine spares_load fun r logged => ?_
    exact spares_say_bind (spares_say_bind (spares_say (done_of_target?_eq_none rfl rfl)))
  | io path id =>
    refine spares_load fun r logged => spares_lift fun n _ => ?_
    exact spares_say (done_of_target?_eq_none rfl rfl)
  | recompute path output =>
    refine spares_load fun r logged => spares_write fun after _ hafter => ?_
    exact ⟨_, 0, rfl, hafter⟩
  | insert path kind parent index output =>
    refine spares_open fun s logged => spares_report (spares_lift fun given _ => ?_)
    refine spares_say_bind (spares_lift fun r _ => spares_write fun after _ hafter => ?_)
    refine ⟨r, given.1, ?_, hafter⟩
    dsimp only
    rw [String.empty_append]
    rfl
  | delete path id output =>
    refine spares_open fun s logged => spares_lift fun t _ => spares_report ?_
    refine spares_lift fun r _ => spares_write fun after _ hafter => ?_
    exact ⟨r, 0, rfl, hafter⟩
  | validate path =>
    refine spares_load fun r logged => ?_
    exact spares_say (done_of_target?_eq_none rfl rfl)

theorem spares_invocation (elapsed : String) (files : Directory) (i : Invocation) :
    Spares ⟨files, "", []⟩ (i.program elapsed) (i.command.Done files) :=
  spares_get (spares_lift fun config _ => spares_program elapsed config files [] i.command)

theorem files_of_execute_eq_error {elapsed complaint : String} {files : Directory} {i : Invocation}
    {after : Machine} (h : (i.program elapsed).execute files = (.error complaint, after)) :
    after.files = files := by
  have hspares := spares_invocation elapsed files i
  rw [Spares, ← Program.execute, h] at hspares
  exact hspares

theorem done_of_execute_eq_ok {elapsed : String} {files : Directory} {i : Invocation}
    {after : Machine}
    (h : (i.program elapsed).execute files = (.ok (), after)) : i.command.Done files after := by
  have hspares := spares_invocation elapsed files i
  rw [Spares, ← Program.execute, h] at hspares
  exact hspares

/-- A run is its program, effect by effect. If it fails, all files are as they were; a command that
writes nothing leaves them so in any case. A command that writes and succeeds has changed the file
to write and nothing else: it holds the revision whose chain is drawn. -/
theorem run_changes_target_only (elapsed : String) (files : Directory) (arguments : List String) :
    let o := run elapsed files arguments
    (o.exitCode ≠ 0 → o.files = files) ∧
    ∀ i, Invocation.ofArguments? arguments = some i →
      o = (Effect.ofExecution ((i.program elapsed).execute files)).outcome ∧
      (i.command.target? = none → o.files = files) ∧
      ∀ target, i.command.target? = some target → o.exitCode = 0 →
        ∃ (r : Revision) (newId : NodeId),
          o.stdout = i.command.opening newId ++ (r.chain.outline ++ "\n") ∧
          files.ChangedAt target r.pretty o.files := by
  intro o
  cases hi : Invocation.ofArguments? arguments with
  | none =>
    have ho : o.files = files := by
      simp only [o, run, hi]
    exact ⟨fun _ => ho, fun i h => by contradiction⟩
  | some i =>
    have ho : o = (Effect.ofExecution ((i.program elapsed).execute files)).outcome := by
      simp only [o, run, hi, invoke_eq_execute]
    cases hended : (i.program elapsed).execute files with
    | mk result after =>
      rw [hended] at ho
      cases result with
      | error complaint =>
        have hfiles : o.files = files := by
          rw [ho]
          exact files_of_execute_eq_error hended
        have hcode : o.exitCode ≠ 0 := by
          rw [ho]
          exact Nat.one_ne_zero
        refine ⟨fun _ => hfiles, fun j hj => ?_⟩
        obtain rfl := Option.some.inj hj
        exact ⟨by rw [ho, hended], fun _ => hfiles, fun _ _ h => absurd h hcode⟩
      | ok _ =>
        have hcode : o.exitCode = 0 := by
          rw [ho]
          rfl
        have hdone : i.command.Done files ⟨o.files, o.stdout, after.logged⟩ := by
          rw [ho]
          exact done_of_execute_eq_ok hended
        refine ⟨fun h => absurd hcode h, fun j hj => ?_⟩
        obtain rfl := Option.some.inj hj
        refine ⟨by rw [ho, hended], fun hnone => ?_, fun target htarget _ => ?_⟩
        · rw [Done, hnone] at hdone
          exact hdone
        · rw [Done, htarget] at hdone
          exact hdone

def emptySequence : Directory :=
  .ofFiles [("a.json", (Revision.toJson ⟨none, none, .blank .sequence 0, []⟩).toText)]

theorem run_changes_target_only_emptySequence :
    let written := run "1ns" emptySequence
      ["insert", "a.json", "--kind", "llm_spec", "--parent", "0", "-o", "b.json"]
    let refused :=
      run "1ns" emptySequence ["insert", "b.json", "--kind", "llm_spec", "--parent", "0"]
    written.exitCode = 0 ∧ (∃ (r : Revision) (newId : NodeId),
      written.stdout = insertedText "llm_spec" newId 0 ++ (r.chain.outline ++ "\n") ∧
        emptySequence.ChangedAt "b.json" r.pretty written.files) ∧
    refused.exitCode ≠ 0 ∧ refused.files = emptySequence := by
  intro written refused
  let i : Invocation := ⟨none, .insert "a.json" "llm_spec" 0 0 (some "b.json")⟩
  have hi : Invocation.ofArguments?
      ["insert", "a.json", "--kind", "llm_spec", "--parent", "0", "-o", "b.json"] = some i := by
    decide +kernel
  have hwritten : written.exitCode = 0 := by decide +kernel
  have hrefused : refused.exitCode ≠ 0 := by decide +kernel
  have hrun := (run_changes_target_only "1ns" emptySequence
    ["insert", "a.json", "--kind", "llm_spec", "--parent", "0", "-o", "b.json"]).2 i hi
  refine ⟨hwritten, hrun.2.2 "b.json" rfl hwritten, hrefused, ?_⟩
  exact (run_changes_target_only "1ns" emptySequence
    ["insert", "b.json", "--kind", "llm_spec", "--parent", "0"]).1 hrefused

end Command

end PromptChain
