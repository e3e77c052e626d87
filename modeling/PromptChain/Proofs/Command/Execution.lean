import PromptChain.Command.Program
import PromptChain.Proofs.Sequencing

/-!
# Commands at once and effect by effect

A command that reads everything it needs before it prints or writes does at once what its program
does effect by effect, except that it reports nothing.
-/

set_option autoImplicit false

namespace PromptChain.Command

section

variable {α β : Type}

theorem run_lift_bind (x : Except String α) (f : α → Program β) (m : Machine) :
    ((liftM x >>= f : Program β).run).run m = match x with
      | .ok a => (f a).run.run m
      | .error complaint => (.error complaint, m) := by
  cases x <;> rfl

theorem run_get_bind (f : Machine → Program β) (m : Machine) :
    ((get >>= f : Program β).run).run m = (f m).run.run m := rfl

theorem run_say_bind (text : String) (f : Unit → Program β) (m : Machine) :
    ((say text >>= f : Program β).run).run m =
      (f ()).run.run { m with printed := m.printed ++ text } := rfl

theorem run_say (text : String) (m : Machine) :
    ((say text).run).run m = (.ok (), { m with printed := m.printed ++ text }) := rfl

theorem run_report_bind (events : List Log.Event) (f : Unit → Program β) (m : Machine) :
    ((report events >>= f : Program β).run).run m =
      (f ()).run.run { m with logged := m.logged ++ events } := rfl

theorem run_loadProgram_bind (config : Config) (path : String) (f : Revision → Program β)
    (m : Machine) :
    ((loadProgram config path >>= f : Program β).run).run m = match held m.files path with
      | .ok h => (f (h.asRevision config)).run.run { m with logged := m.logged ++ h.log path }
      | .error complaint => (.error complaint, m) := by
  rw [loadProgram, bind_assoc, run_get_bind, bind_assoc, run_lift_bind]
  cases held m.files path <;> rfl

end

theorem run_writeProgram (path : String) (r : Revision) (m : Machine) :
    ((writeProgram path r).run).run m = match stored m.files path r with
      | .ok files => (.ok (), ⟨files, m.printed ++ (r.chain.outline ++ "\n"),
          m.logged ++ [Log.revisionSaved path]⟩)
      | .error complaint => (.error complaint, m) := by
  rw [writeProgram, run_get_bind, run_lift_bind]
  cases stored m.files path r <;> rfl

private theorem write_after_eq (files : Directory) (path : String) (r : Revision) (printed : String)
    (logged : List Log.Event) :
    (write files path r).after printed =
      .ofExecution ((writeProgram path r).run.run ⟨files, printed, logged⟩) := by
  rw [run_writeProgram, write]
  cases stored files path r with
  | error complaint => simp [complain, Effect.after, Effect.ofExecution]
  | ok files => rfl

private theorem save_after_eq (files : Directory) (path : String) (s : Session) (printed : String)
    (logged : List Log.Event) :
    (save files path s).after printed =
      .ofExecution ((liftM (built s) >>= fun r => writeProgram path r : Program Unit).run.run
        ⟨files, printed, logged⟩) := by
  rw [run_lift_bind, save]
  cases built s with
  | error complaint => simp [complain, Effect.after, Effect.ofExecution]
  | ok r => exact write_after_eq files path r printed logged

theorem Effect.after_empty (e : Effect) : e.after "" = e := by
  simp [Effect.after]

section

variable {files : Directory} {config : Config} {path : String} {e : Effect}

theorem eq_execute_load {f : Revision → Program Unit}
    (herror : ∀ complaint, load files config path = .error complaint →
      e = complain files complaint)
    (hok : ∀ r logged, load files config path = .ok r →
      e = .ofExecution ((f r).run.run ⟨files, "", logged⟩)) :
    e = .ofExecution ((loadProgram config path >>= f : Program Unit).execute files) := by
  rw [Program.execute, run_loadProgram_bind]
  cases hheld : held files path with
  | error complaint =>
    refine herror complaint ?_
    rw [load, hheld]
    rfl
  | ok h =>
    refine hok _ _ ?_
    rw [load, hheld]
    rfl

theorem eq_execute_open {f : Session → Program Unit}
    (herror : ∀ complaint, openSession files config path = .error complaint →
      e = complain files complaint)
    (hok : ∀ s logged, openSession files config path = .ok s →
      e = .ofExecution ((f s).run.run ⟨files, "", logged⟩)) :
    e = .ofExecution ((openProgram config path >>= f : Program Unit).execute files) := by
  rw [openProgram, bind_assoc]
  refine eq_execute_load (fun complaint hload => ?_) fun r logged hload => ?_
  · refine herror complaint ?_
    rw [openSession, hload]
    rfl
  · have hopen : openSession files config path = opened config path r := by
      rw [openSession, hload, ok_bind]
    rw [bind_assoc, run_lift_bind]
    cases hopened : opened config path r with
    | error complaint => exact herror complaint (hopen.trans hopened)
    | ok s => exact hok s _ (hopen.trans hopened)

end

/-- What a command does at once is what its program does effect by effect, also when it stops on the
way. -/
theorem perform_eq_execute (elapsed : String) (files : Directory) (config : Config)
    (command : Command) :
    command.perform elapsed files config =
      .ofExecution ((command.program elapsed config).execute files) := by
  cases command with
  | «show» path =>
    refine eq_execute_load (fun complaint h => by rw [perform, h]) fun r logged h => ?_
    rw [perform, h, run_say_bind, run_say_bind, run_say]
    simp [showChain, print, Effect.ofExecution, String.append_assoc]
  | io path id =>
    refine eq_execute_load (fun complaint h => by rw [perform, h]) fun r logged h => ?_
    rw [perform, h, run_lift_bind]
    dsimp only
    cases asked r path id with
    | error complaint => rfl
    | ok n =>
      dsimp only
      rw [run_say, String.empty_append]
      rfl
  | recompute path output =>
    refine eq_execute_load (fun complaint h => by rw [perform, h]) fun r logged h => ?_
    rw [perform, h]
    exact (Effect.after_empty _).symm.trans (write_after_eq ..)
  | insert path kind parent index output =>
    refine eq_execute_open (fun complaint h => by rw [perform, insertNode, h]) fun s logged h => ?_
    rw [perform, insertNode, h, run_report_bind, run_lift_bind]
    dsimp only
    cases inserted s kind parent index with
    | error complaint => rfl
    | ok given =>
      dsimp only
      rw [run_say_bind, String.empty_append]
      exact save_after_eq ..
  | delete path id output =>
    refine eq_execute_open (fun complaint h => by rw [perform, deleteNode, h]) fun s logged h => ?_
    rw [perform, deleteNode, h, run_lift_bind]
    dsimp only
    cases deleted s path id with
    | error complaint => rfl
    | ok s =>
      dsimp only
      rw [run_report_bind]
      exact (Effect.after_empty _).symm.trans (save_after_eq ..)
  | validate path =>
    refine eq_execute_load (fun complaint h => by rw [perform, h]) fun r logged h => ?_
    rw [perform, h, run_say, String.empty_append]
    rfl

theorem execute_program {elapsed : String} {files : Directory} {i : Invocation} {config : Config}
    (h : chosenConfig files i.config = .ok config) :
    (i.program elapsed).execute files = (i.command.program elapsed config).execute files := by
  rw [Program.execute, Invocation.program, run_get_bind, run_lift_bind, h]
  rfl

theorem invoke_eq_execute (elapsed : String) (files : Directory) (i : Invocation) :
    invoke elapsed files i = .ofExecution ((i.program elapsed).execute files) := by
  rw [invoke]
  cases hconfig : chosenConfig files i.config with
  | error complaint =>
    rw [Program.execute, Invocation.program, run_get_bind, run_lift_bind, hconfig]
    rfl
  | ok config =>
    rw [execute_program hconfig]
    exact perform_eq_execute elapsed files config i.command

/-- A logger adds to a run what it prints on standard error, in front of the complaint, and changes
nothing else. -/
theorem runLogged_eq (logger : Log.Logger) (elapsed : String) (files : Directory)
    (arguments : List String) :
    runLogged logger elapsed files arguments =
      let o := run elapsed files arguments
      let log := (Invocation.ofArguments? arguments).elim "" (·.logText logger elapsed files)
      { o with stderr := log ++ o.stderr } := by
  rw [runLogged, run]
  cases Invocation.ofArguments? arguments with
  | none => rfl
  | some i =>
    dsimp only
    rw [invoke_eq_execute]
    rfl

theorem runLogged_of_silent {logger : Log.Logger}
    (hnotice : ∀ config, (logger.filter config).notice = "")
    (hpasses : ∀ config e, (logger.filter config).passes e = false) (elapsed : String)
    (files : Directory) (arguments : List String) :
    runLogged logger elapsed files arguments = run elapsed files arguments := by
  have hlog : ∀ i : Invocation, i.logText logger elapsed files = "" := by
    intro i
    rw [Invocation.logText]
    cases chosenConfig files i.config with
    | error complaint => rfl
    | ok config =>
      dsimp only
      rw [Log.Logger.print_of_silent (hpasses config), hnotice]
  rw [runLogged_eq]
  cases Invocation.ofArguments? arguments <;> simp [hlog]

end PromptChain.Command
