import PromptChain.Command.Basic
import PromptChain.Log.Events

/-!
# Commands, effect by effect

A `Program` reads the files of a machine, prints, reports events, writes a file, and may stop with a
complaint on the way; what it has done by then stays. `Command.program` carries out a command in
this way, one effect after the other. What a logger prints of the events goes to standard error,
before the complaint.
-/

set_option autoImplicit false

namespace PromptChain

open Log (Event Logger)

/-- The files that a program works on, what it has printed so far and what it has reported. -/
structure Machine where
  files : Directory
  printed : String
  logged : List Event
deriving DecidableEq

namespace Command

/-- A computation that works on a machine and may stop with a complaint. -/
abbrev Program := ExceptT String (StateM Machine)

def say (text : String) : Program Unit := modify fun m => { m with printed := m.printed ++ text }

def report (events : List Event) : Program Unit :=
  modify fun m => { m with logged := m.logged ++ events }

def Held.log (path : String) : Held → List Event
  | revision _ => []
  | chain _ => [Log.bareChainLoaded path]

def loadProgram (config : Config) (path : String) : Program Revision := do
  let h ← held (← get).files path
  report (h.log path)
  return h.asRevision config

def openProgram (config : Config) (path : String) : Program Session := do
  let r ← loadProgram config path
  let s ← opened config path r
  report [Log.revisionLoaded s]
  return s

def writeProgram (path : String) (r : Revision) : Program Unit := do
  let files ← stored (← get).files path r
  modify fun m => { m with files }
  report [Log.revisionSaved path]
  say (r.chain.outline ++ "\n")

def program (elapsed : String) (config : Config) : Command → Program Unit
  | .show path => do
    let r ← loadProgram config path
    say (r.chain.outline ++ "\n")
    say (r.chain.interface.text ++ "\n")
    say (llmsText r)
  | .io path id => do
    let r ← loadProgram config path
    let n ← asked r path id
    say (interfaceText n)
  | .recompute path output => do
    let r ← loadProgram config path
    writeProgram (output.getD path) { r with chain := r.chain.refresh }
  | .insert path kind parent index output => do
    let s ← openProgram config path
    report (s.insertLog kind parent index)
    let (id, s) ← inserted s kind parent index
    say (insertedText kind id parent)
    writeProgram (output.getD path) (← built s)
  | .delete path id output => do
    let s ← openProgram config path
    let s ← deleted s path id
    report [Log.nodeDeleted id]
    writeProgram (output.getD path) (← built s)
  | .validate path => do
    let r ← loadProgram config path
    say (validText elapsed r.chain)

end Command

def Invocation.program (elapsed : String) (i : Invocation) : Command.Program Unit := do
  let config ← Command.chosenConfig (← get).files i.config
  i.command.program elapsed config

/-- How a program ends that starts on some files, and the machine that it leaves behind. -/
def Command.Program.execute (p : Command.Program Unit) (files : Directory) :
    Except String Unit × Machine :=
  (p.run).run ⟨files, "", []⟩

def Invocation.logged (elapsed : String) (files : Directory) (i : Invocation) : List Event :=
  ((i.program elapsed).execute files).2.logged

/-- What a logger prints while an invocation is carried out. It is set up once the configuration is
known, and nothing is reported before. -/
def Invocation.logText (logger : Logger) (elapsed : String) (files : Directory) (i : Invocation) :
    String :=
  match Command.chosenConfig files i.config with
  | .error _ => ""
  | .ok config => logger.print config (i.logged elapsed files)

namespace Command

/-- A program that has ended, as an effect; what it has reported is left out. -/
def Effect.ofExecution (ended : Except String Unit × Machine) : Effect where
  printed := ended.2.printed
  files := ended.2.files
  complaint := match ended.1 with
    | .ok () => none
    | .error complaint => some complaint

/-- Run the program with these arguments, with what its logger prints. -/
def runLogged (logger : Logger) (elapsed : String) (files : Directory) (arguments : List String) :
    Outcome :=
  match Invocation.ofArguments? arguments with
  | none => run elapsed files arguments
  | some i =>
    let o := (Effect.ofExecution ((i.program elapsed).execute files)).outcome
    { o with stderr := i.logText logger elapsed files ++ o.stderr }

end Command

end PromptChain
