import PromptChain.Command.Arguments
import PromptChain.Directory
import PromptChain.Outline
import PromptChain.Session.Basic

/-!
# The command line

A command reads the chain in a file, shows it or writes it changed to a file. `Command.run` is a
function of the files and the arguments; a command that fails leaves the files as they are. Nothing
is logged here: what a logger adds on standard error is in `Command.runLogged`.
-/

set_option autoImplicit false

namespace PromptChain

inductive Command where
  | show (path : String)
  | io (path : String) (id : Option NodeId)
  | recompute (path : String) (output : Option String)
  | insert (path kind : String) (parent : NodeId) (index : Nat) (output : Option String)
  | delete (path : String) (id : NodeId) (output : Option String)
  | validate (path : String)
deriving DecidableEq

structure Invocation where
  config : Option String
  command : Command
deriving DecidableEq

namespace Command

/-- The option for the configuration, which may stand anywhere. -/
def configOption : OptionName := ⟨"config", some 'c'⟩

def outputOption : OptionName := ⟨"output", some 'o'⟩

/-- The options of a command beside that for the configuration. -/
def optionsOf : String → List OptionName
  | "io" => [⟨"id", none⟩]
  | "recompute" => [outputOption]
  | "insert" => [⟨"kind", some 'k'⟩, ⟨"parent", some 'p'⟩, ⟨"index", some 'i'⟩, outputOption]
  | "delete" => [⟨"id", none⟩, outputOption]
  | _ => []

/-- A number that may be missing; nothing if it is there and malformed. -/
def optionalWord? (text : Option String) : Option (Option UInt64) :=
  match text with
  | none => some none
  | some t => (word? t).map some

def ofArguments? (name : String) (a : Arguments) : Option Command :=
  match name, a.words with
  | "show", [path] => some (.show path)
  | "io", [path] => do return .io path (← optionalWord? (a.get? "id"))
  | "recompute", [path] => some (.recompute path (a.get? "output"))
  | "insert", [path] => do
    let kind ← a.get? "kind"
    let parent ← word? (← a.get? "parent")
    let index ← optionalWord? (a.get? "index")
    return .insert path kind parent (index.getD 0).toNat (a.get? "output")
  | "delete", [path] => do
    let id ← word? (← a.get? "id")
    return .delete path id (a.get? "output")
  | "validate", [path] => some (.validate path)
  | _, _ => none

end Command

/-- What a list of arguments asks for. The configuration named behind the command counts more than
the one named before it. A request for help or for the version is no command: it is taken for a
misuse like any other, where a program that explains itself would print its explanation and
succeed. -/
def Invocation.ofArguments? (arguments : List String) : Option Invocation := do
  let outer ← Command.parse? [Command.configOption] true arguments .none
  match outer.words with
  | [] => none
  | name :: others =>
    let inner ← Command.parse? (Command.configOption :: Command.optionsOf name) false others .none
    let command ← Command.ofArguments? name inner
    return { config := inner.get? "config" <|> outer.get? "config", command }

namespace Command

/-- What a command does: what it prints, the files it leaves, and the complaint it ends with. -/
structure Effect where
  printed : String
  files : Directory
  complaint : Option String
deriving DecidableEq

def complain (files : Directory) (complaint : String) : Effect := ⟨"", files, some complaint⟩

def print (files : Directory) (printed : String) : Effect := ⟨printed, files, none⟩

def Effect.after (printed : String) (e : Effect) : Effect :=
  { e with printed := printed ++ e.printed }

def named (path : String) : String := "'" ++ path ++ "'"

def loadConfig (files : Directory) (path : String) : Except Config.Fault Config :=
  match files.read path with
  | .error refusal => .error (.inaccessible path refusal.message)
  | .ok text =>
    match Config.ofText text with
    | .error cause => .error (.unreadable cause)
    | .ok config => .ok config

def loadRevision (files : Directory) (path : String) : Except Fault Revision :=
  match files.read path with
  | .error refusal => .error (.inaccessible path refusal.message)
  | .ok text => Revision.ofText text

def saveRevision (files : Directory) (path : String) (r : Revision) : Except Fault Directory :=
  match files.write path r.pretty with
  | .error refusal => .error (.inaccessible path refusal.message)
  | .ok files => .ok files

inductive Held where
  | revision (r : Revision)
  | chain (c : Node)

def held (files : Directory) (path : String) : Except String Held :=
  match files.read path with
  | .error refusal => .error ("Failed to read " ++ named path ++ ": " ++ refusal.message)
  | .ok text =>
    match Revision.ofText text with
    | .ok r => .ok (.revision r)
    | .error (.unreadable asRevision) =>
      match Node.ofText text with
      | .error asChain =>
        .error (named path ++ " is neither a revision (" ++ asRevision.message ++
          ") nor a chain (" ++ asChain.message ++ ")")
      | .ok chain =>
        match chain.checkIds with
        | .error fault => .error ("Invalid chain: " ++ fault.message)
        | .ok () => .ok (.chain chain)
    | .error fault => .error ("Invalid revision: " ++ fault.message)

/-- A chain alone counts as a new revision of it with the configured language models. -/
def Held.asRevision (config : Config) : Held → Revision
  | revision r => r
  | chain c => .create none c config.llms

def load (files : Directory) (config : Config) (path : String) : Except String Revision := do
  return (← held files path).asRevision config

def opened (config : Config) (path : String) (r : Revision) : Except String Session :=
  match (Session.new config).load (config.defaultName.getD path) r with
  | .ok s => .ok s
  | .error fault => .error ("Failed to open " ++ named path ++ ": " ++ fault.message)

def openSession (files : Directory) (config : Config) (path : String) : Except String Session := do
  opened config path (← load files config path)

def stored (files : Directory) (path : String) (r : Revision) : Except String Directory :=
  match saveRevision files path r with
  | .error fault => .error ("Failed to write " ++ named path ++ ": " ++ fault.message)
  | .ok files => .ok files

def built (s : Session) : Except String Revision :=
  match s.build with
  | .ok r => .ok r
  | .error .noChain => .error "The edit removed the root; refusing to write an empty chain"
  | .error fault => .error ("Failed to build revision: " ++ fault.message)

def write (files : Directory) (path : String) (r : Revision) : Effect :=
  match stored files path r with
  | .error complaint => complain files complaint
  | .ok files => print files (r.chain.outline ++ "\n")

def save (files : Directory) (path : String) (s : Session) : Effect :=
  match built s with
  | .error complaint => complain files complaint
  | .ok r => write files path r

def nodeMissing (id : NodeId) (path : String) : String :=
  "Chain " ++ idText id ++ " does not exist in " ++ named path

/-- The names of the language models of a revision, if it has any. -/
def llmsText (r : Revision) : String :=
  if r.llms.isEmpty then "" else "llms: " ++ ", ".intercalate (Entries.keys r.llms) ++ "\n"

/-- Draw a chain, and print its interface and the names of its language models. -/
def showChain (files : Directory) (r : Revision) : Effect :=
  print files (r.chain.outline ++ "\n" ++ r.chain.interface.text ++ "\n" ++ llmsText r)

/-- The node of a file whose interface is asked for: the root, if no id is given. -/
def asked (r : Revision) (path : String) (id : Option NodeId) : Except String Node :=
  match id with
  | none => .ok r.chain
  | some id =>
    match r.chain.find? id with
    | none => .error (nodeMissing id path)
    | some n => .ok n

def interfaceText (n : Node) : String := n.heading ++ ": " ++ n.interface.text ++ "\n"

def validText (elapsed : String) (n : Node) : String :=
  "OK: " ++ String.ofList (Decimal.naturalText n.size) ++ " nodes, ids unique (checked in " ++
    elapsed ++ ")\n"

def inserted (s : Session) (kind : String) (parent : NodeId) (index : Nat) :
    Except String (NodeId × Session) :=
  match s.insert kind parent index with
  | .error fault => .error ("Insert failed: " ++ fault.message)
  | .ok (none, _) =>
    .error ("Chain " ++ idText parent ++ " does not exist or cannot hold children")
  | .ok (some id, s) => .ok (id, s)

def insertedText (kind : String) (id parent : NodeId) : String :=
  "Inserted " ++ kind ++ " #" ++ idText id ++ " under #" ++ idText parent ++ "\n"

def insertNode (files : Directory) (config : Config) (path kind : String) (parent : NodeId)
    (index : Nat) (output : Option String) : Effect :=
  match openSession files config path with
  | .error complaint => complain files complaint
  | .ok s =>
    match inserted s kind parent index with
    | .error complaint => complain files complaint
    | .ok (id, s) => (save files (output.getD path) s).after (insertedText kind id parent)

def deleted (s : Session) (path : String) (id : NodeId) : Except String Session :=
  if (s.find? id).isNone then .error (nodeMissing id path) else .ok (s.delete id)

def deleteNode (files : Directory) (config : Config) (path : String) (id : NodeId)
    (output : Option String) : Effect :=
  match openSession files config path with
  | .error complaint => complain files complaint
  | .ok s =>
    match deleted s path id with
    | .error complaint => complain files complaint
    | .ok s => save files (output.getD path) s

/-- Carry out a command. `elapsed` is the time that a validation reports. -/
def perform (elapsed : String) (files : Directory) (config : Config) : Command → Effect
  | .show path =>
    match load files config path with
    | .error complaint => complain files complaint
    | .ok r => showChain files r
  | .io path id =>
    match load files config path with
    | .error complaint => complain files complaint
    | .ok r =>
      match asked r path id with
      | .error complaint => complain files complaint
      | .ok n => print files (interfaceText n)
  | .recompute path output =>
    match load files config path with
    | .error complaint => complain files complaint
    | .ok r => write files (output.getD path) { r with chain := r.chain.refresh }
  | .insert path kind parent index output => insertNode files config path kind parent index output
  | .delete path id output => deleteNode files config path id output
  | .validate path =>
    match load files config path with
    | .error complaint => complain files complaint
    | .ok r => print files (validText elapsed r.chain)

def usageCode : Nat := 2

/-- What a command does, as a program that logs nothing leaves it. -/
def Effect.outcome (e : Effect) : Outcome :=
  match e.complaint with
  | none => ⟨0, e.printed, "", e.files⟩
  | some complaint => ⟨1, e.printed, "\nError: " ++ complaint ++ "\n", e.files⟩

/-- The configuration to use: that in a file, if one is named. -/
def chosenConfig (files : Directory) : Option String → Except String Config
  | none => .ok .standard
  | some path =>
    match loadConfig files path with
    | .error fault => .error ("Failed to load config: " ++ fault.message)
    | .ok config => .ok config

def invoke (elapsed : String) (files : Directory) (i : Invocation) : Effect :=
  match chosenConfig files i.config with
  | .error complaint => complain files complaint
  | .ok config => perform elapsed files config i.command

/-- Run the program with these arguments and with nothing logged. Its wording of a misuse, which a
request for help counts as, is its own. -/
def run (elapsed : String) (files : Directory) (arguments : List String) : Outcome :=
  match Invocation.ofArguments? arguments with
  | none => ⟨usageCode, "", "error: the arguments ask for no command\n", files⟩
  | some i => (invoke elapsed files i).outcome

end Command

end PromptChain
