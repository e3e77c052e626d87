import PromptChain.Generator.Basic

/-!
# The program

`main` runs the command line on the files that its arguments name; with `generate` as the first
argument, it runs the generator.
-/

set_option autoImplicit false

namespace PromptChain.Program

/-- The paths that an argument can name: the argument, or the value of the option it holds. -/
def namedPaths (argument : String) : List String :=
  [argument, String.ofList ((argument.toList.dropWhile (· ≠ '=')).drop 1),
    String.ofList (argument.toList.drop 2)]

def isFolder (path : String) : IO Bool := do return ← ((← IO.currentDir) / path).isDir

/-- The readable files and the folders among the paths that the arguments name, and the folders
these lie in. -/
def readFiles (arguments : List String) : IO Directory := do
  let mut files : List (String × String) := []
  let mut folders : List String := []
  for path in (arguments.flatMap namedPaths).map (Directory.join ∘ Directory.place) do
    match ← (IO.FS.readFile path).toBaseIO with
    | .ok text => files := Entries.put files path text
    | .error _ => if ← isFolder path then folders := path :: folders
    let holder := Directory.folderOf path
    if ← isFolder holder then folders := holder :: folders
  return { files, folders }

/-- Write the changed files, print what was printed, and give the exit code. -/
def finish (before : Directory) (o : Outcome) : IO UInt32 := do
  for (path, text) in before.changes o.files do
    IO.FS.writeFile path text
  IO.print o.stdout
  IO.eprint o.stderr
  return o.exitCode.toUInt32

end PromptChain.Program

open PromptChain

def main (arguments : List String) : IO UInt32 := do
  let start ← IO.monoNanosNow
  let files ← Program.readFiles arguments
  match arguments with
  | "generate" :: others =>
    let seed ← IO.rand 0 0x4000000000000000
    Program.finish files (Generator.run (.ofSeed seed.toUInt64) files others)
  | _ =>
    let elapsed := (← IO.monoNanosNow) - start
    Program.finish files (Command.run (toString elapsed ++ "ns") files arguments)
