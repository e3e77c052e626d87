import PromptChain.Entries

/-!
# The files of a directory

A `Directory` holds the text of files under their places, relative to the working directory or
absolute. A folder exists when it is named or some file lies in it; so do the folders above the
working directory, in which nothing else is known. Paths are followed part by part, and a file is
written only to a path that does not insist on a folder.
-/

set_option autoImplicit false

namespace PromptChain

/-- Files, each with its text, and folders, which may be empty. -/
structure Directory where
  files : List (String × String)
  folders : List String
deriving DecidableEq

namespace Directory

inductive Refusal where
  | notFound
  | notFolder
  | isFolder
  | nameTooLong
  | nullInName
deriving DecidableEq

def Refusal.message : Refusal → String
  | notFound => "No such file or directory (os error 2)"
  | notFolder => "Not a directory (os error 20)"
  | isFolder => "Is a directory (os error 21)"
  | nameTooLong => "File name too long (os error 36)"
  | nullInName => "file name contained an unexpected NUL byte"

/-- The parts of a path between its slashes; `part` holds the part so far, its last character
first. -/
def partsFrom (part : List Char) : List Char → List (List Char)
  | [] => [part.reverse]
  | c :: cs => if c = '/' then part.reverse :: partsFrom [] cs else partsFrom (c :: part) cs

def isAbsolute (path : String) : Bool := path.toList.head? = some '/'

def parts (path : String) : List String :=
  ((partsFrom [] path.toList).filter (· ≠ [])).map String.ofList

/-- The place where a path starts: the root, which is an empty part, or the working directory. -/
def start (path : String) : List String := if isAbsolute path then [""] else []

/-- The folder above a folder. Nothing is above the root, and what is above the working directory
has no name but the steps that lead up. -/
def above (here : List String) : List String :=
  if here = [""] then here
  else if here.all (· = "..") then here ++ [".."]
  else here.dropLast

/-- Where a part of a path leads from a folder, whatever is there. -/
def onward (here : List String) (part : String) : List String :=
  if part = "." then here else if part = ".." then above here else here ++ [part]

def place (path : String) : List String := (parts path).foldl onward (start path)

def join (place : List String) : String := "/".intercalate place

def folderOf (path : String) : String := join (place path).dropLast

def isWithin (path : String) : Bool :=
  match place path with
  | [] => false
  | part :: _ => part ≠ "" && part ≠ ".."

def ofFiles (files : List (String × String)) : Directory :=
  ⟨Entries.ofList (files.map fun f => (join (place f.1), f.2)), []⟩

def hasFile (d : Directory) (place : List String) : Bool := Entries.has d.files (join place)

/-- Whether a folder is in this place: the root, the working directory or one above it, or any
folder that is named or holds something. -/
def hasFolder (d : Directory) (here : List String) : Bool :=
  here = [""] || here.all (· = "..") ||
    d.files.any (fun f => here.isPrefixOf (place f.1).dropLast) ||
    d.folders.any fun f => here.isPrefixOf (place f)

def longestPart : Nat := 255

def longestPath : Nat := 4095

def enter (d : Directory) (here : List String) (part : String) : Except Refusal (List String) :=
  let there := onward here part
  if part = "." || part = ".." then .ok there
  else if longestPart < part.utf8ByteSize then .error .nameTooLong
  else if d.hasFile there then .error .notFolder
  else if d.hasFolder there then .ok there
  else .error .notFound

inductive Target where
  | folder
  | file (path : String)
  | vacant (path : String)
deriving DecidableEq

def target (d : Directory) (here : List String) (part : String) : Except Refusal Target :=
  let there := onward here part
  if part = "." || part = ".." then .ok .folder
  else if longestPart < part.utf8ByteSize then .error .nameTooLong
  else if d.hasFile there then .ok (.file (join there))
  else if d.hasFolder there then .ok .folder
  else .ok (.vacant (join there))

/-- Follow a path up to its last part: the folder reached, and that part. The root is the dot in
itself. -/
def approach (d : Directory) (path : String) : Except Refusal (List String × String) := do
  if path.isEmpty then .error .notFound
  else if path.toList.contains '\x00' then .error .nullInName
  else if longestPath < path.utf8ByteSize then .error .nameTooLong
  else
    let here ← (parts path).dropLast.foldlM d.enter (start path)
    return (here, (parts path).getLast?.getD ".")

def endsInSlash (path : String) : Bool := path.toList.getLast? = some '/'

def read (d : Directory) (path : String) : Except Refusal String := do
  let (here, part) ← d.approach path
  match ← d.target here part with
  | .folder => .error .isFolder
  | .vacant _ => .error .notFound
  | .file name =>
    if endsInSlash path then .error .notFolder
    else match Entries.get? d.files name with
      | some text => .ok text
      | none => .error .notFound

/-- The directory after writing a text to a file, a new one or in place of the old text. -/
def write (d : Directory) (path text : String) : Except Refusal Directory := do
  let (here, part) ← d.approach path
  if endsInSlash path then .error .isFolder
  else match ← d.target here part with
    | .folder => .error .isFolder
    | .vacant name => .ok { d with files := Entries.put d.files name text }
    | .file name => .ok { d with files := Entries.put d.files name text }

/-- The files of `after` that are new or have another text than in `before`, sorted by path. -/
def changes (before after : Directory) : List (String × String) :=
  (after.files.filter fun f => Entries.get? before.files f.1 ≠ some f.2).mergeSort
    fun a b => a.1 ≤ b.1

example : place "./a//../b" = ["b"] ∧ place "../../a/" = ["..", "..", "a"] ∧
    place "/../a" = ["", "a"] := by
  decide +kernel
example : read (ofFiles []) "../.." = .error .isFolder := by cbv
example : read (ofFiles [("a", "")]) "a/" = .error .notFolder := by cbv
example : write (ofFiles [("a", "")]) "a/" "" = .error .isFolder := by cbv

end Directory

/-- What a program leaves behind: its exit code, what it printed, and the files. -/
structure Outcome where
  exitCode : Nat
  stdout : String
  stderr : String
  files : Directory
deriving DecidableEq

end PromptChain
