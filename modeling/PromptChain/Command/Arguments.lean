/-!
# Command line arguments

Arguments are words and options. An option takes one value, in its own argument or the next, and may
be given once; a value in the next argument does not start with a dash. After `--` all arguments are
words.
-/

set_option autoImplicit false

namespace PromptChain.Command

structure OptionName where
  long : String
  short : Option Char
deriving DecidableEq

/-- The options that have been given, each under its long name, and the words. -/
structure Arguments where
  options : List (String × String)
  words : List String
deriving DecidableEq

namespace Arguments

def none : Arguments := ⟨[], []⟩

def addWord (a : Arguments) (word : String) : Arguments := { a with words := a.words ++ [word] }

def addOption? (a : Arguments) (long value : String) : Option Arguments :=
  if a.options.any (·.1 = long) then .none
  else some { a with options := a.options ++ [(long, value)] }

def get? (a : Arguments) (long : String) : Option String := a.options.lookup long

end Arguments

def isWord (argument : String) : Bool :=
  match argument.toList with
  | '-' :: _ :: _ => false
  | _ => true

/-- What an argument that starts with a dash is: the known option it names, and its value if it
holds one. -/
def option? (known : List OptionName) (argument : String) : Option (OptionName × Option String) :=
  match argument.toList with
  | '-' :: '-' :: name =>
    let long := String.ofList (name.takeWhile (· ≠ '='))
    let value := match name.dropWhile (· ≠ '=') with
      | _ :: value => some (String.ofList value)
      | [] => none
    (known.find? (·.long = long)).map (·, value)
  | '-' :: letter :: value =>
    let value := match value with
      | [] => none
      | '=' :: value => some (String.ofList value)
      | value => some (String.ofList value)
    (known.find? (·.short = some letter)).map (·, value)
  | _ => none

/-- Take arguments apart; nothing if an option is unknown, lacks its value or is given twice. With
`commanded`, the first word ends the options, and all arguments from it on are words. -/
def parse? (known : List OptionName) (commanded : Bool) : List String → Arguments → Option Arguments
  | [], a => some a
  | argument :: others, a =>
    if argument = "--" then
      if commanded then none else some { a with words := a.words ++ others }
    else if isWord argument then
      if commanded then some { a with words := argument :: others }
      else parse? known commanded others (a.addWord argument)
    else match option? known argument with
      | none => none
      | some (name, some value) => do parse? known commanded others (← a.addOption? name.long value)
      | some (name, none) =>
        match others with
        | value :: others =>
          if isWord value then do parse? known commanded others (← a.addOption? name.long value)
          else none
        | [] => none

/-- The value of decimal digits, with a plus sign before them at most; nothing beyond 64 bits. -/
def word? (text : String) : Option UInt64 :=
  let digits := match text.toList with
    | '+' :: digits => digits
    | digits => digits
  if digits.isEmpty || !digits.all Char.isDigit then none
  else
    let n : Nat := digits.foldl (fun n d => n * 10 + (d.toNat - '0'.toNat)) 0
    if n < 0x10000000000000000 then some n.toUInt64 else none

example : parse? [⟨"output", some 'o'⟩] false ["a", "-ob", "--", "-c"] .none =
    some ⟨[("output", "b")], ["a", "-c"]⟩ := by decide +kernel
example : parse? [⟨"output", some 'o'⟩] false ["--output=", "-"] .none =
    some ⟨[("output", "")], ["-"]⟩ := by decide +kernel
example : parse? [⟨"output", some 'o'⟩] false ["-o", "-x"] .none = none := by decide +kernel

end PromptChain.Command
