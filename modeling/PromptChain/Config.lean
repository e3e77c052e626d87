import PromptChain.Revision

/-!
# The configuration of a designer

A configuration names the language models of new chains, the name of a new chain and what is logged.
Whatever a document leaves out has its default.
-/

set_option autoImplicit false

namespace PromptChain

open Json (Reading Reader TextFields ValueFields Decoder defaulted)

structure Config where
  llms : Llms
  defaultName : Option String
  logFilter : String

namespace Config

def standard : Config := { llms := .standard, defaultName := none, logFilter := "info" }

def same (a b : Config) : Bool :=
  Llms.same a.llms b.llms && a.defaultName = b.defaultName && a.logFilter = b.logFilter

def toJson (c : Config) : Json :=
  .object [("llms", c.llms.toJson), ("default_chain_name", .ofOption .text c.defaultName),
    ("log_filter", .text c.logFilter)]

def recordName : String := "DesignerConfig"

def readText : Reader String := fun cs => do
  match Json.skipBlanks cs with
  | '"' :: rest => Json.readQuotation rest
  | cs => Json.readMistyped "a string" cs

/-- The fields of a configuration of a text, inside which `room` lists and objects may be nested. -/
def textFields (budget room : Nat) : TextFields [Llms, Option String, String] :=
  .cons ⟨"llms", Llms.read budget room, some standard.llms⟩ <|
  .cons ⟨"default_chain_name", Revision.readText, some standard.defaultName⟩ <|
  .cons ⟨"log_filter", readText, some standard.logFilter⟩ .nil

def read (budget : Nat) : Reader Config := fun cs => do
  let ((llms, defaultName, logFilter, ()), rest) ←
    TextFields.read recordName (textFields budget (Json.depthLimit - 1)) budget cs
  return ({ llms, defaultName, logFilter }, rest)

def ofText (text : String) : Reading Config := Json.readWith read text

def valueFields : ValueFields [Llms, Option String, String] :=
  .cons (defaulted "llms" standard.llms Llms.ofJson) <|
  .cons (defaulted "default_chain_name" standard.defaultName (.optional .text)) <|
  .cons (defaulted "log_filter" standard.logFilter .text) .nil

def ofJson : Decoder Config := fun v => do
  let (llms, defaultName, logFilter, ()) ← ValueFields.ofJson recordName valueFields v
  return { llms, defaultName, logFilter }

inductive Fault where
  | inaccessible (path : String) (reason : String)
  | unreadable (cause : Json.Fault)
deriving DecidableEq

def Fault.message : Fault → String
  | inaccessible path reason => "Could not read config file '" ++ path ++ "': " ++ reason
  | unreadable cause => "Invalid config: " ++ cause.message

end Config

end PromptChain
