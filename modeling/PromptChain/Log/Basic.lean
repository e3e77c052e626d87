import PromptChain.Config
import PromptChain.Fault

/-!
# Log output

What is done is reported in events. A logger prints those that its filter lets through, each on a
line of its own. The directives of the filter are taken from the environment if there are valid
ones, and from the configuration otherwise. How directives are read and how an event is laid out is
up to the logger.
-/

set_option autoImplicit false

namespace PromptChain.Log

inductive Level where
  | trace
  | debug
  | info
  | warn
  | error
deriving DecidableEq

namespace Level

def all : List Level := [trace, debug, info, warn, error]

def name : Level → String
  | trace => "trace"
  | debug => "debug"
  | info => "info"
  | warn => "warn"
  | error => "error"

/-- The name of a level as it stands in a line, five characters wide. -/
def label : Level → String
  | trace => "TRACE"
  | debug => "DEBUG"
  | info => " INFO"
  | warn => " WARN"
  | error => "ERROR"

def gravity (l : Level) : Nat := all.idxOf l

end Level

inductive Value where
  | id (value : NodeId)
  | number (value : Nat)
  | text (value : String)
  | name (value : String)
deriving DecidableEq

def Value.print : Value → String
  | id i => idText i
  | number n => String.ofList (Decimal.naturalText n)
  | text s => Text.quoted s
  | name s => s

/-- An event; its target is the part of the program that reports it. -/
structure Event where
  level : Level
  target : String
  message : String
  fields : List (String × Value)
deriving DecidableEq

/-- A filter that has been set up, with what was printed about directives that it leaves out. -/
structure Filter where
  notice : String
  passes : Event → Bool

/-- A logger on a machine. A malformed list of directives is no list at all for `strict?`, while
`lenient` takes what it can of it. The clock stands still in `text`. -/
structure Logger where
  environment : Option String
  strict? : String → Option Filter
  lenient : String → Filter
  text : Event → String

namespace Logger

def filter (l : Logger) (config : Config) : Filter :=
  (l.environment.bind l.strict?).getD (l.lenient config.logFilter)

def line (l : Logger) (f : Filter) (e : Event) : String :=
  if f.passes e then l.text e ++ "\n" else ""

/-- What is printed of some events, the notice of the filter first. -/
def print (l : Logger) (config : Config) (events : List Event) : String :=
  (l.filter config).notice ++ String.join (events.map (l.line (l.filter config)))

/-- A logger for which a directive is the name of a level, and which has no environment. A line
starts with the time of its clock, which stands still. -/
def ofLevels : Logger where
  environment := none
  strict? _ := none
  lenient directive :=
    match Level.all.find? (·.name = directive) with
    | some least => ⟨"", fun e => least.gravity ≤ e.level.gravity⟩
    | none =>
      ⟨"ignoring `" ++ directive ++ "`: invalid filter directive\n", fun e => e.level = .error⟩
  text e := "2026-01-01T00:00:00.000000Z " ++ e.level.label ++ " " ++ e.target ++ ": " ++
    e.message ++ String.join (e.fields.map fun f => " " ++ f.1 ++ "=" ++ f.2.print)

theorem line_eq_empty_iff {l : Logger} {f : Filter} {e : Event} :
    l.line f e = "" ↔ f.passes e = false := by
  rw [line]
  cases f.passes e <;> simp

theorem print_cons (l : Logger) (config : Config) (e : Event) (events : List Event) :
    ∃ rest, l.print config events = (l.filter config).notice ++ rest ∧
      l.print config (e :: events) =
        (l.filter config).notice ++ (l.line (l.filter config) e ++ rest) := by
  refine ⟨_, rfl, ?_⟩
  rw [print, List.map_cons, String.join_cons]

theorem print_of_silent {l : Logger} {config : Config}
    (hpasses : ∀ e, (l.filter config).passes e = false) (events : List Event) :
    l.print config events = (l.filter config).notice := by
  have hlines : ∀ e ∈ events, l.line (l.filter config) e = "" := fun e _ =>
    line_eq_empty_iff.2 (hpasses e)
  rw [print, List.map_congr_left hlines]
  induction events <;> simp_all

end Logger

end PromptChain.Log
