import PromptChain.Session.Step

/-!
# Steps of a session, field by field

A `Program` reads a session and sets its fields one after the other. It may fail on the way, and
what it has set by then stays set. `Step.program` carries out a step in this way: every check, then
the fields.
-/

set_option autoImplicit false

namespace PromptChain.Session

/-- A computation that reads and sets the fields of a session and may fail on the way. -/
abbrev Program := ExceptT Fault (StateM Session)

def Step.program : Step → Program Answer
  | .insert kindName parent index => do
    let kind ← liftFault (Kind.ofName kindName)
    let newId ← liftFault (Node.nextId (← get).working (← get).nextId)
    let tree := Node.insert (← get).working newId kind parent index
    if (tree.find? newId).isNone then return .inserted none
    modify fun s => { s with working := some tree }
    modify fun s => { s with nextId := afterId newId }
    return .inserted (some newId)
  | .delete id => do
    modify fun s => { s with working := s.working.bind (Node.delete id) }
    return .done
  | .update node => do
    match (← get).working.bind (Node.replace? node) with
    | none => throw (.nodeMissing node.id)
    | some tree =>
      modify fun s => { s with working := some tree }
      return .done
  | .setName name => do
    modify fun s => { s with name }
    return .done
  | .setLlms llms => do
    modify fun s => { s with llms }
    return .done
  | .toggle => do
    modify fun s => { s with interacting := !s.interacting }
    return .done
  | .load name r => do
    liftFault r.chain.checkIds
    let nextId ← liftFault (Node.nextId (some r.chain) 0)
    modify fun s => { s with name }
    modify fun s => { s with nextId }
    modify fun s => { s with parent := r.id }
    modify fun s => { s with baseline := some r.chain }
    modify fun s => { s with working := some r.chain }
    modify fun s => { s with savedLlms := r.llms }
    modify fun s => { s with llms := r.llms }
    return .done
  | .build => do
    if !(← get).isActive then throw .noName
    match (← get).working with
    | none => throw .noChain
    | some tree => return .built (.create (← get).parent tree (← get).llms)
  | .markSaved id r => do
    modify fun s => { s with parent := some id }
    modify fun s => { s with baseline := some r.chain }
    modify fun s => { s with working := some r.chain }
    modify fun s => { s with savedLlms := r.llms }
    modify fun s => { s with llms := r.llms }
    return .done
  | .reset => do
    modify fun s => { s with working := s.baseline }
    modify fun s => { s with llms := s.savedLlms }
    return .done

def Answer.ofOutcome : Except Fault Answer → Answer
  | .ok answer => answer
  | .error cause => .failed cause

/-- What the program of a step gives, and the session that it leaves behind. -/
def execute (s : Session) (step : Step) : Except Fault Answer × Session :=
  (step.program.run).run s

end PromptChain.Session
