import PromptChain.Session.Basic

/-!
# Steps of a session

A `Step` is one operation that may change a session, and `perform` carries it out: it gives an
answer and the session afterwards. A step that fails answers its fault and leaves the session as it
is.
-/

set_option autoImplicit false

namespace PromptChain.Session

inductive Step where
  | insert (kind : String) (parent : NodeId) (index : Nat)
  | delete (id : NodeId)
  | update (node : Node)
  | setName (name : String)
  | setLlms (llms : Llms)
  | toggle
  | load (name : String) (revision : Revision)
  | build
  | markSaved (id : String) (revision : Revision)
  | reset

inductive Answer where
  | done
  | inserted (id : Option NodeId)
  | built (revision : Revision)
  | failed (cause : Fault)

def perform (s : Session) : Step → Answer × Session
  | .insert kind parent index =>
    match s.insert kind parent index with
    | .ok (id, t) => (.inserted id, t)
    | .error cause => (.failed cause, s)
  | .delete id => (.done, s.delete id)
  | .update node =>
    match s.update node with
    | .ok t => (.done, t)
    | .error cause => (.failed cause, s)
  | .setName name => (.done, s.setName name)
  | .setLlms llms => (.done, s.setLlms llms)
  | .toggle => (.done, s.toggle)
  | .load name r =>
    match s.load name r with
    | .ok t => (.done, t)
    | .error cause => (.failed cause, s)
  | .build =>
    match s.build with
    | .ok r => (.built r, s)
    | .error cause => (.failed cause, s)
  | .markSaved id r => (.done, s.markSaved id r)
  | .reset => (.done, s.reset)

def run (s : Session) (steps : List Step) : Session :=
  steps.foldl (fun s step => (s.perform step).2) s

@[simp] theorem run_nil (s : Session) : s.run [] = s := rfl

@[simp] theorem run_cons (s : Session) (step : Step) (steps : List Step) :
    s.run (step :: steps) = (s.perform step).2.run steps := rfl

theorem run_append (s : Session) (steps others : List Step) :
    s.run (steps ++ others) = (s.run steps).run others := by
  simp [run]

theorem perform_of_failed {s t : Session} {step : Step} {cause : Fault}
    (h : s.perform step = (.failed cause, t)) : t = s := by
  cases step <;> simp only [perform] at h <;> (try split at h) <;> simp_all

end PromptChain.Session
