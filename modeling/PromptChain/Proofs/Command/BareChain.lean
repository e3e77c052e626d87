import PromptChain.Proofs.Command.Execution
import PromptChain.Proofs.Command.Loading
import PromptChain.Proofs.Directory
import PromptChain.Proofs.Node.ProperEdits
import PromptChain.Proofs.Revision.Misreading

/-!
# A chain in a file counts as a revision

A file that holds a chain alone is loaded as the revision that is made of it, and so is the text of
that revision. A command takes nothing from the file but what it loads, so it does the same with
either file. Only its log tells them apart, where a chain alone is reported.
-/

set_option autoImplicit false

namespace PromptChain

def Command.source : Command → String
  | .show path => path
  | .io path _ => path
  | .recompute path _ => path
  | .insert path _ _ _ _ => path
  | .delete path _ _ => path
  | .validate path => path

/-- Two directories that are left as they were, or get the same text into the same file. -/
def Directory.ChangedAlike (d d' after after' : Directory) : Prop :=
  (after = d ∧ after' = d') ∨ ∃ name text, after = d.put name text ∧ after' = d'.put name text

namespace Command

/-- Ends of a program on two directories that differ in nothing but the directories and what the
first program had reported before. -/
structure EndAlike (d d' : Directory) (before : List Log.Event)
    (ended ended' : Except String Unit × Machine) : Prop where
  result : ended.1 = ended'.1
  printed : ended.2.printed = ended'.2.printed
  logged : ended.2.logged = before ++ ended'.2.logged
  files : d.ChangedAlike d' ended.2.files ended'.2.files

def Program.Alike (d d' : Directory) (before : List Log.Event) (p : Program Unit) : Prop :=
  ∀ printed logged, EndAlike d d' before (p.run.run ⟨d, printed, before ++ logged⟩)
    (p.run.run ⟨d', printed, logged⟩)

section

variable {α : Type} {d d' : Directory} {before : List Log.Event}

theorem alike_say (text : String) : (say text).Alike d d' before := fun _ _ =>
  ⟨rfl, rfl, rfl, .inl ⟨rfl, rfl⟩⟩

theorem alike_say_bind {text : String} {f : Unit → Program Unit} (h : (f ()).Alike d d' before) :
    (say text >>= f : Program Unit).Alike d d' before := fun printed logged => by
  rw [run_say_bind, run_say_bind]
  exact h _ logged

theorem alike_report_bind {events : List Log.Event} {f : Unit → Program Unit}
    (h : (f ()).Alike d d' before) : (report events >>= f : Program Unit).Alike d d' before :=
  fun printed logged => by
    rw [run_report_bind, run_report_bind]
    dsimp only
    rw [List.append_assoc]
    exact h printed _

theorem alike_lift_bind {x : Except String α} {f : α → Program Unit}
    (h : ∀ a, (f a).Alike d d' before) : (liftM x >>= f : Program Unit).Alike d d' before :=
  fun printed logged => by
    rw [run_lift_bind, run_lift_bind]
    cases x with
    | error complaint => exact ⟨rfl, rfl, rfl, .inl ⟨rfl, rfl⟩⟩
    | ok a => exact h a printed logged

theorem alike_write (hpaths : d'.destination = d.destination) (target : String) (r : Revision) :
    (writeProgram target r).Alike d d' before := fun printed logged => by
  simp only [run_writeProgram, stored, saveRevision, Directory.write_eq, hpaths]
  cases d.destination target with
  | error refusal => exact ⟨rfl, rfl, rfl, .inl ⟨rfl, rfl⟩⟩
  | ok name => exact ⟨rfl, rfl, List.append_assoc .., .inr ⟨name, r.pretty, rfl, rfl⟩⟩

section

variable {config : Config} {path : String} {c : Node}
  (hchain : held d path = .ok (.chain c))
  (hrevision : held d' path = .ok (.revision (.create none c config.llms)))

include hchain hrevision

theorem endAlike_load {f : Revision → Program Unit}
    (h : ∀ r, (f r).Alike d d' [Log.bareChainLoaded path]) :
    EndAlike d d' [Log.bareChainLoaded path] ((loadProgram config path >>= f).execute d)
      ((loadProgram config path >>= f).execute d') := by
  rw [Program.execute, Program.execute, run_loadProgram_bind, run_loadProgram_bind, hchain,
    hrevision]
  exact h _ "" []

theorem endAlike_open {f : Session → Program Unit}
    (h : ∀ s, (f s).Alike d d' [Log.bareChainLoaded path]) :
    EndAlike d d' [Log.bareChainLoaded path] ((openProgram config path >>= f).execute d)
      ((openProgram config path >>= f).execute d') := by
  rw [openProgram, bind_assoc]
  refine endAlike_load hchain hrevision fun r => ?_
  rw [bind_assoc]
  refine alike_lift_bind fun s => ?_
  rw [bind_assoc]
  exact alike_report_bind (h s)

end

/-- A command does alike on directories whose paths lead to the same places, if what it reads is a
chain alone in one of them and the revision made of the chain in the other. -/
theorem endAlike_program (hpaths : d'.destination = d.destination) (elapsed : String)
    {config : Config} {command : Command} {c : Node}
    (hchain : held d command.source = .ok (.chain c))
    (hrevision : held d' command.source = .ok (.revision (.create none c config.llms))) :
    EndAlike d d' [Log.bareChainLoaded command.source] ((command.program elapsed config).execute d)
      ((command.program elapsed config).execute d') := by
  cases command with
  | «show» path =>
    exact endAlike_load hchain hrevision fun r => alike_say_bind (alike_say_bind (alike_say _))
  | io path id =>
    exact endAlike_load hchain hrevision fun r => alike_lift_bind fun n => alike_say _
  | recompute path output =>
    exact endAlike_load hchain hrevision fun r => alike_write hpaths _ _
  | insert path kind parent index output =>
    refine endAlike_open hchain hrevision fun s =>
      alike_report_bind (alike_lift_bind fun given => ?_)
    exact alike_say_bind (alike_lift_bind fun r => alike_write hpaths _ r)
  | delete path id output =>
    refine endAlike_open hchain hrevision fun s => alike_lift_bind fun t => alike_report_bind ?_
    exact alike_lift_bind fun r => alike_write hpaths _ r
  | validate path =>
    exact endAlike_load hchain hrevision fun r => alike_say _

end

theorem EndAlike.outcome {d d' : Directory} {before : List Log.Event}
    {ended ended' : Except String Unit × Machine} (h : EndAlike d d' before ended ended') :
    let o := (Effect.ofExecution ended).outcome
    let o' := (Effect.ofExecution ended').outcome
    o.exitCode = o'.exitCode ∧ o.stdout = o'.stdout ∧ o.stderr = o'.stderr ∧
      d.ChangedAlike d' o.files o'.files := by
  dsimp only [Effect.ofExecution, Effect.outcome]
  rw [h.result]
  cases ended'.1 with
  | ok _ => exact ⟨rfl, h.printed, rfl, h.files⟩
  | error complaint => exact ⟨rfl, h.printed, rfl, h.files⟩

section

variable {files files' : Directory} {config : Config} {path : String} {c : Node}

theorem held_of_chain (w : Json.Style) (hproper : c.Proper) (hlegible : c.toJson.Legible)
    (hdepth : c.toJson.depth ≤ Json.depthLimit) (hids : c.IdsDistinct)
    (hread : files.read path = .ok (String.ofList (w.text 0 c.toJson))) :
    held files path = .ok (.chain c) := by
  have hchain := Node.ofText_text w hproper hlegible
  rw [if_pos hdepth] at hchain
  exact held_eq_ok.2 ⟨_, hread, ⟨_, Revision.ofText_node w hlegible⟩, hchain,
    (Node.checkIds_eq_ok_iff c).2 hids⟩

theorem held_of_create (hproper : c.Proper) (hlegible : c.toJson.Legible) (hids : c.IdsDistinct)
    (hmodels : config.llms.Proper) (hmodelsLegible : config.llms.toJson.Legible)
    (hdepth : (Revision.create none c config.llms).toJson.depth ≤ Json.depthLimit)
    (hread : files.read path = .ok (Revision.create none c config.llms).pretty) :
    held files path = .ok (.revision (.create none c config.llms)) := by
  have hrefreshed : c.refresh.IdsDistinct := by
    rwa [Node.IdsDistinct, Node.ids_refresh]
  have htext := Revision.ofText_pretty_of_idsDistinct (Revision.proper_create hproper hmodels none)
    (Revision.legible_create hlegible hmodelsLegible none) hdepth hrefreshed
  exact held_eq_ok.2 ⟨_, hread, htext⟩

theorem endAlike_of_chain (w : Json.Style) (elapsed : String) {i : Invocation} (hproper : c.Proper)
    (hids : c.IdsDistinct)
    (hdoubles : ∀ x, .double x ∈ c.toJson.numbers → Json.ReadsBack (.double x))
    (hmodelDoubles : ∀ x, .double x ∈ config.llms.toJson.numbers → Json.ReadsBack (.double x))
    (hnesting : Json.nesting (Revision.create none c config.llms).pretty ≤ Json.depthLimit)
    (hread : files.read i.command.source = .ok (String.ofList (w.text 0 c.toJson)))
    (hwrite : files.write i.command.source (Revision.create none c config.llms).pretty = .ok files')
    (hconfig : chosenConfig files i.config = .ok config)
    (hconfig' : chosenConfig files' i.config = .ok config) :
    EndAlike files files' [Log.bareChainLoaded i.command.source] ((i.program elapsed).execute files)
      ((i.program elapsed).execute files') := by
  have hmodels := proper_of_chosenConfig hconfig
  have hlegible := Json.legible_of_inRange (Node.inRange_toJson hproper) hdoubles
  have hmodelsLegible := Json.legible_of_inRange (Llms.lawful.inRange_write _ hmodels) hmodelDoubles
  rw [Revision.pretty, Json.nesting_toPretty] at hnesting
  have hinside : c.toJson.depth ≤ Json.depthLimit - 1 := by
    have hparts := (Revision.depth_toJson_le_iff _ (Json.depthLimit - 1)).1 hnesting
    rw [← c.depth_toJson_refresh]
    exact hparts.1
  have hchain := held_of_chain w hproper hlegible (hinside.trans (Nat.sub_le ..)) hids hread
  have hrevision := held_of_create hproper hlegible hids hmodels hmodelsLegible hnesting
    (Directory.read_of_write hwrite)
  rw [execute_program hconfig, execute_program hconfig']
  exact endAlike_program (Directory.destination_of_overwritten hread hwrite) elapsed hchain
    hrevision

end

theorem runLogged_eq_of_execute {logger : Log.Logger} {elapsed : String} {files : Directory}
    {arguments : List String} {i : Invocation} {config : Config}
    (hi : Invocation.ofArguments? arguments = some i)
    (hconfig : chosenConfig files i.config = .ok config) :
    let o := (Effect.ofExecution ((i.program elapsed).execute files)).outcome
    runLogged logger elapsed files arguments =
      { o with stderr := logger.print config (i.logged elapsed files) ++ o.stderr } := by
  simp only [runLogged, hi, Invocation.logText, hconfig]

theorem exists_stderr_of_endAlike {logger : Log.Logger} {elapsed : String}
    {files files' : Directory} {arguments : List String} {i : Invocation} {config : Config}
    {event : Log.Event}
    (hi : Invocation.ofArguments? arguments = some i)
    (hconfig : chosenConfig files i.config = .ok config)
    (hconfig' : chosenConfig files' i.config = .ok config)
    (halike : EndAlike files files' [event] ((i.program elapsed).execute files)
      ((i.program elapsed).execute files')) :
    ∃ rest,
      (runLogged logger elapsed files' arguments).stderr = (logger.filter config).notice ++ rest ∧
      (runLogged logger elapsed files arguments).stderr =
        (logger.filter config).notice ++ (logger.line (logger.filter config) event ++ rest) := by
  have hlogged : i.logged elapsed files = event :: i.logged elapsed files' := halike.logged
  obtain ⟨printed, hprinted', hprinted⟩ :=
    logger.print_cons config event (i.logged elapsed files')
  refine ⟨printed ++ (Effect.ofExecution ((i.program elapsed).execute files')).outcome.stderr,
    ?_, ?_⟩
  · rw [runLogged_eq_of_execute hi hconfig', hprinted', String.append_assoc]
  · rw [runLogged_eq_of_execute hi hconfig, hlogged, hprinted, halike.outcome.2.2.1]
    simp only [String.append_assoc]

theorem append_line_eq_iff {l : Log.Logger} {f : Log.Filter} {e : Log.Event}
    {notice rest : String} :
    notice ++ (l.line f e ++ rest) = notice ++ rest ↔ f.passes e = false := by
  rw [← @Log.Logger.line_eq_empty_iff l]
  simp

/-- The text of a chain is never taken for a revision, nor that of a revision for a chain. Where a
file holds a chain alone, a run ends and prints as if it held the revision that is made of the
chain, and if it writes, it writes the same text to the same file. It reports that the chain is
alone and then all that the other run reports, so on standard error the two differ in a line for
that event, unless the filter holds it back. -/
theorem runLogged_alike_of_chain :
    (∀ (c : Node) (w : Json.Style), c.Proper →
      (∀ x, .double x ∈ c.toJson.numbers → Json.ReadsBack (.double x)) →
      ∀ r, Revision.ofText (String.ofList (w.text 0 c.toJson)) ≠ .ok r) ∧
    (∀ (r : Revision) (w : Json.Style), r.Proper →
      (∀ x, .double x ∈ r.toJson.numbers → Json.ReadsBack (.double x)) →
      ∀ c, Node.ofText (String.ofList (w.text 0 r.toJson)) ≠ .ok c) ∧
    ∀ (c : Node) (w : Json.Style) (config : Config) (files files' : Directory) (elapsed : String)
      (arguments : List String) (i : Invocation) (logger : Log.Logger), c.Proper → c.IdsDistinct →
      (∀ x, .double x ∈ c.toJson.numbers → Json.ReadsBack (.double x)) →
      (∀ x, .double x ∈ config.llms.toJson.numbers → Json.ReadsBack (.double x)) →
      Json.nesting (Revision.create none c config.llms).pretty ≤ Json.depthLimit →
      Invocation.ofArguments? arguments = some i →
      files.read i.command.source = .ok (String.ofList (w.text 0 c.toJson)) →
      files.write i.command.source (Revision.create none c config.llms).pretty = .ok files' →
      chosenConfig files i.config = .ok config → chosenConfig files' i.config = .ok config →
      let o := runLogged logger elapsed files arguments
      let o' := runLogged logger elapsed files' arguments
      let event := Log.bareChainLoaded i.command.source
      let filter := logger.filter config
      o.exitCode = o'.exitCode ∧ o.stdout = o'.stdout ∧ files.ChangedAlike files' o.files o'.files ∧
        i.logged elapsed files = event :: i.logged elapsed files' ∧
        (∃ rest, o'.stderr = filter.notice ++ rest ∧
          o.stderr = filter.notice ++
            ((if filter.passes event then logger.text event ++ "\n" else "") ++ rest)) ∧
        (o.stderr = o'.stderr ↔ filter.passes event = false) := by
  refine ⟨fun c w hproper hdoubles r hr => ?_, fun r w hproper hdoubles => ?_, ?_⟩
  · rw [Revision.ofText_node w (Json.legible_of_inRange (Node.inRange_toJson hproper) hdoubles)]
      at hr
    contradiction
  · exact Revision.node_ofText_ne_ok w
      (Json.legible_of_inRange (Revision.inRange_toJson hproper) hdoubles)
  · intro c w config files files' elapsed arguments i logger hproper hids hdoubles hmodelDoubles
      hnesting hi hread hwrite hconfig hconfig' o o' event filter
    have halike := endAlike_of_chain w elapsed hproper hids hdoubles hmodelDoubles hnesting
      hread hwrite hconfig hconfig'
    obtain ⟨hcode, hstdout, hcomplaint, hfiles⟩ := halike.outcome
    have ho : o = _ := runLogged_eq_of_execute hi hconfig
    have ho' : o' = _ := runLogged_eq_of_execute hi hconfig'
    obtain ⟨rest, hrest', hrest⟩ : ∃ rest, o'.stderr = filter.notice ++ rest ∧
        o.stderr = filter.notice ++ (logger.line filter event ++ rest) :=
      exists_stderr_of_endAlike hi hconfig hconfig' halike
    refine ⟨?_, ?_, ?_, halike.logged, ⟨rest, hrest', hrest⟩, ?_⟩
    · rw [ho, ho']
      exact hcode
    · rw [ho, ho']
      exact hstdout
    · rw [ho, ho']
      exact hfiles
    · rw [hrest, hrest', append_line_eq_iff]

/-- A choice between a prompt and a vector search, which has a double. -/
def course : Node :=
  .choice 1 "course" [("soup", .blank .prompt 2), ("fish", .blank .vectorSearch 3)] none

def courseAlone : Directory :=
  (Directory.ofFiles [("c.json", "\x7b\"log_filter\":\"debug\"\x7d")]).put "a.json"
    (String.ofList (Json.Style.compact.text 0 course.toJson))

def courseRevision : Revision := .create none course Config.standard.llms

def courseStored : Directory := courseAlone.put "a.json" courseRevision.pretty

theorem proper_course : course.Proper := by
  have hbranches : ∀ b ∈ [("soup", Node.blank .prompt 2), ("fish", Node.blank .vectorSearch 3)],
      b.2.Proper :=
    List.forall_mem_cons.2 ⟨Node.proper_blank .prompt 2,
      List.forall_mem_singleton.2 (Node.proper_blank .vectorSearch 3)⟩
  exact .choice (by simp [Entries.Distinct, Entries.keys]) hbranches nofun

theorem readsBack_course : ∀ x, .double x ∈ course.toJson.numbers → Json.ReadsBack (.double x) :=
  Json.readsBack_of_all (by decide +kernel)

theorem readsBack_standard :
    ∀ x, .double x ∈ Config.standard.llms.toJson.numbers → Json.ReadsBack (.double x) :=
  Json.readsBack_of_all (by decide +kernel)

theorem nesting_courseRevision : Json.nesting courseRevision.pretty ≤ Json.depthLimit := by
  rw [Revision.pretty, Json.nesting_toPretty]
  decide +kernel

theorem read_courseAlone :
    courseAlone.read "a.json" = .ok (String.ofList (Json.Style.compact.text 0 course.toJson)) :=
  Directory.read_of_write (Directory.write_eq_ok.2 ⟨"a.json", by decide +kernel, rfl⟩)

theorem write_courseAlone : courseAlone.write "a.json" courseRevision.pretty = .ok courseStored :=
  Directory.write_eq_ok.2 ⟨"a.json", by decide +kernel, rfl⟩

def recomputed (files : Directory) : Outcome :=
  runLogged .ofLevels "1ns" files ["recompute", "a.json", "-o", "b.json"]

theorem runLogged_alike_of_chain_course :
    (∀ r, Revision.ofText (String.ofList (Json.Style.compact.text 0 course.toJson)) ≠ .ok r) ∧
    (∀ c, Node.ofText courseRevision.pretty ≠ .ok c) ∧
    (recomputed courseAlone).exitCode = (recomputed courseStored).exitCode ∧
    (recomputed courseAlone).stdout = (recomputed courseStored).stdout ∧
    (recomputed courseAlone).stderr = (recomputed courseStored).stderr ∧
    courseAlone.ChangedAlike courseStored (recomputed courseAlone).files
      (recomputed courseStored).files := by
  have hi : Invocation.ofArguments? ["recompute", "a.json", "-o", "b.json"] =
      some ⟨none, .recompute "a.json" (some "b.json")⟩ := by
    decide +kernel
  have hrevision : courseRevision.Proper :=
    Revision.proper_create proper_course Llms.proper_standard none
  have hquiet : (Log.Logger.ofLevels.filter .standard).passes (Log.bareChainLoaded "a.json") =
      false := by
    decide +kernel
  refine ⟨runLogged_alike_of_chain.1 course .compact proper_course readsBack_course, ?_, ?_⟩
  · rw [Revision.pretty_eq]
    exact runLogged_alike_of_chain.2.1 courseRevision .pretty hrevision
      (Json.readsBack_of_all (by decide +kernel))
  · obtain ⟨hcode, hstdout, hfiles, -, -, hstderr⟩ :=
      runLogged_alike_of_chain.2.2 course .compact .standard courseAlone courseStored "1ns" _ _
        .ofLevels proper_course (by decide) readsBack_course readsBack_standard
        nesting_courseRevision hi read_courseAlone write_courseAlone rfl rfl
    exact ⟨hcode, hstdout, hstderr.2 hquiet, hfiles⟩

def debugConfig : Config := { Config.standard with logFilter := "debug" }

def debugged (files : Directory) : Outcome :=
  runLogged .ofLevels "1ns" files ["show", "a.json", "-c", "c.json"]

/-- The choice alone and its revision are told apart by what is logged. -/
theorem stderr_ne_of_chain :
    let i : Invocation := ⟨some "c.json", .show "a.json"⟩
    course.Proper ∧ course.IdsDistinct ∧
    (∀ x, .double x ∈ course.toJson.numbers → Json.ReadsBack (.double x)) ∧
    (∀ x, .double x ∈ debugConfig.llms.toJson.numbers → Json.ReadsBack (.double x)) ∧
    Json.nesting (Revision.create none course debugConfig.llms).pretty ≤ Json.depthLimit ∧
    Invocation.ofArguments? ["show", "a.json", "-c", "c.json"] = some i ∧
    courseAlone.read i.command.source =
      .ok (String.ofList (Json.Style.compact.text 0 course.toJson)) ∧
    courseAlone.write i.command.source (Revision.create none course debugConfig.llms).pretty =
      .ok courseStored ∧
    chosenConfig courseAlone i.config = .ok debugConfig ∧
    chosenConfig courseStored i.config = .ok debugConfig ∧
    (debugged courseAlone).stderr ≠ (debugged courseStored).stderr := by
  intro i
  have hi : Invocation.ofArguments? ["show", "a.json", "-c", "c.json"] = some i := by decide +kernel
  have hconfig : chosenConfig courseAlone i.config = .ok debugConfig := rfl
  have hconfig' : chosenConfig courseStored i.config = .ok debugConfig := rfl
  refine ⟨proper_course, by decide, readsBack_course, readsBack_standard,
    nesting_courseRevision, hi, read_courseAlone, write_courseAlone, hconfig, hconfig', ?_⟩
  have halike := @endAlike_of_chain courseAlone courseStored debugConfig course .compact "1ns" i
    proper_course (by decide) readsBack_course readsBack_standard nesting_courseRevision
    read_courseAlone write_courseAlone hconfig hconfig'
  obtain ⟨rest, hrest', hrest⟩ := exists_stderr_of_endAlike hi hconfig hconfig' halike
  have hpasses : (Log.Logger.ofLevels.filter debugConfig).passes (Log.bareChainLoaded "a.json") ≠
      false := by
    decide +kernel
  rw [debugged, debugged, hrest, hrest', Ne, append_line_eq_iff]
  exact hpasses

end Command

end PromptChain
