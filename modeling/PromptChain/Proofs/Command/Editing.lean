import PromptChain.Proofs.Command.Loading
import PromptChain.Proofs.Directory
import PromptChain.Proofs.Node.Insertion
import PromptChain.Proofs.Session.Outcomes

/-!
# When an edit succeeds and what it writes

Of a file that loads, a recomputation always succeeds; an insertion or a deletion does exactly when
the tree leaves an id to give out and the edit finds its place. The file written then holds the
edited tree with its keys up to date.
-/

set_option autoImplicit false

namespace PromptChain.Command

section

variable {path target : String} {files : Directory} {config : Config} {r : Revision}
  {s : Session}

/-- A session on a revision in which nothing has been edited. -/
structure Opened (r : Revision) (s : Session) : Prop where
  working : s.working = some r.chain
  parent : s.parent = r.id
  llms : s.llms = r.llms
  active : s.isActive = true
  nextId : s.nextId = r.chain.maxId + 1

theorem exists_openSession (hload : load files config path = .ok r)
    (hid : Node.greatestId ∉ r.chain.ids) : ∃ s, openSession files config path = .ok s := by
  have hcheck := (Node.checkIds_eq_ok_iff r.chain).2 (idsDistinct_of_load hload)
  have hnext := Node.nextId_eq_ok_iff.2 ⟨hid, (rfl : max 0 (r.chain.maxId + 1) = _)⟩
  rw [openSession, hload, ok_bind, opened, Session.load, hcheck, hnext]
  exact ⟨_, rfl⟩

theorem opened_of_openSession (hload : load files config path = .ok r)
    (hname : config.defaultName ≠ some "") (h : openSession files config path = .ok s) :
    Node.greatestId ∉ r.chain.ids ∧ Opened r s := by
  obtain ⟨r', hr', hs⟩ := bind_eq_ok.1 h
  obtain rfl : r = r' := Except.ok.inj (hload.symm.trans hr')
  rw [opened] at hs
  split at hs
  · next t ht =>
    obtain rfl : t = s := Except.ok.inj hs
    obtain ⟨newId, -, hnext, rfl⟩ := Session.load_eq_ok ht
    obtain ⟨hid, rfl⟩ := Node.nextId_eq_ok_iff.1 hnext
    have hne : config.defaultName.getD path ≠ "" := by
      cases hdefault : config.defaultName with
      | none => exact ne_empty_of_load hload
      | some name =>
        rintro rfl
        exact hname hdefault
    refine ⟨hid, rfl, rfl, rfl, ?_, Node.max_zero _⟩
    simpa [Session.isActive] using hne
  · contradiction

theorem built_eq_ok_iff (hs : s.isActive = true) {r' : Revision} :
    built s = .ok r' ↔ ∃ tree, s.working = some tree ∧ r' = .create s.parent tree s.llms := by
  rw [built, Session.build, hs]
  cases s.working with
  | none => simp
  | some tree => simp [eq_comm]

/-- An effect without a complaint that leaves a text in a file. -/
def Effect.Leaves (e : Effect) (path text : String) : Prop :=
  e.complaint = none ∧ e.files.read path = .ok text

theorem leaves_write (hwritable : ∃ text e, files.write target text = .ok e) (r : Revision) :
    (write files target r).Leaves target r.pretty := by
  obtain ⟨text, e, he⟩ := hwritable
  obtain ⟨name, hname, -⟩ := Directory.write_eq_ok.1 he
  have hwrite : files.write target r.pretty = .ok (files.put name r.pretty) :=
    Directory.write_eq_ok.2 ⟨name, hname, rfl⟩
  rw [write, stored, saveRevision, hwrite]
  exact ⟨rfl, Directory.read_of_write hwrite⟩

theorem leaves_save (hwritable : ∃ text e, files.write target text = .ok e) (hs : s.isActive = true)
    {tree : Node} (htree : s.working = some tree) :
    (save files target s).Leaves target (Revision.create s.parent tree s.llms).pretty := by
  have hbuilt : built s = .ok (.create s.parent tree s.llms) :=
    (built_eq_ok_iff hs).2 ⟨tree, htree, rfl⟩
  rw [save, hbuilt]
  exact leaves_write hwritable _

theorem exists_built_of_save (h : (save files target s).complaint = none) :
    ∃ r', built s = .ok r' := by
  rw [save] at h
  split at h
  · contradiction
  · next r' hr' => exact ⟨r', hr'⟩

theorem find?_insert_eq_none_iff (hload : load files config path = .ok r)
    (hid : Node.greatestId ∉ r.chain.ids) (k : Kind) (parent : NodeId) (index : Nat) :
    Node.find? (r.chain.maxId + 1) (Node.insert (some r.chain) (r.chain.maxId + 1) k parent index) =
      none ↔ ¬ ∃ m ∈ r.chain.nodes, m.id = parent ∧ m.kind.acceptsChildren = true := by
  have hnext : Node.nextId (some r.chain) 0 = .ok (r.chain.maxId + 1) :=
    Node.nextId_eq_ok_iff.2 ⟨hid, (Node.max_zero _).symm⟩
  rw [Node.find?_insert_eq_none_iff (Node.not_mem_ids_of_nextId hnext),
    Node.refuses_iff (idsDistinct_of_load hload)]
  simp

theorem inserted_of_kind (hs : Opened r s) (hid : Node.greatestId ∉ r.chain.ids) (k : Kind)
    (parent : NodeId) (index : Nat) : inserted s k.name parent index =
      let newId := r.chain.maxId + 1
      let tree := Node.insert (some r.chain) newId k parent index
      if tree.find? newId = none then
        .error ("Chain " ++ idText parent ++ " does not exist or cannot hold children")
      else .ok (newId, { s with working := some tree, nextId := Session.afterId newId }) := by
  have hnext : Node.nextId (some r.chain) (r.chain.maxId + 1) = .ok (r.chain.maxId + 1) :=
    Node.nextId_eq_ok_iff.2 ⟨hid, (Node.max_self _).symm⟩
  simp only [inserted, Session.insert, Kind.ofName, Kind.ofName?_name, hs.working, hs.nextId, hnext,
    Session.liftFault, ok_bind]
  cases (Node.insert (some r.chain) (r.chain.maxId + 1) k parent index).find?
    (r.chain.maxId + 1) <;> rfl

theorem kind_of_inserted {kind : String} {parent : NodeId} {index : Nat} {given : NodeId × Session}
    (h : inserted s kind parent index = .ok given) : ∃ k : Kind, k.name = kind := by
  rw [inserted, Session.insert, Kind.ofName] at h
  cases hk : Kind.ofName? kind with
  | none =>
    rw [hk] at h
    contradiction
  | some k => exact ⟨k, Kind.ofName?_eq_some_iff.1 hk⟩

theorem leaves_insertNode (hload : load files config path = .ok r)
    (hname : config.defaultName ≠ some "") {output : Option String}
    (hwritable : ∃ text e, files.write (output.getD path) text = .ok e)
    (hid : Node.greatestId ∉ r.chain.ids) {parent : NodeId}
    (haccepts : ∃ m ∈ r.chain.nodes, m.id = parent ∧ m.kind.acceptsChildren = true) (k : Kind)
    (index : Nat) :
    (insertNode files config path k.name parent index output).Leaves (output.getD path)
      (Revision.pretty
        ⟨none, r.id, (Node.insert (some r.chain) (r.chain.maxId + 1) k parent index).refresh,
          r.llms⟩) := by
  obtain ⟨s, hs⟩ := exists_openSession hload hid
  obtain ⟨-, hopened⟩ := opened_of_openSession hload hname hs
  have hinserted := inserted_of_kind hopened hid k parent index
  dsimp only at hinserted
  rw [if_neg fun hnone => (find?_insert_eq_none_iff hload hid k parent index).1 hnone haccepts]
    at hinserted
  rw [insertNode, hs]
  dsimp only
  rw [hinserted, ← hopened.parent, ← hopened.llms]
  refine leaves_save hwritable ?_ rfl
  exact hopened.active

theorem accepts_of_insertNode (hload : load files config path = .ok r)
    (hname : config.defaultName ≠ some "") {output : Option String} {kind : String}
    {parent : NodeId} {index : Nat}
    (h : (insertNode files config path kind parent index output).complaint = none) :
    (∃ k : Kind, k.name = kind) ∧ Node.greatestId ∉ r.chain.ids ∧
      ∃ m ∈ r.chain.nodes, m.id = parent ∧ m.kind.acceptsChildren = true := by
  rw [insertNode] at h
  split at h
  · contradiction
  · next s hs =>
    obtain ⟨hid, hopened⟩ := opened_of_openSession hload hname hs
    split at h
    · contradiction
    · next newId t ht =>
      obtain ⟨k, rfl⟩ := kind_of_inserted ht
      refine ⟨⟨k, rfl⟩, hid, ?_⟩
      by_contra hrefuses
      rw [inserted_of_kind hopened hid k parent index] at ht
      dsimp only at ht
      rw [if_pos ((find?_insert_eq_none_iff hload hid k parent index).2 hrefuses)] at ht
      contradiction

theorem leaves_deleteNode (hload : load files config path = .ok r)
    (hname : config.defaultName ≠ some "") {output : Option String}
    (hwritable : ∃ text e, files.write (output.getD path) text = .ok e)
    (hid : Node.greatestId ∉ r.chain.ids) {id : NodeId} (hmem : id ∈ r.chain.ids)
    {tree : Node} (htree : Node.delete id r.chain = some tree) :
    (deleteNode files config path id output).Leaves (output.getD path)
      (Revision.pretty ⟨none, r.id, tree.refresh, r.llms⟩) := by
  obtain ⟨s, hs⟩ := exists_openSession hload hid
  obtain ⟨-, hopened⟩ := opened_of_openSession hload hname hs
  have hfind : s.find? id ≠ none := by
    rw [Session.find?, hopened.working, Option.bind_some, Ne, Node.find?_eq_none_iff]
    exact not_not.2 hmem
  have hdeleted : deleted s path id = .ok (s.delete id) := by
    rw [deleted, if_neg (by simpa using hfind)]
  have hworking : (s.delete id).working = some tree := by
    rw [Session.delete, hopened.working, Option.bind_some, htree]
  rw [deleteNode, hs]
  dsimp only
  rw [hdeleted, ← hopened.parent, ← hopened.llms]
  refine leaves_save hwritable ?_ hworking
  exact hopened.active

theorem mem_of_deleteNode (hload : load files config path = .ok r)
    (hname : config.defaultName ≠ some "") {output : Option String} {id : NodeId}
    (h : (deleteNode files config path id output).complaint = none) :
    Node.greatestId ∉ r.chain.ids ∧ id ∈ r.chain.ids ∧ id ≠ r.chain.id := by
  rw [deleteNode] at h
  split at h
  · contradiction
  · next s hs =>
    obtain ⟨hid, hopened⟩ := opened_of_openSession hload hname hs
    split at h
    · contradiction
    · next t ht =>
      rw [deleted] at ht
      split at ht
      · contradiction
      · next hfind =>
        obtain rfl := Except.ok.inj ht
        refine ⟨hid, ?_, ?_⟩
        · by_contra hout
          rw [Session.find?, hopened.working, Option.bind_some, Node.find?_eq_none_iff.2 hout]
            at hfind
          exact hfind rfl
        · rintro rfl
          obtain ⟨r', hr'⟩ := exists_built_of_save h
          obtain ⟨tree, htree, -⟩ :=
            (built_eq_ok_iff (s := s.delete r.chain.id) hopened.active).1 hr'
          rw [Session.delete, hopened.working, Option.bind_some, Node.delete_eq_none_iff.2 rfl]
            at htree
          contradiction

theorem exitCode_outcome_eq_zero_iff (e : Effect) :
    e.outcome.exitCode = 0 ↔ e.complaint = none := by
  rw [Effect.outcome]
  cases e.complaint <;> simp

theorem files_outcome (e : Effect) : e.outcome.files = e.files := by
  rw [Effect.outcome]
  cases e.complaint <;> rfl

/-- Of a file that loads, edited into a file that can be written: an insertion succeeds exactly if
the kind is known, no node has the greatest id, and the parent is a node that takes children; a
deletion exactly if no node has the greatest id, and the id is that of a node other than the root; a
recomputation always. The file written holds the edited tree with its keys up to date, as a draft
that derives from what was loaded, and after a recomputation under the id and the parent that were
loaded. -/
theorem edits_succeed_iff (elapsed : String) {c : Option String} (output : Option String)
    (hconfig : chosenConfig files c = .ok config) (hload : load files config path = .ok r)
    (hname : config.defaultName ≠ some "")
    (hwritable : ∃ text e, files.write (output.getD path) text = .ok e) :
    (∀ kind parent index,
      let o := (invoke elapsed files ⟨c, .insert path kind parent index output⟩).outcome
      (o.exitCode = 0 ↔ (∃ k : Kind, k.name = kind) ∧ Node.greatestId ∉ r.chain.ids ∧
        ∃ m ∈ r.chain.nodes, m.id = parent ∧ m.kind.acceptsChildren = true) ∧
      ∀ k : Kind, k.name = kind → o.exitCode = 0 →
        o.files.read (output.getD path) = .ok (Revision.pretty ⟨none, r.id,
          (Node.insert (some r.chain) (r.chain.maxId + 1) k parent index).refresh, r.llms⟩)) ∧
    (∀ id,
      let o := (invoke elapsed files ⟨c, .delete path id output⟩).outcome
      (o.exitCode = 0 ↔ Node.greatestId ∉ r.chain.ids ∧ id ∈ r.chain.ids ∧ id ≠ r.chain.id) ∧
      (o.exitCode = 0 → ∃ tree, Node.delete id r.chain = some tree ∧
        o.files.read (output.getD path) =
          .ok (Revision.pretty ⟨none, r.id, tree.refresh, r.llms⟩))) ∧
    let o := (invoke elapsed files ⟨c, .recompute path output⟩).outcome
    o.exitCode = 0 ∧ o.files.read (output.getD path) =
      .ok (Revision.pretty { r with chain := r.chain.refresh }) := by
  simp only [invoke, hconfig, exitCode_outcome_eq_zero_iff, files_outcome, perform, hload]
  refine ⟨fun kind parent index => ⟨⟨accepts_of_insertNode hload hname, ?_⟩, ?_⟩,
    fun id => ⟨⟨mem_of_deleteNode hload hname, ?_⟩, ?_⟩, leaves_write hwritable _⟩
  · rintro ⟨⟨k, rfl⟩, hid, haccepts⟩
    exact (leaves_insertNode hload hname hwritable hid haccepts k index).1
  · rintro k rfl hdone
    obtain ⟨-, hid, haccepts⟩ := accepts_of_insertNode hload hname hdone
    exact (leaves_insertNode hload hname hwritable hid haccepts k index).2
  · rintro ⟨hid, hmem, hroot⟩
    obtain ⟨tree, htree⟩ := Node.exists_delete hroot
    exact (leaves_deleteNode hload hname hwritable hid hmem htree).1
  · intro hdone
    obtain ⟨hid, hmem, hroot⟩ := mem_of_deleteNode hload hname hdone
    obtain ⟨tree, htree⟩ := Node.exists_delete hroot
    exact ⟨tree, htree, (leaves_deleteNode hload hname hwritable hid hmem htree).2⟩

end

/-- A sequence of a prompt and an empty choice, as it was stored. -/
def plan : Revision where
  id := some "r2"
  parent := some "r1"
  chain := .sequence 3 [] [] [.blank .prompt 5, .blank .choice 7]
  llms := []

def planned : Directory := (Directory.ofFiles []).put "plan.json" plan.pretty

theorem load_planned : load planned .standard "plan.json" = .ok plan := by
  have hsteps : ∀ n ∈ [Node.blank .prompt 5, Node.blank .choice 7], n.Proper :=
    List.forall_mem_cons.2 ⟨Node.proper_blank .prompt 5,
      List.forall_mem_singleton.2 (Node.proper_blank .choice 7)⟩
  have hproper : plan.Proper := ⟨.sequence hsteps, Llms.proper_nil⟩
  have hlegible := Json.legible_of_inRange (Revision.inRange_toJson hproper)
    (Json.readsBack_of_all (by decide +kernel))
  have hread : planned.read "plan.json" = .ok plan.pretty :=
    Directory.read_of_write (Directory.write_eq_ok.2 ⟨"plan.json", by decide +kernel, rfl⟩)
  have htext : Revision.ofText plan.pretty = .ok plan :=
    Revision.ofText_pretty_of_idsDistinct hproper hlegible (by decide +kernel) (by decide)
  exact load_eq_ok.2 ⟨plan.pretty, hread, .inl htext⟩

def outcomeOfPlanned (command : Command) : Outcome := (invoke "1ns" planned ⟨none, command⟩).outcome

theorem edits_succeed_iff_planned :
    chosenConfig planned none = .ok .standard ∧ load planned .standard "plan.json" = .ok plan ∧
    Config.standard.defaultName ≠ some "" ∧ (∃ text e, planned.write "plan.json" text = .ok e) ∧
    (outcomeOfPlanned (.insert "plan.json" "chat_spec" 7 0 none)).exitCode = 0 ∧
    (outcomeOfPlanned (.insert "plan.json" "chat_spec" 7 0 none)).files.read "plan.json" =
      .ok (Revision.pretty ⟨none, some "r2", (Node.insert (some plan.chain) 8 .chat 7 0).refresh,
        []⟩) ∧
    (outcomeOfPlanned (.insert "plan.json" "chat_spec" 5 0 none)).exitCode ≠ 0 ∧
    (outcomeOfPlanned (.delete "plan.json" 3 none)).exitCode ≠ 0 ∧
    (outcomeOfPlanned (.recompute "plan.json" none)).exitCode = 0 := by
  have hwritable : ∃ text e, planned.write "plan.json" text = .ok e :=
    ⟨"", _, Directory.write_eq_ok.2 ⟨"plan.json", by decide +kernel, rfl⟩⟩
  obtain ⟨hinsert, hdelete, hrecompute⟩ := edits_succeed_iff "1ns" (c := none) none rfl load_planned
    nofun hwritable
  obtain ⟨hplaced, hread⟩ := hinsert "chat_spec" 7 0
  have hinserted := hplaced.2 ⟨⟨.chat, rfl⟩, by decide, by decide⟩
  have hread := hread .chat rfl hinserted
  rw [show plan.chain.maxId + 1 = 8 by decide] at hread
  refine ⟨rfl, load_planned, nofun, hwritable, hinserted, hread, fun h => ?_, fun h => ?_,
    hrecompute.1⟩
  · exact absurd ((hinsert "chat_spec" 5 0).1.1 h).2.2 (by decide)
  · exact absurd ((hdelete 3).1.1 h).2.2 (by decide)

end PromptChain.Command
