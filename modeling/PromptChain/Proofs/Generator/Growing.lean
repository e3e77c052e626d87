import PromptChain.Generator.Basic
import PromptChain.Proofs.Directory
import PromptChain.Proofs.Generator.Wiring
import PromptChain.Proofs.Interface.WriteBack
import PromptChain.Proofs.Session.GivenIds
import PromptChain.Proofs.Session.Insertions

/-!
# Chains as they are grown

A turn of the generator draws a parent, inserts a node below it and wires it. Whatever is drawn, the
root stays and can be drawn as a parent, so every turn adds one node, with the next number for an
id, until the greatest id is due. What is built after the last turn needs and gives no other keys
than its leaves were wired with.
-/

set_option autoImplicit false

namespace PromptChain.Generator

variable {keys : Nat}

/-- One turn: a parent is drawn, a node is inserted below it, found again, wired and put back. -/
inductive Turn (keys : Nat) : Session × Draws → Session × Draws → Prop where
  | added {s u t : Session} {parent id : NodeId} {kind : Kind} {index : Nat} {node wired : Node}
      {d d₁ d₂ d₃ d₄ : Draws} :
      drawParent? s d = (some parent, d₁) → drawKind d₁ = (kind, d₂) →
      drawBelow placeCount d₂ = (index, d₃) → s.insert kind.name parent index = .ok (some id, u) →
      u.find? id = some node → wire keys node d₃ = (wired, d₄) → u.update wired = .ok t →
      Turn keys (s, d) (t, d₄)

inductive Turns (keys : Nat) : Nat → Session × Draws → Session × Draws → Prop where
  | none {x : Session × Draws} : Turns keys 0 x x
  | more {n : Nat} {x y z : Session × Draws} :
      Turn keys x y → Turns keys n y z → Turns keys (n + 1) x z

theorem addNode_of_turn {x y : Session × Draws} (h : Turn keys x y) :
    ∃ parent d, drawParent? x.1 x.2 = (some parent, d) ∧
      addNode keys x.1 parent d = (.ok y.1, y.2) := by
  cases h with
  | added hparent hkind hindex hinsert hfind hwire hupdate =>
    refine ⟨_, _, hparent, ?_⟩
    simp only [addNode, drawing_bind, hkind, hindex, hinsert, hfind, hwire, hupdate, drawing_pure]

theorem addNodes_of_turns {n : Nat} {x y : Session × Draws} (h : Turns keys n x y) :
    addNodes keys n x.1 x.2 = (.ok y.1, y.2) := by
  induction h with
  | none => rfl
  | more hturn _ ih =>
    obtain ⟨parent, d, hparent, hadd⟩ := addNode_of_turn hturn
    simp only [addNodes, drawing_bind, hparent, hadd, ih]

/-- A session and its tree after so many turns. -/
structure Grown (keys turns : Nat) (s : Session) (t : Node) : Prop where
  name : s.name = chainName
  parent : s.parent = none
  llms : s.llms = .standard
  working : s.working = some t
  counter : s.nextId.toNat = turns + 1
  root : t.bare = .blank .sequence 0
  ids : (t.ids.map UInt64.toNat).Perm (List.range (turns + 1))
  leaves : ∀ l : Leaf, .leaf l ∈ t.heads → DrawsOn keys (.leaf l)

section Grown

variable {turns : Nat} {s : Session} {t : Node}

theorem Grown.kind_eq (h : Grown keys turns s t) : t.kind = .sequence := by
  rw [← Node.kind_bare, h.root]
  rfl

theorem Grown.idsDistinct (h : Grown keys turns s t) : t.IdsDistinct :=
  List.Nodup.of_map UInt64.toNat (h.ids.nodup_iff.2 List.nodup_range)

theorem Grown.lt_counter (h : Grown keys turns s t) : ∀ i ∈ t.ids, i < s.nextId := by
  intro i hi
  have hmem := h.ids.mem_iff.1 (List.mem_map_of_mem hi)
  rw [UInt64.lt_iff_toNat_lt, h.counter]
  exact List.mem_range.1 hmem

theorem Grown.nextId (h : Grown keys turns s t) :
    Node.nextId s.working s.nextId = .ok s.nextId := by
  rw [Node.nextId_eq_ok_iff_isNextId, h.working]
  refine ⟨UInt64.le_refl _, ?_, fun j hj _ => hj⟩
  rintro tree ⟨⟩
  exact h.lt_counter

theorem Grown.exists_parent (h : Grown keys turns s t) (d : Draws) :
    ∃ parent d', drawParent? s d = (some parent, d') ∧ ¬ t.Refuses parent := by
  have hroot : t.id ∈ composites t := by
    refine List.mem_map_of_mem (List.mem_filter.2 ⟨Node.mem_nodes_iff.2 (.inl rfl), ?_⟩)
    rw [h.kind_eq]
    rfl
  obtain ⟨parent, hmem, d', hdraw⟩ := exists_drawFrom? (List.ne_nil_of_mem hroot) d
  have hparent : drawParent? s = drawFrom? (composites t) := by rw [drawParent?, h.working]
  refine ⟨parent, d', by rw [hparent, hdraw], fun hrefuses => ?_⟩
  obtain ⟨m, hm, rfl⟩ := List.mem_map.1 hmem
  obtain ⟨hnodes, haccepts⟩ := List.mem_filter.1 hm
  rw [(Node.refuses_iff h.idsDistinct m.id).1 hrefuses m hnodes rfl] at haccepts
  contradiction

end Grown

theorem grown_start (keys : Nat) :
    ∃ s, ((Session.new .standard).setName chainName).insert Kind.sequence.name 0 0 =
      .ok (some 0, s) ∧ Grown keys 0 s (.blank .sequence 0) := by
  obtain ⟨s, hinsert, hinserted⟩ :=
    @Session.exists_inserted ((Session.new .standard).setName chainName) .sequence 0 0 0 rfl nofun
  refine ⟨s, hinsert, ?_⟩
  rw [hinserted.session_eq]
  refine ⟨rfl, rfl, rfl, rfl, rfl, rfl, .refl _, fun l hl => ?_⟩
  rw [Node.heads_blank, List.mem_singleton] at hl
  contradiction

/-- Until the greatest id is due, every turn adds a node and finds it, whatever is drawn. -/
theorem Grown.exists_turn (hkeys : 0 < keys) {turns : Nat} {s : Session} {t : Node}
    (h : Grown keys turns s t) (hturns : turns + 1 < Node.greatestId.toNat) (d : Draws) :
    ∃ s' t' d', Turn keys (s, d) (s', d') ∧ Grown keys (turns + 1) s' t' := by
  obtain ⟨parent, d₁, hparent, haccepts⟩ := h.exists_parent d
  let kind := (drawKind d₁).1
  let d₂ := (drawKind d₁).2
  let index := (drawBelow placeCount d₂).1
  let d₃ := (drawBelow placeCount d₂).2
  have htakes : ∀ tree ∈ s.working, ¬ tree.Refuses parent := by
    rw [h.working]
    rintro tree ⟨⟩
    exact haccepts
  obtain ⟨u, hinsert, hinserted⟩ := @Session.exists_inserted s kind parent _ index h.nextId htakes
  have hwired := wired_wire hkeys kind s.nextId d₃
  generalize hwire : wire keys (.blank kind s.nextId) d₃ = drawn at hwired
  obtain ⟨wired, d₄⟩ := drawn
  have hid : wired.id = s.nextId := by rw [hwired.id_eq, Node.id_blank]
  have hnew : s.nextId ∉ t.ids := fun hmem => UInt64.lt_irrefl _ (h.lt_counter _ hmem)
  obtain ⟨t', hreplace, hbare, hheads⟩ := Node.exists_replaced_insert hnew haccepts hid kind index
  rw [hwired.heads_eq, List.singleton_append] at hheads
  have hupdate : u.update wired = .ok { u with working := some t' } := by
    rw [Session.update, hinserted.session_eq, h.working, Option.bind_some, hreplace]
  refine ⟨_, t', d₄, .added hparent rfl rfl hinsert hinserted.found hwire hupdate, ?_⟩
  rw [hinserted.session_eq]
  refine ⟨h.name, h.parent, h.llms, rfl, ?_, hbare.trans h.root, ?_, fun l hl => ?_⟩
  · have hlast : Node.greatestId.toNat = 2 ^ 64 - 1 := rfl
    rw [Session.toNat_afterId, h.counter]
    omega
  · have hids := (hheads.map Node.id).map UInt64.toNat
    rw [Node.map_id_heads, List.map_cons, Node.map_id_heads, hid, List.map_cons, h.counter] at hids
    rw [List.range_succ]
    exact hids.trans ((h.ids.cons _).trans (List.perm_append_singleton _ _).symm)
  · rcases List.mem_cons.1 (hheads.mem_iff.1 hl) with rfl | hold
    · exact drawsOn_of_isWiredLeaf hwired.isWired
    · exact h.leaves l hold

theorem Grown.exists_turns (hkeys : 0 < keys) {turns count : Nat} {s : Session} {t : Node}
    (h : Grown keys turns s t) (hcount : turns + count < Node.greatestId.toNat) (d : Draws) :
    ∃ s' t' d', Turns keys count (s, d) (s', d') ∧ Grown keys (turns + count) s' t' := by
  induction count generalizing turns s t d with
  | zero => exact ⟨s, t, d, .none, h⟩
  | succ count ih =>
    obtain ⟨u, v, d₁, hturn, hgrown⟩ := h.exists_turn hkeys (by omega) d
    obtain ⟨s', t', d', hturns, hgrown'⟩ := ih hgrown (by omega) d₁
    rw [Nat.add_assoc, Nat.add_comm 1] at hgrown'
    exact ⟨s', t', d', .more hturn hturns, hgrown'⟩

/-- A revision as it is built from a vocabulary and so many nodes. -/
structure SoundChain (keys count : Nat) (r : Revision) : Prop where
  id : r.id = none
  parent : r.parent = none
  llms : r.llms = .standard
  rootKind : r.chain.kind = .sequence
  rootId : r.chain.id = 0
  size : r.chain.size = count + 1
  ids : (r.chain.ids.map UInt64.toNat).Perm (List.range (count + 1))
  sequences : ∀ i ins outs steps, .sequence i ins outs steps ∈ r.chain.nodes →
    ins = (Node.sequence i ins outs steps).interface.inputs.items ∧
      outs = (Node.sequence i ins outs steps).interface.outputs.items
  keys : DrawsOn keys r.chain

theorem Grown.exists_sound {turns : Nat} {s : Session} {t : Node} (h : Grown keys turns s t) :
    ∃ r, s.build = .ok r ∧ SoundChain keys turns r := by
  have hbuild : s.build = .ok (.create none t .standard) := by
    rw [Session.build, Session.isActive, h.name, h.working, h.parent, h.llms]
    rfl
  have hsize : t.refresh.ids.length = turns + 1 := by
    rw [Node.ids_refresh, ← List.length_map UInt64.toNat, h.ids.length_eq, List.length_range]
  refine ⟨_, hbuild, rfl, rfl, rfl, ?_, ?_, ?_, ?_, fun i ins outs steps hmem => ?_, ?_⟩
  · rw [Revision.create, Node.kind_refresh, h.kind_eq]
  · rw [Revision.create, Node.id_refresh, ← Node.id_bare, h.root]
    rfl
  · rw [← Node.length_ids]
    exact hsize
  · rw [Revision.create, Node.ids_refresh]
    exact h.ids
  · rw [Revision.create, Node.nodes_refresh] at hmem
    obtain ⟨n, -, hn⟩ := List.mem_map.1 hmem
    have hkeys := Node.keys_eq_interface_of_refresh hn
    rwa [hn] at hkeys
  · have hkeys := drawsOn_of_leaves h.leaves
    constructor
    · intro key hkey
      rw [Node.Needs, Revision.create, Node.interface_refresh] at hkey
      exact hkeys.needs key hkey
    · intro key hkey
      rw [Node.Gives, Revision.create, Node.interface_refresh] at hkey
      exact hkeys.gives key hkey

/-- Whatever is drawn, a chain is grown with every insertion taken and every node found, as long as
there are keys and the greatest id is not reached, and what is built is sound. With nothing logged,
the program ends well and prints its announcement and its report, if the file can be written. -/
theorem grow_succeeds {keys count : Nat} (hkeys : 0 < keys) (hcount : count < Node.greatestId.toNat)
    (draws : Draws) :
    ∃ s t d r,
      ((Session.new .standard).setName chainName).insert Kind.sequence.name 0 0 = .ok (some 0, s) ∧
      Turns keys count (s, draws) (t, d) ∧ grow keys count draws = (.ok t, d) ∧ t.build = .ok r ∧
      SoundChain keys count r ∧
      ∀ files output files', Command.saveRevision files output r = .ok files' →
        generate draws files ⟨output, count, keys⟩ =
          ⟨0, announcement ⟨output, count, keys⟩ ++ report output r, "", files'⟩ := by
  obtain ⟨s, hinsert, hstart⟩ := grown_start keys
  have hbelow : 0 + count < Node.greatestId.toNat := by rwa [Nat.zero_add]
  obtain ⟨t, tree, d, hturns, hgrown⟩ := hstart.exists_turns hkeys hbelow draws
  rw [Nat.zero_add] at hgrown
  obtain ⟨r, hbuild, hsound⟩ := hgrown.exists_sound
  have hgrow : grow keys count draws = (.ok t, d) := by
    rw [grow, hinsert]
    exact addNodes_of_turns hturns
  refine ⟨s, t, d, r, hinsert, hturns, hgrow, hbuild, hsound, fun files output files' hsave => ?_⟩
  have hbuilt : ((grow keys count draws).1 >>= Session.build) = .ok r := by
    rw [hgrow]
    exact hbuild
  simp only [generate, hbuilt, hsave]

private def descendingDraws : Draws := ⟨fun i => 59 - i, 0⟩

theorem grow_succeeds_descendingDraws : 0 < 2 ∧ 3 < Node.greatestId.toNat ∧
    ∃ t d r, grow 2 3 descendingDraws = (.ok t, d) ∧ t.build = .ok r ∧ SoundChain 2 3 r ∧
      (generate descendingDraws (.ofFiles []) ⟨"out.json", 3, 2⟩).exitCode = 0 := by
  have hcount : 3 < Node.greatestId.toNat := by decide
  obtain ⟨-, t, d, r, -, -, hgrow, hbuild, hsound, hgenerate⟩ :=
    grow_succeeds (show 0 < 2 by decide) hcount descendingDraws
  have hsave : Command.saveRevision (.ofFiles []) "out.json" r =
      .ok (.put (.ofFiles []) "out.json" r.pretty) := by
    rw [Command.saveRevision, Directory.write_eq_ok.2 ⟨"out.json", by decide +kernel, rfl⟩]
  exact ⟨by decide, hcount, t, d, r, hgrow, hbuild, hsound, by rw [hgenerate _ _ _ hsave]⟩

end PromptChain.Generator
