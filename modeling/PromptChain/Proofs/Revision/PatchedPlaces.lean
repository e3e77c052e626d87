import PromptChain.Proofs.Node.SearchedPlaces
import PromptChain.Proofs.Revision.Patching

/-!
# What a patch leaves alone

Refreshing a tree refreshes what stands at each place. So of a chain whose keys are up to date a
patch changes nothing but the node that it replaces and, of the nodes above it, the keys.
-/

set_option autoImplicit false

namespace PromptChain

namespace Node

def withKeys (ins outs : List String) : Node → Node
  | sequence i _ _ steps => sequence i ins outs steps
  | n => n

theorem child?_refresh (n : Node) (s : Slot) : n.refresh.child? s = (n.child? s).map refresh := by
  cases n with
  | leaf l => cases s <;> rfl
  | sequence i ins outs steps =>
    rw [refresh_sequence]
    cases s with
    | step k => exact List.getElem?_map
    | branch | fallback => rfl
  | choice i key branches fallback =>
    rw [refresh_choice]
    cases s with
    | step => rfl
    | fallback => rfl
    | branch k label =>
      rw [child?, child?, List.getElem?_map, Option.filter_map, Option.map_map, Option.map_map]
      rfl

theorem nodeAt?_refresh (t : Node) (place : Place) :
    t.refresh.nodeAt? place = (t.nodeAt? place).map refresh := by
  induction place generalizing t with
  | nil => rfl
  | cons s place ih =>
    rw [nodeAt?, nodeAt?, child?_refresh]
    cases t.child? s with
    | none => rfl
    | some c => exact ih c

/-- With another child in a slot, a node is refreshed to what it was refreshed to before, but for
that child and its own keys. -/
theorem exists_refresh_putChild (n : Node) (s : Slot) (c : Node) :
    ∃ ins outs, (n.putChild s c).refresh = (n.refresh.putChild s c.refresh).withKeys ins outs := by
  cases n with
  | leaf l => exact ⟨[], [], by cases s <;> rfl⟩
  | sequence i ins outs steps =>
    cases s with
    | step k =>
      simp only [putChild, refresh_sequence, List.map_set, withKeys]
      exact ⟨_, _, rfl⟩
    | branch | fallback =>
      simp only [putChild, refresh_sequence, withKeys]
      exact ⟨_, _, rfl⟩
  | choice i key branches fallback =>
    refine ⟨[], [], ?_⟩
    cases s with
    | step => simp [putChild, refresh_choice, withKeys]
    | branch => simp [putChild, refresh_choice, withKeys, List.map_set]
    | fallback => simp [putChild, refresh_choice, withKeys]

end Node

namespace Revision

theorem exists_replacesFirst_of_patch {r r' : Revision} {node : Node} (h : r.patch node = .ok r') :
    ∃ m chain, Node.ReplacesFirst node.id m node r.chain chain ∧ r'.chain = chain.refresh := by
  rw [patch] at h
  split at h
  · contradiction
  · next chain hchain =>
    obtain ⟨-, -, hcreate⟩ := bind_eq_ok.1 h
    obtain rfl := Except.ok.inj hcreate
    obtain ⟨m, hm⟩ := Node.replace?_eq_some_iff.1 hchain
    exact ⟨m, chain, hm, rfl⟩

/-- A patch of a revision with distinct ids and with keys up to date puts the refreshed node at the
one place where a node has its id. What stands neither above nor below that place stays; a node
above it has another child in the slot on the way down and, if it is a sequence, other keys. -/
theorem patch_changes_one_place {r r' : Revision} {node : Node} (hkeys : r.chain.refresh = r.chain)
    (hids : r.chain.IdsDistinct) (h : r.patch node = .ok r') :
    ∃ place old, r.chain.nodeAt? place = some old ∧ old.id = node.id ∧
      (∀ other n, r.chain.nodeAt? other = some n → n.id = node.id → other = place) ∧
      r'.chain.nodeAt? place = some node.refresh ∧
      (∀ other, ¬ place <+: other → ¬ other <+: place →
        r'.chain.nodeAt? other = r.chain.nodeAt? other) ∧
      ∀ front s rest, place = front ++ s :: rest → ∃ a c ins outs,
        r.chain.nodeAt? front = some a ∧
        r'.chain.nodeAt? front = some ((a.putChild s c).withKeys ins outs) := by
  obtain ⟨old, chain, hreplaced, hchain⟩ := exists_replacesFirst_of_patch h
  have hid : old.id = node.id := (Node.mem_nodes_of_find? (Node.find?_of_replacesFirst hreplaced)).2
  obtain ⟨place, hplace, rfl⟩ := Node.exists_place_of_replacesFirst hreplaced
  have hdiffers := Node.differsAt_putAt hplace node
  have hsettled : ∀ other, (r.chain.nodeAt? other).map Node.refresh = r.chain.nodeAt? other := by
    intro other
    rw [← Node.nodeAt?_refresh, hkeys]
  refine ⟨place, old, hplace, hid, fun other n hn hnid => ?_, ?_, fun other hbelow habove => ?_, ?_⟩
  · exact Node.place_unique hids hplace hn (hnid.trans hid.symm)
  · rw [hchain, Node.nodeAt?_refresh, hdiffers.nodeAt?_new, Option.map_some]
  · rw [hchain, Node.nodeAt?_refresh, hdiffers.elsewhere other hbelow habove, hsettled]
  · intro front s rest hfront
    obtain ⟨a, c, ha, hput⟩ := hdiffers.above front s rest hfront
    obtain ⟨ins, outs, hrefresh⟩ := Node.exists_refresh_putChild a s c
    have hsettledAt : a.refresh = a := by
      have := hsettled front
      rw [ha] at this
      exact Option.some.inj this
    refine ⟨a, c.refresh, ins, outs, ha, ?_⟩
    rw [hchain, Node.nodeAt?_refresh, hput, Option.map_some, hrefresh, hsettledAt]

/-- A choice between a sequence and a fallback, with its keys up to date. -/
def settled : Revision where
  id := some "r1"
  parent := none
  chain := .choice 0 "kind"
    [("draft", .sequence 1 [] ["text"] [.blank .prompt 2, .blank .chat 3])] (some (.blank .api 4))
  llms := []

theorem patch_changes_one_place_settled : ∃ r', settled.patch (.blank .transform 2) = .ok r' ∧
    r'.chain.nodeAt? [.branch 0 "draft", .step 0] = some (.blank .transform 2) ∧
    r'.chain.nodeAt? [.branch 0 "draft", .step 1] = some (.blank .chat 3) ∧
    r'.chain.nodeAt? [.fallback] = some (.blank .api 4) := by
  obtain ⟨r', h⟩ : ∃ r', settled.patch (.blank .transform 2) = .ok r' := ⟨_, rfl⟩
  obtain ⟨place, old, -, -, honly, hnew, helsewhere, -⟩ := patch_changes_one_place rfl (by decide) h
  refine ⟨r', h, ?_⟩
  obtain rfl : [.branch 0 "draft", .step 0] = place := honly _ (.blank .prompt 2) rfl rfl
  exact ⟨hnew, helsewhere _ (by decide) (by decide), helsewhere _ (by decide) (by decide)⟩

end Revision

end PromptChain
