import PromptChain.Proofs.Node.SearchedPlaces

/-!
# Places in the order of the nodes

`places` lists the places of a tree as `nodes` lists the nodes that stand there: a place before
those below it, and these slot by slot, the fallback last. Every place at which a node stands is
listed, in its order.
-/

set_option autoImplicit false

namespace PromptChain

/-- One slot of a node is listed before another: the steps and the branches from the first on, and a
fallback behind all branches. -/
inductive Slot.ListedBefore : Slot → Slot → Prop where
  | step {j k : Nat} : j < k → ListedBefore (.step j) (.step k)
  | branch {j k : Nat} {label label' : String} :
      j < k → ListedBefore (.branch j label) (.branch k label')
  | fallback {k : Nat} {label : String} : ListedBefore (.branch k label) .fallback

theorem Slot.ListedBefore.asymm {s s' : Slot} (h : s.ListedBefore s') : ¬ s'.ListedBefore s := by
  intro h'
  cases h with
  | step hlt =>
    cases h' with
    | step hlt' => omega
  | branch hlt =>
    cases h' with
    | branch hlt' => omega
  | fallback => cases h'

theorem Slot.ListedBefore.ne {s s' : Slot} (h : s.ListedBefore s') : s ≠ s' := by
  rintro rfl
  exact h.asymm h

/-- One place of a tree is listed before another: a node before those below it, and these slot by
slot. -/
def Place.ListedBefore (place other : Place) : Prop := List.Lex Slot.ListedBefore place other

namespace Node

def inSlots : Node → List (Slot × Node)
  | leaf _ => []
  | sequence _ _ _ steps => steps.zipIdx.map fun n => (.step n.2, n.1)
  | choice _ _ branches fallback =>
    branches.zipIdx.map (fun b => (.branch b.2 b.1.1, b.1.2)) ++ fallback.toList.map (.fallback, ·)

def lastSlot? (n : Node) : Option Slot := n.inSlots.getLast?.map (·.1)

theorem map_snd_inSlots (n : Node) : n.inSlots.map (·.2) = n.children := by
  cases n with
  | leaf l => rfl
  | sequence i ins outs steps =>
    rw [inSlots, List.map_map, children]
    exact List.zipIdx_map_fst 0 steps
  | choice i key branches fallback =>
    have hbranches := congrArg (List.map (·.2)) (List.zipIdx_map_fst 0 branches)
    rw [List.map_map] at hbranches
    rw [inSlots, List.map_append, List.map_map, List.map_map, children]
    exact congrArg₂ (· ++ ·) hbranches (List.map_id _)

theorem mem_inSlots_iff {n c : Node} {s : Slot} : (s, c) ∈ n.inSlots ↔ n.child? s = some c := by
  cases n with
  | leaf l => simp [inSlots, child?]
  | sequence i ins outs steps => cases s <;> simp [inSlots, child?, List.mem_zipIdx_iff_getElem?]
  | choice i key branches fallback =>
    cases s with
    | step k => simp [inSlots, child?]
    | branch k label =>
      rw [child?_branch_eq_some_iff]
      simp [inSlots, List.mem_zipIdx_iff_getElem?]
    | fallback => simp [inSlots, child?]

theorem pairwise_inSlots (n : Node) : n.inSlots.Pairwise fun a b => a.1.ListedBefore b.1 := by
  have hzip : ∀ {α : Type} (l : List α), l.zipIdx.Pairwise fun a b => a.2 < b.2 := fun l => by
    simp [List.pairwise_iff_getElem]
  cases n with
  | leaf l => exact .nil
  | sequence i ins outs steps => exact List.pairwise_map.2 ((hzip steps).imp .step)
  | choice i key branches fallback =>
    refine List.pairwise_append.2 ⟨List.pairwise_map.2 ((hzip branches).imp .branch), ?_, ?_⟩
    · cases fallback <;> simp
    · intro a ha b hb
      obtain ⟨branch, -, rfl⟩ := List.mem_map.1 ha
      obtain ⟨m, -, rfl⟩ := List.mem_map.1 hb
      exact .fallback

theorem nodup_map_fst_inSlots (n : Node) : (n.inSlots.map (·.1)).Nodup :=
  List.pairwise_map.2 ((pairwise_inSlots n).imp Slot.ListedBefore.ne)

theorem lastSlot?_eq_some_iff {n c : Node} {s : Slot} (h : n.child? s = some c) :
    n.lastSlot? = some s ↔ ¬ ∃ s' c', n.child? s' = some c' ∧ s.ListedBefore s' := by
  obtain ⟨before, after, hsplit⟩ := List.append_of_mem (mem_inSlots_iff.2 h)
  have hpairs := pairwise_inSlots n
  have hnodup := nodup_map_fst_inSlots n
  rw [hsplit, List.pairwise_append, List.pairwise_cons] at hpairs
  obtain ⟨-, ⟨hafter, -⟩, hbefore⟩ := hpairs
  rw [lastSlot?, hsplit]
  cases after with
  | nil =>
    simp only [List.getLast?_concat, Option.map_some, true_iff]
    rintro ⟨s', c', hc', hlater⟩
    have hmem := mem_inSlots_iff.2 hc'
    rw [hsplit] at hmem
    rcases List.mem_append.1 hmem with hmem | hmem
    · exact hlater.asymm (hbefore _ hmem _ List.mem_cons_self)
    · exact hlater.ne (congrArg (·.1) (List.mem_singleton.1 hmem)).symm
  | cons a as =>
    obtain ⟨b, hb⟩ : ∃ b, (a :: as).getLast? = some b := ⟨_, List.getLast?_cons⟩
    have hlater := hafter b (List.mem_of_getLast? hb)
    have hchild : n.child? b.1 = some b.2 :=
      mem_inSlots_iff.1 (hsplit ▸ by simp [List.mem_of_getLast? hb])
    simp only [List.getLast?_append, List.getLast?_cons_cons, hb, Option.some_or, Option.map_some,
      Option.some.injEq]
    exact ⟨fun heq => absurd heq.symm hlater.ne,
      fun hnone => absurd ⟨b.1, b.2, hchild, hlater⟩ hnone⟩

mutual

def places : Node → List Place
  | leaf _ => [[]]
  | sequence _ _ _ steps => [] :: placesOfSteps 0 steps
  | choice _ _ branches fallback => [] :: (placesOfBranches 0 branches ++ placesOfFallback fallback)

def placesOfSteps (k : Nat) : List Node → List Place
  | [] => []
  | n :: ns => n.places.map (.step k :: ·) ++ placesOfSteps (k + 1) ns

/-- The places of all branches, the first of which is branch `k`. -/
def placesOfBranches (k : Nat) : List (String × Node) → List Place
  | [] => []
  | (label, n) :: bs => n.places.map (.branch k label :: ·) ++ placesOfBranches (k + 1) bs

def placesOfFallback : Option Node → List Place
  | none => []
  | some n => n.places.map (.fallback :: ·)

end

private theorem placesOfSteps_eq (k : Nat) (steps : List Node) :
    placesOfSteps k steps = (steps.zipIdx k).flatMap fun n => n.1.places.map (.step n.2 :: ·) := by
  induction steps generalizing k with
  | nil => rfl
  | cons n ns ih => rw [placesOfSteps, ih, List.zipIdx_cons, List.flatMap_cons]

private theorem placesOfBranches_eq (k : Nat) (branches : List (String × Node)) :
    placesOfBranches k branches =
      (branches.zipIdx k).flatMap fun b => b.1.2.places.map (.branch b.2 b.1.1 :: ·) := by
  induction branches generalizing k with
  | nil => rfl
  | cons b bs ih => rw [placesOfBranches, ih, List.zipIdx_cons, List.flatMap_cons]

theorem places_eq (n : Node) :
    n.places = [] :: n.inSlots.flatMap fun c => c.2.places.map (c.1 :: ·) := by
  cases n with
  | leaf l => rfl
  | sequence i ins outs steps => rw [places, placesOfSteps_eq, inSlots, List.flatMap_map]
  | choice i key branches fallback =>
    rw [places, placesOfBranches_eq, inSlots, List.flatMap_append, List.flatMap_map]
    cases fallback <;> simp [placesOfFallback]

theorem nodes_eq_inSlots (n : Node) : n.nodes = n :: n.inSlots.flatMap fun c => c.2.nodes := by
  rw [nodes_eq, ← map_snd_inSlots, List.flatMap_map]

theorem map_nodeAt?_places (n : Node) : n.places.map n.nodeAt? = n.nodes.map some := by
  induction n using induction_children with
  | step n ih =>
    rw [places_eq, nodes_eq_inSlots, List.map_cons, List.map_cons, List.map_flatMap,
      List.map_flatMap]
    refine congrArg (some n :: ·) (List.flatMap_congr fun ⟨s, c⟩ hc => ?_)
    have hchild := mem_inSlots_iff.1 hc
    rw [← ih c (mem_children_iff.2 ⟨s, hchild⟩), List.map_map]
    refine List.map_congr_left fun place _ => ?_
    rw [Function.comp_apply, nodeAt?, hchild, Option.bind_some]

theorem length_places (n : Node) : n.places.length = n.size := by
  have hlength := congrArg List.length (map_nodeAt?_places n)
  rwa [List.length_map, List.length_map] at hlength

theorem nodeAt?_of_getElem? {t n : Node} {place : Place} {k : Nat}
    (hplace : t.places[k]? = some place)
    (hn : t.nodes[k]? = some n) : t.nodeAt? place = some n := by
  have hk := congrArg (·[k]?) (map_nodeAt?_places t)
  simpa [hplace, hn] using hk

theorem mem_places_iff {t : Node} {place : Place} :
    place ∈ t.places ↔ ∃ n, t.nodeAt? place = some n := by
  induction place generalizing t with
  | nil => simp [places_eq t, nodeAt?]
  | cons s place ih =>
    rw [places_eq, List.mem_cons, List.mem_flatMap]
    constructor
    · rintro (hroot | ⟨⟨s', c⟩, hc, hplace⟩)
      · contradiction
      · obtain ⟨below, hbelow, heq⟩ := List.mem_map.1 hplace
        obtain ⟨rfl, rfl⟩ := List.cons.inj heq
        obtain ⟨n, hn⟩ := ih.1 hbelow
        exact ⟨n, by rw [nodeAt?, mem_inSlots_iff.1 hc, Option.bind_some, hn]⟩
    · rintro ⟨n, hn⟩
      obtain ⟨c, hc, hplace⟩ := Option.bind_eq_some_iff.1 hn
      exact .inr ⟨(s, c), mem_inSlots_iff.2 hc, List.mem_map_of_mem (ih.2 ⟨n, hplace⟩)⟩

theorem pairwise_places (t : Node) : t.places.Pairwise Place.ListedBefore := by
  induction t using induction_children with
  | step t ih =>
    rw [places_eq, List.pairwise_cons]
    refine ⟨fun place hplace => ?_, List.pairwise_flatMap.2 ⟨fun ⟨s, c⟩ hc => ?_, ?_⟩⟩
    · obtain ⟨⟨s, c⟩, -, hplace⟩ := List.mem_flatMap.1 hplace
      obtain ⟨below, -, rfl⟩ := List.mem_map.1 hplace
      exact .nil
    · have hbelow := ih c (mem_children_iff.2 ⟨s, mem_inSlots_iff.1 hc⟩)
      exact List.pairwise_map.2 (hbelow.imp .cons)
    · refine (pairwise_inSlots t).imp fun hslots place hplace other hother => ?_
      obtain ⟨below, -, rfl⟩ := List.mem_map.1 hplace
      obtain ⟨below', -, rfl⟩ := List.mem_map.1 hother
      exact .rel hslots

end Node

end PromptChain
