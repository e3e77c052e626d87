import PromptChain.Outline
import PromptChain.Proofs.Node.ListedPlaces

/-!
# What an outline shows

The lines of an outline are those of the nodes, one by one, and each is determined by the place of
its node: it is indented by the levels above, with a bar for each node on the way down that is not a
last child. The first characters of a line tell how many levels these are, whatever follows, and so
the outline of a tree determines its shape.
-/

set_option autoImplicit false

namespace PromptChain

def Leaf.shown : Leaf → List String
  | prompt p => [p.outputKey]
  | chat c => [c.role, c.outputKey]
  | api a => [a.method, a.url, a.outputKey]
  | vectorSearch v => [v.database, v.outputKey]
  | reformat r => Entries.keys r.formatters
  | transform t => t.outputKeys

def Leaf.description : Leaf → List String
  | prompt p => ["llm_spec #", idText p.id, " -> ", p.outputKey]
  | chat c => ["chat_spec #", idText c.id, " (", c.role, ") -> ", c.outputKey]
  | api a => ["api_spec #", idText a.id, " ", a.method, " ", a.url, " -> ", a.outputKey]
  | vectorSearch v => ["vector_search_spec #", idText v.id, " ", v.database, " -> ", v.outputKey]
  | reformat r =>
    ["reformat_spec #", idText r.id, " -> ", ", ".intercalate (Entries.keys r.formatters)]
  | transform t => ["transform_spec #", idText t.id, " -> ", ", ".intercalate t.outputKeys]

namespace Node

/-- The texts that the outline shows of a node and of the labels of its branches. -/
def shown : Node → List String
  | leaf l => l.shown
  | sequence _ _ _ _ => []
  | choice _ key branches _ => key :: Entries.keys branches

/-- No text that the outline shows holds a line feed. -/
def Unbroken (t : Node) : Prop := ∀ n ∈ t.nodes, ∀ s ∈ n.shown, '\n' ∉ s.toList

/-- What stands in front of the description of a child in a slot. -/
def slotLabel : Slot → String
  | .step _ => ""
  | .branch _ label => "[" ++ label ++ "] "
  | .fallback => "[default] "

def description : Node → List String
  | leaf l => l.description
  | sequence i _ _ _ => ["sequential_spec #", idText i]
  | choice i key _ _ => ["case_spec #", idText i, " on '", key, "'"]

theorem heading_append_details (n : Node) : n.heading ++ n.details = String.join n.description := by
  rcases n with (p | c | a | v | r | f) | _ | _ <;>
    simp [heading, kind, Leaf.kind, Kind.name, id, Leaf.id, details, Leaf.details, description,
      Leaf.description, ← String.append_assoc]

/-- Behind the node at a place another child of its parent is listed. -/
def HasLaterSibling (t : Node) (place : Place) : Prop :=
  ∃ front s s' c, place = front ++ [s] ∧ t.nodeAt? (front ++ [s']) = some c ∧ s.ListedBefore s'

open Classical in
/-- The line of a node at a place: four characters for each node above it, with a bar if that one
has a later sibling, the marker, which tells whether the node has a later sibling itself, the label
if it is a branch, and its description. -/
noncomputable def lineAt (t : Node) (place : Place) (n : Node) : String :=
  String.join ((List.range place.length).map fun level =>
      if t.HasLaterSibling (place.take level) then "│   " else "    ") ++
    (if t.HasLaterSibling place then "├── " else "└── ") ++ place.getLast?.elim "" slotLabel ++
    String.join n.description

/-- Whether the node at a place is the last child of its parent; the root counts as one. -/
def isLast (t : Node) (place : Place) : Bool :=
  match place.getLast? with
  | none => true
  | some s => (t.nodeAt? place.dropLast).bind lastSlot? = some s

/-- The line of a node at a place as it is put together from what is drawn level by level. -/
private def drawnAt (t : Node) (place : Place) (n : Node) : String :=
  String.join ((List.range place.length).map fun level =>
    continuation (t.isLast (place.take level))) ++ connector (t.isLast place) ++
      place.getLast?.elim "" slotLabel ++ n.heading ++ n.details

theorem isLast_eq_true_iff {t n : Node} {place : Place} (h : t.nodeAt? place = some n) :
    t.isLast place = true ↔ ¬ t.HasLaterSibling place := by
  rcases List.eq_nil_or_concat place with rfl | ⟨front, s, rfl⟩
  · simp [isLast, HasLaterSibling]
  · rw [List.concat_eq_append] at h ⊢
    have hbelow : ∀ {parent : Node} (s : Slot), t.nodeAt? front = some parent →
        t.nodeAt? (front ++ [s]) = parent.child? s := fun s hparent => by
      simp [nodeAt?_append, hparent, nodeAt?]
    obtain ⟨parent, hparent, -⟩ := Option.bind_eq_some_iff.1 (nodeAt?_append t front [s] ▸ h)
    rw [hbelow s hparent] at h
    have hlast : t.isLast (front ++ [s]) = true ↔ parent.lastSlot? = some s := by
      simp [isLast, hparent]
    rw [hlast, lastSlot?_eq_some_iff h, not_iff_not]
    constructor
    · rintro ⟨s', c', hc', hlater⟩
      exact ⟨front, s, s', c', rfl, (hbelow s' hparent).trans hc', hlater⟩
    · rintro ⟨front', s₁, s', c', heq, hc', hlater⟩
      obtain ⟨rfl, hs⟩ := List.append_inj' heq rfl
      obtain rfl := List.singleton_inj.1 hs
      exact ⟨s', c', (hbelow s' hparent).symm.trans hc', hlater⟩

theorem exists_nodeAt?_take {t n : Node} {place : Place} (h : t.nodeAt? place = some n)
    (level : Nat) :
    ∃ m, t.nodeAt? (place.take level) = some m := by
  rw [← List.take_append_drop level place, nodeAt?_append] at h
  obtain ⟨m, hm, -⟩ := Option.bind_eq_some_iff.1 h
  exact ⟨m, hm⟩

open Classical in
/-- What is drawn for a node of the tree is its line. -/
private theorem drawnAt_eq_lineAt {t n : Node} {place : Place} (h : t.nodeAt? place = some n) :
    t.drawnAt place n = t.lineAt place n := by
  have hlast : ∀ level, t.isLast (place.take level) = true ↔
      ¬ t.HasLaterSibling (place.take level) :=
    fun level => isLast_eq_true_iff (exists_nodeAt?_take h level).choose_spec
  have hbars : ∀ level, continuation (t.isLast (place.take level)) =
      if t.HasLaterSibling (place.take level) then "│   " else "    " := by
    intro level
    by_cases hlater : t.HasLaterSibling (place.take level) <;> simp [continuation, hlast, hlater]
  have hmarker : connector (t.isLast place) =
      if t.HasLaterSibling place then "├── " else "└── " := by
    by_cases hlater : t.HasLaterSibling place <;>
      simp [connector, isLast_eq_true_iff h, hlater]
  rw [drawnAt, String.append_assoc, heading_append_details, hmarker]
  simp only [hbars]
  rfl

theorem isLast_cons {t c : Node} {s : Slot} (h : t.child? s = some c) (place : Place) :
    t.isLast (s :: place) =
      if place = [] then decide (t.lastSlot? = some s) else c.isLast place := by
  cases place with
  | nil => rfl
  | cons s' place => simp [isLast, nodeAt?, h, List.dropLast_cons_of_ne_nil]

/-- What comes of the elements of a list, each told whether it is the last one. -/
private def flagged {α β : Type} (f : Bool → α → List β) : List α → List β
  | [] => []
  | a :: as => f as.isEmpty a ++ flagged f as

private theorem flagged_eq_flatMap {α β γ : Type} [DecidableEq γ] (f : Bool → α → List β)
    {key : α → γ} {l : List α} (h : (l.map key).Nodup) :
    flagged f l = l.flatMap fun a => f (decide (l.getLast?.map key = some (key a))) a := by
  induction l with
  | nil => rfl
  | cons a as ih =>
    cases as with
    | nil => simp [flagged]
    | cons b bs =>
      obtain ⟨hnew, hnodup⟩ := List.nodup_cons.1 h
      have hlast : (b :: bs).getLast?.map key ≠ some (key a) := fun heq => by
        obtain ⟨c, hc, hkey⟩ := Option.map_eq_some_iff.1 heq
        exact hnew (hkey ▸ List.mem_map_of_mem (List.mem_of_getLast? hc))
      rw [flagged, ih hnodup, List.getLast?_cons_cons]
      conv_rhs => rw [List.flatMap_cons, decide_eq_false hlast]
      rfl

private theorem stepLines_eq (margin : String) (steps : List Node) (k : Nat) :
    stepLines margin steps = flagged (fun last c => outlineLines margin (slotLabel c.1) last c.2)
      ((steps.zipIdx k).map fun n => (.step n.2, n.1)) := by
  induction steps generalizing k with
  | nil => rfl
  | cons n ns ih =>
    rw [stepLines, ih (k + 1), List.zipIdx_cons, List.map_cons, flagged]
    cases ns <;> simp [slotLabel]

private theorem branchLines_eq (margin : String) (branches : List (String × Node))
    (fallback : Option Node) (k : Nat) :
    branchLines margin fallback.isNone branches ++ fallbackLines margin fallback =
      flagged (fun last c => outlineLines margin (slotLabel c.1) last c.2)
        ((branches.zipIdx k).map (fun b => (.branch b.2 b.1.1, b.1.2)) ++
          fallback.toList.map (.fallback, ·)) := by
  induction branches generalizing k with
  | nil => cases fallback <;> simp [branchLines, fallbackLines, flagged, slotLabel, labelText]
  | cons b bs ih =>
    rw [branchLines, List.append_assoc, ih (k + 1), List.zipIdx_cons, List.map_cons,
      List.cons_append, flagged]
    cases fallback <;> cases bs <;> simp [slotLabel, labelText]

theorem outlineLines_eq (margin label : String) (last : Bool) (n : Node) :
    outlineLines margin label last n = line margin label last n ::
      n.inSlots.flatMap fun c => outlineLines (margin ++ continuation last) (slotLabel c.1)
        (decide (n.lastSlot? = some c.1)) c.2 := by
  have hflags := flagged_eq_flatMap
    (fun last' c => outlineLines (margin ++ continuation last) (slotLabel c.1) last' c.2)
    (nodup_map_fst_inSlots n)
  rw [lastSlot?, ← hflags]
  cases n with
  | leaf l => rfl
  | sequence i ins outs steps => rw [outlineLines, stepLines_eq _ _ 0, inSlots]
  | choice i key branches fallback => rw [outlineLines, branchLines_eq _ _ _ 0, inSlots]

/-- The line of a node at a place of a tree whose root is drawn behind a margin and a label. -/
private def lineBelow (margin label : String) (last : Bool) (t : Node) (place : Place) (n : Node) :
    String :=
  match place with
  | [] => line margin label last n
  | s :: below =>
    let levels :=
      (List.range below.length).map fun level => continuation (t.isLast (s :: below.take level))
    line (margin ++ continuation last ++ String.join levels) (place.getLast?.elim "" slotLabel)
      (t.isLast place) n

private theorem drawnAt_eq (t : Node) (place : Place) (n : Node) :
    t.drawnAt place n = lineBelow "" "" true t place n := by
  cases place with
  | nil => simp [drawnAt, lineBelow, line, isLast]
  | cons s below =>
    have hroot : t.isLast [] = true := rfl
    simp [drawnAt, lineBelow, line, List.range_succ_eq_map, hroot, Function.comp_def]

private theorem lineBelow_cons {t c : Node} {s : Slot} (h : t.child? s = some c)
    (margin label : String) (last : Bool) (below : Place) (n : Node) :
    lineBelow margin label last t (s :: below) n =
      lineBelow (margin ++ continuation last) (slotLabel s) (decide (t.lastSlot? = some s)) c
        below n := by
  cases below with
  | nil => simp [lineBelow, isLast_cons h]
  | cons s' below =>
    simp [lineBelow, isLast_cons h, List.range_succ_eq_map, Function.comp_def, String.append_assoc]

private theorem zipWith_flatMap {α β γ δ : Type} {f : β → γ → δ} {g : α → List β} {g' : α → List γ}
    {l : List α} (h : ∀ a ∈ l, (g a).length = (g' a).length) :
    List.zipWith f (l.flatMap g) (l.flatMap g') = l.flatMap fun a =>
      List.zipWith f (g a) (g' a) := by
  induction l with
  | nil => rfl
  | cons a l ih =>
    rw [List.forall_mem_cons] at h
    rw [List.flatMap_cons, List.flatMap_cons, List.zipWith_append h.1, ih h.2, List.flatMap_cons]

private theorem outlineLines_eq_zipWith (margin label : String) (last : Bool) (t : Node) :
    outlineLines margin label last t =
      List.zipWith (lineBelow margin label last t) t.places t.nodes := by
  induction t using induction_children generalizing margin label last with
  | step t ih =>
    have hlengths : ∀ c ∈ t.inSlots, (c.2.places.map (c.1 :: ·)).length = c.2.nodes.length := by
      intro c _
      rw [List.length_map, length_places, size]
    rw [outlineLines_eq, places_eq, nodes_eq_inSlots, List.zipWith_cons_cons,
      zipWith_flatMap hlengths]
    refine congrArg (line margin label last t :: ·) (List.flatMap_congr fun ⟨s, c⟩ hc => ?_)
    have hchild := mem_inSlots_iff.1 hc
    rw [ih c (mem_children_iff.2 ⟨s, hchild⟩), List.zipWith_map_left]
    exact congrArg (List.zipWith · _ _) (funext₂ fun below n => (lineBelow_cons hchild ..).symm)

theorem outlineLines_root (t : Node) :
    outlineLines "" "" true t = List.zipWith t.drawnAt t.places t.nodes := by
  rw [outlineLines_eq_zipWith]
  exact congrArg (List.zipWith · _ _) (funext₂ fun place n => (drawnAt_eq t place n).symm)

/-! ## Line feeds -/

private theorem not_mem_intercalate {sep : String} {l : List String} {c : Char}
    (hsep : c ∉ sep.toList) (h : ∀ s ∈ l, c ∉ s.toList) : c ∉ (sep.intercalate l).toList := by
  rw [String.toList_intercalate]
  induction l with
  | nil => simp [List.intercalate]
  | cons s l ih =>
    rw [List.forall_mem_cons] at h
    cases l with
    | nil => simpa [List.intercalate] using h.1
    | cons s' l =>
      have hrest := ih h.2
      simp only [List.map_cons, List.intercalate_cons_cons, List.mem_append, not_or] at hrest ⊢
      exact ⟨⟨h.1, hsep⟩, hrest⟩

private theorem newline_not_mem_idText (id : NodeId) : '\n' ∉ (idText id).toList := by
  rw [idText, String.toList_ofList]
  intro h
  have hdigit : Char.isDigit '\n' := Nat.isDigit_of_mem_toDigits (by decide) (by decide) h
  revert hdigit
  decide

private theorem newline_not_mem_heading (n : Node) : '\n' ∉ n.heading.toList := by
  have hname : '\n' ∉ n.kind.name.toList := by cases n.kind <;> decide
  simp [heading, hname, newline_not_mem_idText]

private theorem newline_not_mem_details {n : Node} (h : ∀ s ∈ n.shown, '\n' ∉ s.toList) :
    '\n' ∉ n.details.toList := by
  rcases n with (p | c | a | v | r | f) | _ | _
  case leaf.reformat | leaf.transform =>
    have hcomma : '\n' ∉ ", ".toList := by decide
    simpa [details, Leaf.details, shown, Leaf.shown] using not_mem_intercalate hcomma h
  all_goals simp_all [details, Leaf.details, shown, Leaf.shown]

private theorem newline_not_mem_label {t n : Node} (h : t.Unbroken) {place : Place}
    (hn : t.nodeAt? place = some n) : '\n' ∉ (place.getLast?.elim "" slotLabel).toList := by
  rcases List.eq_nil_or_concat place with rfl | ⟨front, s, rfl⟩
  · simp
  · rw [List.concat_eq_append] at hn ⊢
    rw [List.getLast?_concat, Option.elim_some]
    cases s with
    | step k => simp [slotLabel]
    | fallback => decide
    | branch k label =>
      -- The label of a branch is one of the texts of the choice that stands above it.
      rw [nodeAt?_append] at hn
      obtain ⟨parent, hparent, hchild⟩ := Option.bind_eq_some_iff.1 hn
      obtain ⟨c, hc, -⟩ := Option.bind_eq_some_iff.1 hchild
      cases parent with
      | leaf | sequence => contradiction
      | choice i key branches fallback =>
        have hmem := List.mem_of_getElem? (child?_branch_eq_some_iff.1 hc)
        have hlabel : label ∈ (choice i key branches fallback).shown :=
          List.mem_cons_of_mem _ (List.mem_map_of_mem hmem)
        have hbreak := h _ (mem_nodes_iff_exists_place.2 ⟨front, hparent⟩) label hlabel
        simpa [slotLabel] using hbreak

private theorem newline_not_mem_continuation (last : Bool) : '\n' ∉ (continuation last).toList := by
  cases last <;> decide

theorem newline_not_mem_drawnAt {t n : Node} (h : t.Unbroken) {place : Place}
    (hn : t.nodeAt? place = some n) : '\n' ∉ (t.drawnAt place n).toList := by
  have hconnector : '\n' ∉ (connector (t.isLast place)).toList := by
    cases t.isLast place <;> decide
  have hlabel := newline_not_mem_label h hn
  have hdetails := newline_not_mem_details (h n (mem_nodes_iff_exists_place.2 ⟨place, hn⟩))
  simp only [drawnAt, String.toList_append, String.toList_join, List.mem_append, List.mem_flatMap,
    List.mem_map, not_or]
  refine ⟨⟨⟨⟨?_, hconnector⟩, hlabel⟩, newline_not_mem_heading n⟩, hdetails⟩
  rintro ⟨text, ⟨level, -, rfl⟩, hmem⟩
  exact newline_not_mem_continuation _ hmem

private theorem append_cons_inj {as bs as' bs' : List Char} {c : Char} (has : c ∉ as)
    (has' : c ∉ as') (h : as ++ c :: bs = as' ++ c :: bs') : as = as' ∧ bs = bs' := by
  induction as generalizing as' with
  | nil =>
    cases as' with
    | nil => exact ⟨rfl, (List.cons.inj h).2⟩
    | cons a as' => exact absurd (List.cons.inj h).1 (fun heq => has' (heq ▸ List.mem_cons_self))
  | cons a as ih =>
    cases as' with
    | nil => exact absurd (List.cons.inj h).1 (fun heq => has (heq ▸ List.mem_cons_self))
    | cons a' as' =>
      obtain ⟨rfl, htail⟩ := List.cons.inj h
      obtain ⟨rfl, hbs⟩ := ih (fun hc => has (List.mem_cons_of_mem _ hc))
        (fun hc => has' (List.mem_cons_of_mem _ hc)) htail
      exact ⟨rfl, hbs⟩

theorem lines_inj {lines lines' : List String} (h : ∀ line ∈ lines, '\n' ∉ line.toList)
    (h' : ∀ line ∈ lines', '\n' ∉ line.toList)
    (heq : String.join (lines.map (· ++ "\n")) = String.join (lines'.map (· ++ "\n"))) :
    lines = lines' := by
  have htexts := congrArg String.toList heq
  simp only [String.toList_join, List.flatMap_map, String.toList_append] at htexts
  clear heq
  induction lines generalizing lines' with
  | nil =>
    cases lines' with
    | nil => rfl
    | cons line' lines' => simp at htexts
  | cons line lines ih =>
    cases lines' with
    | nil => simp at htexts
    | cons line' lines' =>
      rw [List.forall_mem_cons] at h h'
      simp only [List.flatMap_cons, List.append_assoc] at htexts
      obtain ⟨hline, hlines⟩ := append_cons_inj h.1 h'.1 htexts
      rw [String.toList_inj.1 hline, ih h.2 h'.2 hlines]

/-! ## Shapes -/

/-- Two trees whose roots have as many children, which have the same shape one by one. -/
inductive SameShape : Node → Node → Prop where
  | of_children {n m : Node} : List.Forall₂ SameShape n.children m.children → SameShape n m

/-- How deep each node of a tree stands, in order, if the root stands at a depth. -/
private def depths (depth : Nat) (n : Node) : List Nat :=
  n.places.map fun place => depth + place.length

private theorem depths_eq (depth : Nat) (n : Node) :
    n.depths depth = depth :: n.children.flatMap (depths (depth + 1)) := by
  rw [depths, places_eq, List.map_cons, List.map_flatMap, ← map_snd_inSlots, List.flatMap_map]
  refine congrArg (depth :: ·) (List.flatMap_congr fun c _ => ?_)
  rw [depths, List.map_map]
  exact List.map_congr_left fun place _ => by simp [Nat.add_comm, Nat.add_left_comm]

private theorem sameShapes_of_flatMap_depths {depth : Nat} {cs cs' : List Node}
    {rest rest' : List Nat}
    (ih : ∀ c ∈ cs, ∀ (c' : Node) (rest rest' : List Nat), (∀ d ∈ rest.head?, d ≤ depth) →
      (∀ d ∈ rest'.head?, d ≤ depth) → c.depths depth ++ rest = c'.depths depth ++ rest' →
      c.SameShape c' ∧ rest = rest')
    (hrest : ∀ d ∈ rest.head?, d < depth) (hrest' : ∀ d ∈ rest'.head?, d < depth)
    (h : cs.flatMap (depths depth) ++ rest = cs'.flatMap (depths depth) ++ rest') :
    List.Forall₂ SameShape cs cs' ∧ rest = rest' := by
  -- What follows a child is another child, at the same depth, or stands less deep.
  have hhead : ∀ (cs : List Node) (rest : List Nat), (∀ d ∈ rest.head?, d < depth) →
      ∀ d ∈ (cs.flatMap (depths depth) ++ rest).head?, d ≤ depth := by
    intro cs rest hrest d hd
    cases cs with
    | nil => exact Nat.le_of_lt (hrest d hd)
    | cons c cs => simp_all [depths_eq]
  induction cs generalizing cs' with
  | nil =>
    cases cs' with
    | nil => exact ⟨.nil, h⟩
    | cons c' cs' =>
      have hlt := hrest depth (by rw [show rest = _ from h]; simp [depths_eq])
      exact absurd hlt (Nat.lt_irrefl depth)
  | cons c cs ihcs =>
    rw [List.forall_mem_cons] at ih
    cases cs' with
    | nil =>
      have hlt := hrest' depth (by rw [show rest' = _ from h.symm]; simp [depths_eq])
      exact absurd hlt (Nat.lt_irrefl depth)
    | cons c' cs' =>
      rw [List.flatMap_cons, List.flatMap_cons, List.append_assoc, List.append_assoc] at h
      obtain ⟨hc, hcs⟩ := ih.1 c' _ _ (hhead cs rest hrest) (hhead cs' rest' hrest') h
      obtain ⟨hshapes, hrests⟩ := ihcs ih.2 hcs
      exact ⟨.cons hc hshapes, hrests⟩

/-- Where the depths of a tree end, and what its shape is, can be told from the depths alone. -/
private theorem sameShape_of_depths (n : Node) : ∀ (depth : Nat) (m : Node) (rest rest' : List Nat),
    (∀ d ∈ rest.head?, d ≤ depth) → (∀ d ∈ rest'.head?, d ≤ depth) →
    n.depths depth ++ rest = m.depths depth ++ rest' → n.SameShape m ∧ rest = rest' := by
  induction n using induction_children with
  | step n ih =>
    intro depth m rest rest' hrest hrest' h
    rw [depths_eq, depths_eq depth m, List.cons_append, List.cons_append] at h
    obtain ⟨hshapes, hrests⟩ := sameShapes_of_flatMap_depths (fun c hc => ih c hc (depth + 1))
      (fun d hd => Nat.lt_succ_of_le (hrest d hd)) (fun d hd => Nat.lt_succ_of_le (hrest' d hd))
      (List.cons.inj h).2
    exact ⟨.of_children hshapes, hrests⟩

/-- How many groups of four characters come before the connector can be told from the text, whatever
follows. -/
private theorem length_eq_of_indent_eq {lasts lasts' : List Bool} {last last' : Bool}
    {text text' : List Char}
    (h : lasts.flatMap (fun l => (continuation l).toList) ++ ((connector last).toList ++ text) =
      lasts'.flatMap (fun l => (continuation l).toList) ++ ((connector last').toList ++ text')) :
    lasts.length = lasts'.length := by
  -- No group starts as a connector does.
  have hhead : ∀ (l last : Bool) (cs cs' : List Char),
      (continuation l).toList ++ cs ≠ (connector last).toList ++ cs' := by
    intro l last cs cs'
    cases l <;> cases last <;> simp [continuation, connector]
  have hsame : ∀ (l l' : Bool) (cs cs' : List Char),
      (continuation l).toList ++ cs = (continuation l').toList ++ cs' → cs = cs' := by
    intro l l' cs cs'
    cases l <;> cases l' <;> simp [continuation]
  induction lasts generalizing lasts' with
  | nil =>
    cases lasts' with
    | nil => rfl
    | cons l' lasts' =>
      rw [List.flatMap_nil, List.nil_append, List.flatMap_cons, List.append_assoc] at h
      exact absurd h.symm (hhead _ _ _ _)
  | cons l lasts ih =>
    rw [List.flatMap_cons, List.append_assoc] at h
    cases lasts' with
    | nil => exact absurd h (hhead _ _ _ _)
    | cons l' lasts' =>
      rw [List.flatMap_cons, List.append_assoc] at h
      rw [List.length_cons, List.length_cons, ih (hsame _ _ _ _ h)]

private def lastsAbove (t : Node) (place : Place) : List Bool :=
  (List.range place.length).map fun level => t.isLast (place.take level)

theorem length_eq_of_drawnAt_eq {t t' n n' : Node} {place place' : Place}
    (h : t.drawnAt place n = t'.drawnAt place' n') : place.length = place'.length := by
  have htext : ∀ (t : Node) (place : Place) (n : Node), ∃ text, (t.drawnAt place n).toList =
      (t.lastsAbove place).flatMap (fun l => (continuation l).toList) ++
        ((connector (t.isLast place)).toList ++ text) := fun t place n =>
    ⟨(place.getLast?.elim "" slotLabel ++ n.heading ++ n.details).toList, by
      simp [drawnAt, lastsAbove, String.toList_join, List.flatMap_map]⟩
  obtain ⟨text, ht⟩ := htext t place n
  obtain ⟨text', ht'⟩ := htext t' place' n'
  have hlength := length_eq_of_indent_eq (ht.symm.trans ((congrArg String.toList h).trans ht'))
  simpa [lastsAbove] using hlength

private theorem map_eq_of_zipWith_eq {α β γ δ : Type} {f f' : α → β → γ} {g : α → δ}
    (hg : ∀ a b a' b', f a b = f' a' b' → g a = g a') {as as' : List α} {bs bs' : List β}
    (hlength : as.length = bs.length) (hlength' : as'.length = bs'.length)
    (h : List.zipWith f as bs = List.zipWith f' as' bs') : as.map g = as'.map g := by
  induction as generalizing bs as' bs' with
  | nil =>
    cases as' with
    | nil => rfl
    | cons a' as' => cases bs <;> cases bs' <;> simp_all
  | cons a as ih =>
    cases bs with
    | nil => simp at hlength
    | cons b bs =>
      cases as' with
      | nil => simp at h
      | cons a' as' =>
        cases bs' with
        | nil => simp at h
        | cons b' bs' =>
          obtain ⟨hhead, htail⟩ := List.cons.inj h
          rw [List.map_cons, List.map_cons, hg _ _ _ _ hhead,
            ih (Nat.succ.inj hlength) (Nat.succ.inj hlength') htail]

theorem newline_not_mem_lines {t : Node} (h : t.Unbroken) :
    ∀ line ∈ List.zipWith t.drawnAt t.places t.nodes, '\n' ∉ line.toList := by
  intro line hline
  obtain ⟨k, hk⟩ := List.mem_iff_getElem?.1 hline
  obtain ⟨place, n, hplace, hn, rfl⟩ := List.getElem?_zipWith_eq_some.1 hk
  exact newline_not_mem_drawnAt h (nodeAt?_of_getElem? hplace hn)

theorem sameShape_of_outline_eq {t t' : Node} (ht : t.Unbroken) (ht' : t'.Unbroken)
    (h : t.outline = t'.outline) : t.SameShape t' := by
  rw [outline, outline, outlineLines_root, outlineLines_root] at h
  have hlines := lines_inj (newline_not_mem_lines ht) (newline_not_mem_lines ht') h
  have hlengths : t.places.map List.length = t'.places.map List.length := by
    refine map_eq_of_zipWith_eq (fun place n place' n' hline => ?_) (length_places t)
      (length_places t') hlines
    exact length_eq_of_drawnAt_eq hline
  refine (sameShape_of_depths t 0 t' [] [] (by simp) (by simp) ?_).1
  simpa [depths] using hlengths

/-- The outline of a tree whose texts hold no line feeds has as many lines as the tree has nodes,
each ended by a line feed. The line of each node, in the order of the nodes, is that of its place:
four characters for each level above it, with a bar exactly for a node with a later sibling, the
connector, which tells whether it has a later sibling itself, and what describes it. Two such trees
with one outline have the same shape. -/
theorem outline_shows_nodes {t : Node} (ht : t.Unbroken) :
    (∃ lines : List String,
      t.outline = String.join (lines.map (· ++ "\n")) ∧ (∀ line ∈ lines, '\n' ∉ line.toList) ∧
      lines.length = t.size ∧
      ∀ (k : Nat) (place : Place) (n : Node), t.places[k]? = some place → t.nodes[k]? = some n →
        lines[k]? = some (t.lineAt place n)) ∧
    t.places.map t.nodeAt? = t.nodes.map some ∧ t.places.Pairwise Place.ListedBefore ∧
    (∀ place ∈ t.places, t.isLast place = true ↔ ¬ t.HasLaterSibling place) ∧
    ∀ t' : Node, t'.Unbroken → t.outline = t'.outline → t.SameShape t' := by
  refine ⟨⟨List.zipWith t.drawnAt t.places t.nodes, ?_, newline_not_mem_lines ht, ?_, ?_⟩,
    map_nodeAt?_places t, pairwise_places t, fun place hplace => ?_,
    fun t' ht' h => sameShape_of_outline_eq ht ht' h⟩
  · rw [outline, outlineLines_root]
  · rw [List.length_zipWith, length_places, size, Nat.min_self]
  · intro k place n hplace hn
    rw [List.getElem?_zipWith, hplace, hn]
    exact congrArg some (drawnAt_eq_lineAt (nodeAt?_of_getElem? hplace hn))
  · obtain ⟨n, hn⟩ := mem_places_iff.1 hplace
    exact isLast_eq_true_iff hn

/-- A choice whose texts look like connectors, over a sequence with a prompt. -/
private def drawn (prompt : String) : Node :=
  .choice 1 "│   baz"
    [("└── 1", .sequence 2 [] [] [.leaf (.prompt ⟨3, [], "├── dog", prompt, "llm"⟩)])]
    (some (.leaf (.chat ⟨4, [], "tree", prompt, "user", "llm"⟩)))

private theorem unbroken_drawn (prompt : String) : (drawn prompt).Unbroken := by
  simp [drawn, Unbroken, nodes, nodesOfSteps, nodesOfBranches, nodesOfFallback, shown, Leaf.shown,
    Entries.keys]

example : (drawn "").outline =
    "└── case_spec #1 on '│   baz'\n    ├── [└── 1] sequential_spec #2\n" ++
      "    │   └── llm_spec #3 -> ├── dog\n    └── [default] chat_spec #4 (user) -> tree\n" := by
  decide +kernel

theorem outline_shows_nodes_drawn :
    (drawn "").Unbroken ∧ (drawn "").outline = (drawn "\n").outline ∧
    (drawn "").SameShape (drawn "\n") ∧
    ∃ lines : List String, (drawn "").outline = String.join (lines.map (· ++ "\n")) ∧
    lines.length = 4 := by
  have heq : (drawn "").outline = (drawn "\n").outline := rfl
  obtain ⟨⟨lines, hlines, -, hlength, -⟩, -, -, -, hshape⟩ :=
    outline_shows_nodes (unbroken_drawn "")
  exact ⟨unbroken_drawn "", heq, hshape _ (unbroken_drawn "\n") heq, lines, hlines, hlength⟩

end Node

end PromptChain
