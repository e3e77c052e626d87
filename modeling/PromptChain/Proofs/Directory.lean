import PromptChain.Directory
import PromptChain.Proofs.Entries
import PromptChain.Proofs.Sequencing

/-!
# Reading what was written

Where a path leads is told by the names of files and folders alone. A text that is written to a path
is read back from it, since the new file is in the way of no folder that the path goes through; no
other file changes, and when the file was there before, neither does where any path leads.
-/

set_option autoImplicit false

namespace PromptChain.Directory

/-- A place whose parts hold no slash. -/
def Whole (place : List String) : Prop := ∀ part ∈ place, '/' ∉ part.toList

theorem slash_not_mem_of_mem_partsFrom {cs part piece : List Char} (h : '/' ∉ part)
    (hpiece : piece ∈ partsFrom part cs) : '/' ∉ piece := by
  induction cs generalizing part with
  | nil =>
    obtain rfl := List.mem_singleton.1 hpiece
    exact fun hmem => h (List.mem_reverse.1 hmem)
  | cons c cs ih =>
    rw [partsFrom] at hpiece
    split at hpiece
    · rcases List.mem_cons.1 hpiece with rfl | hpiece
      · exact fun hmem => h (List.mem_reverse.1 hmem)
      · exact ih List.not_mem_nil hpiece
    · next hc =>
      refine ih (fun hmem => ?_) hpiece
      rcases List.mem_cons.1 hmem with hslash | hmem
      · exact hc hslash.symm
      · exact h hmem

theorem whole_parts (path : String) : Whole (parts path) := by
  intro part hpart
  obtain ⟨piece, hpiece, rfl⟩ := List.mem_map.1 hpart
  rw [String.toList_ofList]
  exact slash_not_mem_of_mem_partsFrom List.not_mem_nil (List.mem_filter.1 hpiece).1

theorem whole_start (path : String) : Whole (start path) := by
  rw [start]
  split
  · simp [Whole]
  · exact nofun

theorem whole_onward {here : List String} {part : String} (h : Whole here)
    (hpart : '/' ∉ part.toList) :
    Whole (onward here part) := by
  have hadd : ∀ piece : String, '/' ∉ piece.toList → Whole (here ++ [piece]) :=
    fun piece hpiece => by
    intro q hq
    rcases List.mem_append.1 hq with hq | hq
    · exact h q hq
    · obtain rfl := List.mem_singleton.1 hq
      exact hpiece
  rw [onward]
  split
  · exact h
  · split
    · rw [above]
      split
      · exact h
      · split
        · exact hadd ".." (by decide)
        · exact fun q hq => h q (List.dropLast_subset here hq)
    · exact hadd part hpart

theorem join_inj {a b : List String} (ha : Whole a) (hb : Whole b) (hane : a ≠ []) (hbne : b ≠ [])
    (h : join a = join b) : a = b := by
  have hsplit : ∀ place : List String, Whole place → place ≠ [] →
      (join place).toList.splitOn '/' = place.map String.toList := fun place hplace hne => by
    rw [join, String.toList_intercalate, show "/".toList = ['/'] from rfl]
    refine List.splitOn_intercalate '/' (fun cs hcs => ?_) (mt List.map_eq_nil_iff.1 hne)
    obtain ⟨part, hpart, rfl⟩ := List.mem_map.1 hcs
    exact hplace part hpart
  have hmap : a.map String.toList = b.map String.toList := by
    rw [← hsplit a ha hane, ← hsplit b hb hbne, h]
  exact (List.map_inj_right fun _ _ => String.toList_inj.1).1 hmap

def put (d : Directory) (name text : String) : Directory :=
  { d with files := Entries.put d.files name text }

theorem hasFile_iff (d : Directory) (place : List String) :
    d.hasFile place = true ↔ join place ∈ Entries.keys d.files := by
  simp [hasFile, Entries.has, Entries.keys]

theorem hasFile_put_iff (d : Directory) (name text : String) (place : List String) :
    (d.put name text).hasFile place = true ↔ d.hasFile place = true ∨ join place = name := by
  rw [hasFile_iff, hasFile_iff, put, Entries.mem_keys_put]

theorem hasFolder_eq (d : Directory) (here : List String) : d.hasFolder here =
    (here = [""] || here.all (· = "..") ||
      (Entries.keys d.files).any (fun name => here.isPrefixOf (place name).dropLast) ||
      d.folders.any fun f => here.isPrefixOf (place f)) := by
  rw [hasFolder, Entries.keys, List.any_map]
  rfl

theorem hasFolder_put {d : Directory} {here : List String} (h : d.hasFolder here = true)
    (name text : String) : (d.put name text).hasFolder here = true := by
  have hkeys : ∀ p : String → Bool, (Entries.keys d.files).any p = true →
      (Entries.keys (d.put name text).files).any p = true := fun p hp => by
    obtain ⟨key, hkey, hpk⟩ := List.any_eq_true.1 hp
    exact List.any_eq_true.2 ⟨key, (Entries.mem_keys_put ..).2 (.inl hkey), hpk⟩
  rw [hasFolder_eq, Bool.or_eq_true, Bool.or_eq_true] at h
  rw [hasFolder_eq, Bool.or_eq_true, Bool.or_eq_true]
  exact h.imp_left fun h => h.imp_right (hkeys _)

/-- The name of the file that a text written to a path goes to. -/
def destination (d : Directory) (path : String) : Except Refusal String := do
  let (here, part) ← d.approach path
  if endsInSlash path then .error .isFolder
  else match ← d.target here part with
    | .folder => .error .isFolder
    | .vacant name => .ok name
    | .file name => .ok name

theorem write_eq (d : Directory) (path text : String) :
    d.write path text = (d.put · text) <$> d.destination path := by
  rw [write, destination]
  cases d.approach path with
  | error refusal => rfl
  | ok reached =>
    obtain ⟨here, part⟩ := reached
    simp only [ok_bind]
    split
    · rfl
    · cases d.target here part with
      | error refusal => rfl
      | ok target => cases target <;> rfl

theorem write_eq_ok {d e : Directory} {path text : String} :
    d.write path text = .ok e ↔ ∃ name, d.destination path = .ok name ∧ e = d.put name text := by
  rw [write_eq, map_eq_ok]
  exact exists_congr fun name => and_congr_right fun _ => eq_comm

theorem foldlM_enter_of_approach {d : Directory} {path part : String} {here : List String}
    (h : d.approach path = .ok (here, part)) :
    (parts path).dropLast.foldlM d.enter (start path) = .ok here ∧
    (parts path).getLast?.getD "." = part ∧
      ∀ e : Directory, (parts path).dropLast.foldlM e.enter (start path) = .ok here →
        e.approach path = .ok (here, part) := by
  rw [approach] at h
  split at h
  · contradiction
  · next hempty =>
    split at h
    · contradiction
    · next hnull =>
      split at h
      · contradiction
      · next hlong =>
        obtain ⟨there, hthere, hlast⟩ := bind_eq_ok.1 h
        obtain ⟨rfl, rfl⟩ := ok_pair_inj hlast
        refine ⟨hthere, rfl, fun e he => ?_⟩
        rw [approach, if_neg hempty, if_neg hnull, if_neg hlong, he]
        rfl

theorem enter_eq_ok {d : Directory} {here there : List String} {part : String} :
    d.enter here part = .ok there ↔ there = onward here part ∧ (part = "." ∨ part = ".." ∨
      part.utf8ByteSize ≤ longestPart ∧ d.hasFile there = false ∧ d.hasFolder there = true) := by
  rw [enter]
  grind

theorem target_eq_file {d : Directory} {here : List String} {part name : String} :
    d.target here part = .ok (.file name) ↔ part ≠ "." ∧ part ≠ ".." ∧
      part.utf8ByteSize ≤ longestPart ∧ join (onward here part) = name ∧
      d.hasFile (onward here part) = true := by
  rw [target]
  grind

theorem target_eq_vacant {d : Directory} {here : List String} {part name : String} :
    d.target here part = .ok (.vacant name) ↔ part ≠ "." ∧ part ≠ ".." ∧
      part.utf8ByteSize ≤ longestPart ∧ join (onward here part) = name ∧
      d.hasFile (onward here part) = false ∧ d.hasFolder (onward here part) = false := by
  rw [target]
  grind

theorem onward_ne_nil {part : String} (hdot : part ≠ ".") (hdots : part ≠ "..")
    (here : List String) :
    onward here part ≠ [] := by
  rw [onward, if_neg hdot, if_neg hdots]
  exact List.append_ne_nil_of_right_ne_nil here (List.cons_ne_nil part [])

theorem whole_foldlM_enter {d : Directory} {ps here there : List String} (hhere : Whole here)
    (hps : Whole ps) (h : ps.foldlM d.enter here = .ok there) : Whole there := by
  induction ps generalizing here with
  | nil =>
    obtain rfl := Except.ok.inj h
    exact hhere
  | cons p ps ih =>
    rw [List.foldlM_cons] at h
    obtain ⟨next, hnext, hrest⟩ := bind_eq_ok.1 h
    obtain ⟨hp, hps⟩ := List.forall_mem_cons.1 hps
    obtain ⟨rfl, -⟩ := enter_eq_ok.1 hnext
    exact ih (whole_onward hhere hp) hps hrest

theorem whole_of_approach {d : Directory} {path part : String} {here : List String}
    (h : d.approach path = .ok (here, part)) : Whole (onward here part) := by
  obtain ⟨hhere, rfl, -⟩ := foldlM_enter_of_approach h
  have hps : Whole (parts path).dropLast :=
    fun p hp => whole_parts path p (List.dropLast_subset _ hp)
  refine whole_onward (whole_foldlM_enter (whole_start path) hps hhere) ?_
  cases hlast : (parts path).getLast? with
  | none => exact (by decide : '/' ∉ ".".toList)
  | some part => exact whole_parts path part (List.mem_of_getLast? hlast)

/-- Where a write goes: to a file in the place of the path, which is there or can be made. -/
theorem destination_eq_ok {d : Directory} {path name : String} :
    d.destination path = .ok name ↔ ∃ here part, d.approach path = .ok (here, part) ∧
      endsInSlash path = false ∧
      (d.target here part = .ok (.vacant name) ∨ d.target here part = .ok (.file name)) := by
  rw [destination, bind_eq_ok, Prod.exists]
  refine exists_congr fun here => exists_congr fun part => and_congr_right fun _ => ?_
  dsimp only
  cases endsInSlash path with
  | true => simp
  | false =>
    cases d.target here part with
    | error refusal => simp
    | ok target => cases target <;> simp

theorem read_eq_ok {d : Directory} {path text : String} :
    d.read path = .ok text ↔ ∃ here part name, d.approach path = .ok (here, part) ∧
      endsInSlash path = false ∧ d.target here part = .ok (.file name) ∧
      Entries.get? d.files name = some text := by
  rw [read, bind_eq_ok, Prod.exists]
  refine exists_congr fun here => exists_congr fun part => ?_
  rw [exists_and_left]
  refine and_congr_right fun _ => ?_
  dsimp only
  cases d.target here part with
  | error refusal => simp
  | ok target =>
    cases target with
    | folder | vacant => simp
    | file name =>
      rw [ok_bind]
      dsimp only
      cases endsInSlash path with
      | true => simp
      | false => cases h : Entries.get? d.files name <;> simp [h]

/-! ## Reading back -/

/-- No folder that can be entered goes by this name. -/
def Folderless (d : Directory) (name : String) : Prop :=
  ∀ place, Whole place → place ≠ [] → join place = name → d.hasFile place = true ∨
    d.hasFolder place = false

theorem folderless_of_target {d : Directory} {here : List String} {part name : String}
    (hwhole : Whole (onward here part))
    (h : d.target here part = .ok (.vacant name) ∨ d.target here part = .ok (.file name)) :
    d.Folderless name := by
  intro place hplace hne hjoin
  rw [target_eq_vacant, target_eq_file] at h
  rcases h with ⟨hdot, hdots, -, hname, -, hfolder⟩ | ⟨hdot, hdots, -, hname, hfile⟩
  · obtain rfl :=
      join_inj hplace hwhole hne (onward_ne_nil hdot hdots here) (hjoin.trans hname.symm)
    exact .inr hfolder
  · obtain rfl :=
      join_inj hplace hwhole hne (onward_ne_nil hdot hdots here) (hjoin.trans hname.symm)
    exact .inl hfile

theorem enter_put {d : Directory} {name : String} (hname : d.Folderless name) (text : String)
    {here there : List String} {part : String} (hwhole : Whole there)
    (h : d.enter here part = .ok there) : (d.put name text).enter here part = .ok there := by
  rw [enter_eq_ok] at h ⊢
  obtain ⟨rfl, hdot | hdots | ⟨hshort, hfile, hfolder⟩⟩ := h
  · exact ⟨rfl, .inl hdot⟩
  · exact ⟨rfl, .inr (.inl hdots)⟩
  · by_cases hpart : part = "." ∨ part = ".."
    · exact ⟨rfl, hpart.imp_right .inl⟩
    · have hne : onward here part ≠ [] := onward_ne_nil (mt .inl hpart) (mt .inr hpart) here
      refine ⟨rfl, .inr (.inr ⟨hshort, ?_, hasFolder_put hfolder name text⟩)⟩
      rw [← Bool.not_eq_true, hasFile_put_iff, hfile, or_iff_right Bool.false_ne_true]
      intro hjoin
      rcases hname _ hwhole hne hjoin with hin | hout
      · rw [hfile] at hin
        contradiction
      · rw [hfolder] at hout
        contradiction

theorem foldlM_enter_put {d : Directory} {name : String} (hname : d.Folderless name) (text : String)
    {ps here there : List String} (hhere : Whole here) (hps : Whole ps)
    (h : ps.foldlM d.enter here = .ok there) :
    ps.foldlM (d.put name text).enter here = .ok there := by
  induction ps generalizing here with
  | nil => exact h
  | cons p ps ih =>
    rw [List.foldlM_cons] at h ⊢
    obtain ⟨next, hnext, hrest⟩ := bind_eq_ok.1 h
    obtain ⟨hp, hps⟩ := List.forall_mem_cons.1 hps
    have hwhole : Whole next := (enter_eq_ok.1 hnext).1 ▸ whole_onward hhere hp
    rw [enter_put hname text hwhole hnext, ok_bind]
    exact ih hwhole hps hrest

theorem approach_put {d : Directory} {name : String} (hname : d.Folderless name) (text : String)
    {path part : String} {here : List String} (h : d.approach path = .ok (here, part)) :
    (d.put name text).approach path = .ok (here, part) := by
  obtain ⟨hhere, -, halike⟩ := foldlM_enter_of_approach h
  have hps : Whole (parts path).dropLast :=
    fun p hp => whole_parts path p (List.dropLast_subset _ hp)
  exact halike _ (foldlM_enter_put hname text (whole_start path) hps hhere)

theorem folderless_of_destination {d : Directory} {path name : String}
    (h : d.destination path = .ok name) : d.Folderless name := by
  obtain ⟨here, part, happroach, -, htarget⟩ := destination_eq_ok.1 h
  exact folderless_of_target (whole_of_approach happroach) htarget

theorem read_of_write {d e : Directory} {path text : String} (h : d.write path text = .ok e) :
    e.read path = .ok text := by
  obtain ⟨name, hname, rfl⟩ := write_eq_ok.1 h
  obtain ⟨here, part, happroach, hslash, htarget⟩ := destination_eq_ok.1 hname
  have hreached := approach_put (folderless_of_destination hname) text happroach
  have hfile : (d.put name text).target here part = .ok (.file name) := by
    rw [target_eq_vacant, target_eq_file] at htarget
    rw [target_eq_file]
    rcases htarget with ⟨hdot, hdots, hshort, hjoin, -⟩ | ⟨hdot, hdots, hshort, hjoin, -⟩
    · exact ⟨hdot, hdots, hshort, hjoin, (hasFile_put_iff ..).2 (.inr hjoin)⟩
    · exact ⟨hdot, hdots, hshort, hjoin, (hasFile_put_iff ..).2 (.inr hjoin)⟩
  exact read_eq_ok.2 ⟨here, part, name, hreached, hslash, hfile, Entries.get?_put_self ..⟩

theorem read_of_write_of_ne {d e : Directory} {path other text old : String}
    (h : d.write path text = .ok e) (hne : d.destination other ≠ d.destination path)
    (hread : d.read other = .ok old) : e.read other = .ok old := by
  obtain ⟨name, hname, rfl⟩ := write_eq_ok.1 h
  obtain ⟨here, part, name', happroach, hslash, hfile, hget⟩ := read_eq_ok.1 hread
  have hname' : d.destination other = .ok name' :=
    destination_eq_ok.2 ⟨here, part, happroach, hslash, .inr hfile⟩
  have hnames : name' ≠ name := by
    rintro rfl
    exact hne (hname'.trans hname.symm)
  have hreached := approach_put (folderless_of_destination hname) text happroach
  obtain ⟨hdot, hdots, hshort, hjoin, hin⟩ := target_eq_file.1 hfile
  have hstays : (d.put name text).target here part = .ok (.file name') :=
    target_eq_file.2 ⟨hdot, hdots, hshort, hjoin, (hasFile_put_iff ..).2 (.inl hin)⟩
  refine read_eq_ok.2 ⟨here, part, name', hreached, hslash, hstays, ?_⟩
  rw [put, Entries.get?_put_of_ne hnames, hget]

/-- Two directories that differ at most in the file that a path leads to, which holds a text
afterwards. -/
structure ChangedAt (before : Directory) (path text : String) (after : Directory) : Prop where
  holds : after.read path = .ok text
  files : ∃ name, before.destination path = .ok name ∧
    ∀ other, other ≠ name → Entries.get? after.files other = Entries.get? before.files other
  paths : ∀ other old, before.destination other ≠ before.destination path →
    before.read other = .ok old → after.read other = .ok old
  folders : after.folders = before.folders

theorem changedAt_of_write {d e : Directory} {path text : String} (h : d.write path text = .ok e) :
    d.ChangedAt path text e where
  holds := read_of_write h
  files := by
    obtain ⟨name, hname, rfl⟩ := write_eq_ok.1 h
    exact ⟨name, hname, fun other hne => Entries.get?_put_of_ne hne ..⟩
  paths := fun _ _ hne hread => read_of_write_of_ne h hne hread
  folders := by
    obtain ⟨name, -, rfl⟩ := write_eq_ok.1 h
    rfl

theorem destination_congr {d e : Directory} (hkeys : Entries.keys e.files = Entries.keys d.files)
    (hfolders : e.folders = d.folders) : e.destination = d.destination := by
  have hfile : e.hasFile = d.hasFile := by
    funext place
    rw [Bool.eq_iff_iff, hasFile_iff, hasFile_iff, hkeys]
  have hfolder : e.hasFolder = d.hasFolder := by
    funext here
    rw [hasFolder_eq, hasFolder_eq, hkeys, hfolders]
  have henter : e.enter = d.enter := by
    funext here part
    rw [enter, enter, hfile, hfolder]
  have htarget : e.target = d.target := by
    funext here part
    rw [target, target, hfile, hfolder]
  funext path
  rw [destination, destination, approach, approach, henter, htarget]

theorem destination_of_overwritten {d e : Directory} {path text old : String}
    (hread : d.read path = .ok old) (h : d.write path text = .ok e) :
    e.destination = d.destination := by
  obtain ⟨name, hname, rfl⟩ := write_eq_ok.1 h
  obtain ⟨here, part, name', happroach, hslash, hfile, hget⟩ := read_eq_ok.1 hread
  have hname' : d.destination path = .ok name' :=
    destination_eq_ok.2 ⟨here, part, happroach, hslash, .inr hfile⟩
  obtain rfl : name' = name := Except.ok.inj (hname'.symm.trans hname)
  exact destination_congr (Entries.keys_put_of_mem (Entries.mem_keys_of_get? hget) text) rfl

end PromptChain.Directory
