/-
Finding a directory by its inode or file handle. A directory that moved is two nodes for a while, and
either index names the one that came last. When a re-read drops that one while the other stays, and no
subtree it grafts has the key, the directory is not found any more; in runs without such a re-read
every alive directory is.
-/
import StorageHarvester.Lib.Records
import StorageHarvester.Live.HandOver
import StorageHarvester.Live.Holders

namespace StorageHarvester

open Forest

/-! ## Keys on record -/

/-- The inodes of a tree's directories, with their nodes. -/
def inoRecords (t : DirTree) : List (Nat × Nat) := ((t.nodes.map DirNode.ino).zipIdx).map Prod.swap

section Records

variable {κ : Type} (keysOf : DirTree → List (Nat × κ)) (target : Target) (answers : Answers) (node : Nat)

/-- A new subdirectory comes with the keys of its walk. -/
def Merge.addRecords (m : Merge) (subdir : Subdir) (records : List (Nat × κ)) : List (Nat × κ) :=
  match walkNew target answers m.st.tree node subdir.name with
  | none => records
  | some p =>
    if m.st.tree.nodes.length + p.1.nodes.length ≤ target.treeMaxDirectories then
      records ++ (keysOf p.1).map fun e => (e.1 + m.st.tree.nodes.length, e.2)
    else records

end Records

/-- The handles on record after a re-read: those of grafted directories come on. -/
def relistRecorded (target : Target) (answers : Answers) (st : TreeState) (node : Nat) (recorded : List (Nat × Handle)) :
    List (Nat × Handle) :=
  if !(st.tree.node node).alive || (st.tree.node node).isSealed then recorded
  else match readListing target answers st node with
    | .error _ => recorded
    | .ok listing =>
      mergeNotes target answers node (Merge.addRecords DirTree.handles target answers node)
        ((st.tree.node node).children.length + listing.subdirs.length) (st.tree.node node).children listing.subdirs
        (startMerge st node listing) recorded

/-- Two trees of the same directories by inode, with the same handles left to index. -/
structure SameInos (t u : DirTree) : Prop where
  inos : u.nodes.map DirNode.ino = t.nodes.map DirNode.ino
  handles : u.handles = t.handles

section SameInos

variable {t u : DirTree}

theorem map_ino_modify (nodes : List DirNode) (i : Nat) {f : DirNode → DirNode} (hf : ∀ n, (f n).ino = n.ino) :
    (nodes.modify i f).map DirNode.ino = nodes.map DirNode.ino := by
  refine List.ext_getElem (by simp) fun j h1 h2 => ?_
  simp only [List.getElem_map, List.getElem_modify]
  split
  · exact hf _
  · rfl

theorem sameInos_modifyNode (t : DirTree) (i : Nat) {f : DirNode → DirNode} (hf : ∀ n, (f n).ino = n.ino) :
    SameInos t (t.modifyNode i f) := ⟨map_ino_modify t.nodes i hf, rfl⟩

theorem sameInos_frame : Frame SameInos where
  refl _ := ⟨rfl, rfl⟩
  trans h h' := ⟨h'.inos.trans h.inos, h'.handles.trans h.handles⟩
  figures t i _ hf := sameInos_modifyNode t i fun n => (congrArg DirNode.ino (hf n) : (DirNode.lasting _).ino = n.lasting.ino)
  relinked _ _ := ⟨rfl, rfl⟩
  clamped _ _ := ⟨rfl, rfl⟩

theorem sameInos_detach (t : DirTree) (child : Nat) : SameInos t (t.detach child).1 := by
  have hdead : ∀ (fuel : Nat) (stack : List Nat) (nodes : List DirNode),
      (DirTree.markDead fuel stack nodes).map DirNode.ino = nodes.map DirNode.ino := by
    intro fuel
    induction fuel with
    | zero => exact fun _ _ => rfl
    | succ fuel ih =>
      intro stack nodes
      cases stack with
      | nil => rfl
      | cons i stack =>
        rw [DirTree.markDead, ih]
        exact map_ino_modify nodes i fun _ => rfl
  unfold DirTree.detach
  cases (t.node child).parent with
  | none => exact ⟨hdead _ _ _, rfl⟩
  | some p =>
    exact ⟨(hdead _ _ _).trans (map_ino_modify t.nodes p (f := fun n => { n with children := n.children.filter (· ≠ child) }) fun _ => rfl), rfl⟩

theorem SameInos.records (h : SameInos t u) : inoRecords u = inoRecords t := by
  unfold inoRecords
  rw [h.inos]

theorem SameInos.length (h : SameInos t u) : u.nodes.length = t.nodes.length := by
  simpa using congrArg List.length h.inos

end SameInos

theorem mem_inoRecords {t : DirTree} {i ino : Nat} : (i, ino) ∈ inoRecords t ↔ i < t.nodes.length ∧ (t.node i).ino = ino := by
  unfold inoRecords
  rw [List.mem_map]
  constructor
  · rintro ⟨⟨x, j⟩, hm, he⟩
    cases he
    obtain ⟨hj, hx⟩ := List.mem_zipIdx' hm
    rw [List.length_map] at hj
    exact ⟨hj, by rw [hx, List.getElem_map, DirTree.node_eq_getElem hj]⟩
  · rintro ⟨hi, rfl⟩
    refine ⟨((t.node i).ino, i), List.mk_mem_zipIdx_iff_getElem?.2 ?_, rfl⟩
    rw [List.getElem?_map, List.getElem?_eq_getElem hi, DirTree.node_eq_getElem hi]
    rfl

/-- A graft adds the inodes of the grafted tree. -/
theorem inoRecords_graft (t : DirTree) (under : Nat) (other : DirTree) :
    inoRecords (t.graft under other).1 = inoRecords t ++ (inoRecords other).map fun e => (e.1 + t.nodes.length, e.2) := by
  have hsame : SameInos { t with nodes := t.nodes ++ other.nodes.map (DirTree.graftNode under t.nodes.length ((t.node under).depth + 1)) }
      { (t.graft under other).1 with handles := t.handles } := by
    have hattach : SameInos _ (DirTree.attach { t with
        nodes := t.nodes ++ other.nodes.map (DirTree.graftNode under t.nodes.length ((t.node under).depth + 1)) } under t.nodes.length) :=
      sameInos_modifyNode _ _ fun _ => rfl
    have htouch := sameInos_frame.trans hattach (sameInos_frame.touch _ under (other.node 0).newest)
    exact ⟨htouch.inos, rfl⟩
  have hrec := hsame.records
  have hinos : (other.nodes.map (DirTree.graftNode under t.nodes.length ((t.node under).depth + 1))).map DirNode.ino =
      other.nodes.map DirNode.ino := by
    rw [List.map_map]
    rfl
  have hshift : ((other.nodes.map DirNode.ino).zipIdx t.nodes.length).map Prod.swap =
      (inoRecords other).map fun e => (e.1 + t.nodes.length, e.2) := by
    unfold inoRecords
    rw [List.zipIdx_eq_map_add, List.map_map, List.map_map]
    exact List.map_congr_left fun e _ => Prod.ext (Nat.add_comm _ _) rfl
  show inoRecords { (t.graft under other).1 with handles := t.handles } = _
  rw [hrec, ← hshift]
  unfold inoRecords
  rw [List.map_append, hinos, List.zipIdx_append, List.map_append, List.length_map, Nat.zero_add]

theorem handles_graft (t : DirTree) (under : Nat) (other : DirTree) :
    (t.graft under other).1.handles = t.handles ++ other.handles.map fun e => (e.1 + t.nodes.length, e.2) := by
  have htouch := sameInos_frame.touch (DirTree.attach { t with
    nodes := t.nodes ++ other.nodes.map (DirTree.graftNode under t.nodes.length ((t.node under).depth + 1)) }
    under t.nodes.length) under (other.node 0).newest
  exact congrArg (· ++ _) htouch.handles

theorem sameInos_shareLinks (start : Nat) : ∀ (shared : List (Inode × List Nat)) (t : DirTree),
    SameInos t (shared.foldl (shareLink start) t)
  | [], t => sameInos_frame.refl t
  | e :: shared, t => by
    have hone : SameInos t (shareLink start t e) := by
      unfold shareLink
      split
      · exact ⟨rfl, rfl⟩
      · exact sameInos_frame.refl t
    rw [List.foldl_cons]
    exact sameInos_frame.trans hone (sameInos_shareLinks start shared _)

/-- A walked tree keeps its keys when it is made ready to be grafted. -/
theorem sameInos_walkNew {target : Target} {answers : Answers} {tree sub : DirTree} {parent : Nat} {name : Bytes}
    {shared : List (Inode × List Nat)} (h : walkNew target answers tree parent name = some (sub, shared)) :
    ∃ found, answers.walk (walkTarget target answers tree parent name) = some found ∧ SameInos found sub := by
  obtain ⟨found, hfound, rfl, -⟩ := walkNew_eq_some h
  have hnamed : SameInos found (found.renameRoot name) := sameInos_modifyNode found 0 fun _ => rfl
  exact ⟨found, hfound, sameInos_frame.trans hnamed (sameInos_frame.untakes _ _)⟩

/-! ## The indexes -/

theorem get_indexInos (t : DirTree) (start : Nat) (inos : Table Nat Nat) (ino : Nat) :
    (TreeState.indexInos t.nodes start inos).get ino = (Records.last ((inoRecords t).drop start) ino).or (inos.get ino) := by
  have hrec : inoRecords t = t.nodes.zipIdx.map fun e => (e.2, e.1.ino) := by
    unfold inoRecords
    rw [List.zipIdx_map, List.map_map]
    rfl
  rw [← Records.get_index, hrec, ← List.map_drop, List.foldl_map]
  rfl

/-- Either index names the directory its key was last recorded for. -/
structure Keyed (st : TreeState) (recorded : List (Nat × Handle)) : Prop where
  inos : ∀ ino, st.inos.get ino = Records.last (inoRecords st.tree) ino
  handles : ∀ handle, st.handles.get handle = Records.last recorded handle
  drained : st.tree.handles = []
  placed : ∀ e ∈ recorded, e.1 < st.tree.nodes.length

/-- Every walk records handles for its own directories. -/
def Answers.HandledWalks (answers : Answers) : Prop :=
  ∀ target tree, answers.walk target = some tree → ∀ e ∈ tree.handles, e.1 < tree.nodes.length

section Keyed

variable {target : Target} {answers : Answers} {node : Nat} {st : TreeState} {recorded : List (Nat × Handle)}

/-- New figures leave the indexes right. -/
theorem Keyed.retree (h : Keyed st recorded) {u : DirTree} (hu : SameInos st.tree u) : Keyed { st with tree := u } recorded := by
  refine ⟨fun ino => ?_, h.handles, hu.handles.trans h.drained, fun e he => ?_⟩
  · show st.inos.get ino = Records.last (inoRecords u) ino
    rw [hu.records]
    exact h.inos ino
  · show e.1 < u.nodes.length
    rw [hu.length]
    exact h.placed e he

/-- A graft's keys are indexed. -/
theorem Keyed.graft (h : Keyed st recorded) {other u : DirTree} (under : Nat) (hu : SameInos (st.tree.graft under other).1 u)
    (ho : ∀ e ∈ other.handles, e.1 < other.nodes.length) :
    Keyed (({ st with tree := u } : TreeState).indexNew st.tree.nodes.length)
      (recorded ++ other.handles.map fun e => (e.1 + st.tree.nodes.length, e.2)) := by
  have hlen : u.nodes.length = st.tree.nodes.length + other.nodes.length := hu.length.trans (DirTree.length_graft _ _ _)
  have hnew : u.handles = other.handles.map fun e => (e.1 + st.tree.nodes.length, e.2) := by
    rw [hu.handles, handles_graft, h.drained, List.nil_append]
  have hrec : inoRecords u = inoRecords st.tree ++ (inoRecords other).map fun e => (e.1 + st.tree.nodes.length, e.2) :=
    hu.records.trans (inoRecords_graft _ _ _)
  have hcount : (inoRecords st.tree).length = st.tree.nodes.length := by
    unfold inoRecords
    simp
  refine ⟨fun ino => ?_, fun handle => ?_, rfl, fun e he => ?_⟩
  · show (TreeState.indexInos u.nodes st.tree.nodes.length st.inos).get ino = Records.last (inoRecords u) ino
    rw [get_indexInos, hrec, Records.last_append, h.inos, ← hcount, List.drop_left]
  · show (u.handles.foldl (fun handles e => handles.put e.2 e.1) st.handles).get handle = _
    rw [Records.get_index, hnew, Records.last_append, h.handles]
  · show e.1 < u.nodes.length
    rw [hlen]
    rcases List.mem_append.1 he with he | he
    · have := h.placed e he
      omega
    · obtain ⟨x, hx, rfl⟩ := List.mem_map.1 he
      have := ho x hx
      show x.1 + _ < _
      omega

theorem keyed_add (hw : answers.HandledWalks) (m : Merge) (subdir : Subdir) (recorded : List (Nat × Handle))
    (h : Keyed m.st recorded) : Keyed (m.add target answers node subdir).st
      (m.addRecords DirTree.handles target answers node subdir recorded) := by
  unfold Merge.add Merge.addRecords
  cases hwalk : walkNew target answers m.st.tree node subdir.name with
  | none => exact h
  | some p =>
    obtain ⟨sub, shared⟩ := p
    obtain ⟨found, hfound, hsame⟩ := sameInos_walkNew hwalk
    dsimp only
    split
    · have hu := sameInos_shareLinks m.st.tree.nodes.length shared (m.st.tree.graft node sub).1
      have hg := h.graft node hu fun e he => by
        rw [hsame.length]
        exact hw _ _ hfound e (hsame.handles ▸ he)
      exact ⟨hg.inos, hg.handles, hg.drained, hg.placed⟩
    · have hsealed := h.retree (sameInos_modifyNode m.st.tree node (f := fun n => { n with isSealed := true }) fun _ => rfl)
      exact ⟨hsealed.inos, hsealed.handles, hsealed.drained, hsealed.placed⟩

/-- When the subdirectories are merged the indexes hold what was recorded on the way. -/
theorem keyed_merge (hw : answers.HandledWalks) {m : Merge} (h : Keyed m.st recorded) (fuel : Nat) (children : List Nat)
    (subdirs : List Subdir) :
    Keyed (mergeChildren target answers node fuel children subdirs m).st
      (mergeNotes target answers node (Merge.addRecords DirTree.handles target answers node) fuel children subdirs m recorded) :=
  mergeNotes_rule (P := fun m recorded => Keyed m.st recorded)
    (fun m child _ _ h => h.retree (sameInos_modifyNode m.st.tree child fun _ => rfl))
    (fun m child _ h => h.retree (sameInos_detach m.st.tree child))
    (fun m subdir _ h => keyed_add hw m subdir _ h) fuel children subdirs m recorded h

end Keyed

/-! ## What a merge drops and grafts -/

section Run

variable (target : Target) (answers : Answers) (node : Nat) (children : List Nat) (subdirs : List Subdir) (m : Merge)

/-- A child the rest of the merge drops. -/
def MergeDrops (child : Nat) : Prop :=
  ∃ (children' : List Nat) (subdirs' : List Subdir) (m' : Merge),
    MergeRun target answers node children subdirs m (child :: children') subdirs' m' ∧
      ∀ subdir ∈ subdirs'.head?, childOrder answers m'.st child subdir = .lt

/-- A subtree the rest of the merge grafts, as its walk found it. -/
def MergeGrafts (found : DirTree) : Prop :=
  ∃ (children' : List Nat) (subdir : Subdir) (subdirs' : List Subdir) (m' : Merge),
    MergeRun target answers node children subdirs m children' (subdir :: subdirs') m' ∧
      (∀ child ∈ children'.head?, childOrder answers m'.st child subdir = .gt) ∧
      answers.walk (walkTarget target answers m'.st.tree node subdir.name) = some found ∧
      m'.st.tree.nodes.length + found.nodes.length ≤ target.treeMaxDirectories

end Run

section Steps

variable {target : Target} {answers : Answers} {node : Nat} {children : List Nat} {subdirs : List Subdir} {m : Merge}
  {child c : Nat} {subdir : Subdir} {found : DirTree}

theorem mergeDrops_keep (ho : childOrder answers m.st child subdir = .eq) :
    MergeDrops target answers node (child :: children) (subdir :: subdirs) m c ↔
      MergeDrops target answers node children subdirs (m.keep child subdir) c := by
  constructor
  · rintro ⟨_, _, _, hr, hlt⟩
    cases hr with
    | refl => cases ho.symm.trans (hlt subdir rfl)
    | keep _ hr => exact ⟨_, _, _, hr, hlt⟩
    | drop ho' _ => cases ho.symm.trans (ho' subdir rfl)
    | add ho' _ => cases ho.symm.trans (ho' child rfl)
  · rintro ⟨_, _, _, hr, hlt⟩
    exact ⟨_, _, _, .keep ho hr, hlt⟩

theorem mergeDrops_drop (ho : ∀ subdir ∈ subdirs.head?, childOrder answers m.st child subdir = .lt) :
    MergeDrops target answers node (child :: children) subdirs m c ↔
      c = child ∨ MergeDrops target answers node children subdirs (m.drop child) c := by
  constructor
  · rintro ⟨_, _, _, hr, hlt⟩
    cases hr with
    | refl => exact .inl rfl
    | keep ho' _ => cases ho'.symm.trans (ho _ rfl)
    | drop _ hr => exact .inr ⟨_, _, _, hr, hlt⟩
    | add ho' _ => cases (ho' child rfl).symm.trans (ho _ rfl)
  · rintro (rfl | ⟨_, _, _, hr, hlt⟩)
    · exact ⟨_, _, _, .refl, ho⟩
    · exact ⟨_, _, _, .drop ho hr, hlt⟩

theorem mergeDrops_add (ho : ∀ child ∈ children.head?, childOrder answers m.st child subdir = .gt) :
    MergeDrops target answers node children (subdir :: subdirs) m c ↔
      MergeDrops target answers node children subdirs (m.add target answers node subdir) c := by
  constructor
  · rintro ⟨_, _, _, hr, hlt⟩
    cases hr with
    | refl => cases (ho c rfl).symm.trans (hlt subdir rfl)
    | keep ho' _ => cases ho'.symm.trans (ho _ rfl)
    | drop ho' _ => cases (ho' subdir rfl).symm.trans (ho _ rfl)
    | add _ hr => exact ⟨_, _, _, hr, hlt⟩
  · rintro ⟨_, _, _, hr, hlt⟩
    exact ⟨_, _, _, .add ho hr, hlt⟩

theorem mergeGrafts_keep (ho : childOrder answers m.st child subdir = .eq) :
    MergeGrafts target answers node (child :: children) (subdir :: subdirs) m found ↔
      MergeGrafts target answers node children subdirs (m.keep child subdir) found := by
  constructor
  · rintro ⟨_, _, _, _, hr, hgt, hfound⟩
    cases hr with
    | refl => cases ho.symm.trans (hgt child rfl)
    | keep _ hr => exact ⟨_, _, _, _, hr, hgt, hfound⟩
    | drop ho' _ => cases ho.symm.trans (ho' subdir rfl)
    | add ho' _ => cases ho.symm.trans (ho' child rfl)
  · rintro ⟨_, _, _, _, hr, hgt, hfound⟩
    exact ⟨_, _, _, _, .keep ho hr, hgt, hfound⟩

theorem mergeGrafts_drop (ho : ∀ subdir ∈ subdirs.head?, childOrder answers m.st child subdir = .lt) :
    MergeGrafts target answers node (child :: children) subdirs m found ↔
      MergeGrafts target answers node children subdirs (m.drop child) found := by
  constructor
  · rintro ⟨_, _, _, _, hr, hgt, hfound⟩
    cases hr with
    | refl => cases (hgt child rfl).symm.trans (ho _ rfl)
    | keep ho' _ => cases ho'.symm.trans (ho _ rfl)
    | drop _ hr => exact ⟨_, _, _, _, hr, hgt, hfound⟩
    | add ho' _ => cases (ho' child rfl).symm.trans (ho _ rfl)
  · rintro ⟨_, _, _, _, hr, hgt, hfound⟩
    exact ⟨_, _, _, _, .drop ho hr, hgt, hfound⟩

theorem mergeGrafts_add (ho : ∀ child ∈ children.head?, childOrder answers m.st child subdir = .gt) :
    MergeGrafts target answers node children (subdir :: subdirs) m found ↔
      (answers.walk (walkTarget target answers m.st.tree node subdir.name) = some found ∧
          m.st.tree.nodes.length + found.nodes.length ≤ target.treeMaxDirectories) ∨
        MergeGrafts target answers node children subdirs (m.add target answers node subdir) found := by
  constructor
  · rintro ⟨_, _, _, _, hr, hgt, hfound⟩
    cases hr with
    | refl => exact .inl hfound
    | keep ho' _ => cases ho'.symm.trans (ho _ rfl)
    | drop ho' _ => cases (ho _ rfl).symm.trans (ho' subdir rfl)
    | add _ hr => exact .inr ⟨_, _, _, _, hr, hgt, hfound⟩
  · rintro (hfound | ⟨_, _, _, _, hr, hgt, hfound⟩)
    · exact ⟨_, _, _, _, .refl, ho, hfound⟩
    · exact ⟨_, _, _, _, .add ho hr, hgt, hfound⟩

theorem length_add_le (target : Target) (answers : Answers) (node : Nat) (m : Merge) (subdir : Subdir) :
    m.st.tree.nodes.length ≤ (m.add target answers node subdir).st.tree.nodes.length := by
  unfold Merge.add
  split
  · exact le_rfl
  · dsimp only
    split
    · show _ ≤ (List.foldl _ _ _ : DirTree).nodes.length
      rw [nodes_shareLinks, DirTree.length_graft]
      exact Nat.le_add_right _ _
    · exact (DirTree.length_modifyNode _ _ _).ge

/-- A new subdirectory changes neither the fate nor the parent of a directory that is there. -/
theorem old_add (hw : answers.FreshWalks) {all : List Subdir} (hm : Merging node all children (subdir :: subdirs) m)
    (hlt : ∀ c ∈ children, compare subdir.name (m.st.tree.node c).name = .lt) :
    ∀ i < m.st.tree.nodes.length, ((m.add target answers node subdir).st.tree.node i).alive = (m.st.tree.node i).alive ∧
      (m.add target answers node subdir).st.tree.parentOf i = m.st.tree.parentOf i := by
  rcases add_cases target answers node m subdir with he | ⟨sub, shared, hsub, -, -, he | ⟨t, rfl, he⟩⟩
  · rw [he]
    exact fun i _ => ⟨rfl, rfl⟩
  · have hs := DirTree.sameShape_modifyNode m.st.tree node (f := fun n => { n with isSealed := true }) fun _ => rfl
    rw [he]
    exact fun i _ => ⟨hs.alive i, hs.parent i⟩
  · have hwk := walkNew_walked hw hsub
    have hfresh := hm.fresh hlt
    rw [← hwk.root] at hfresh
    have g := hm.shape.graft_spec hm.alive hwk.shape.pos hfresh
    have hnodes : (m.add target answers node subdir).st.tree.nodes = (m.st.tree.graft node sub).1.nodes := by
      rw [he]
      exact nodes_shareLinks _ _ _
    have hs := sameShape_of_nodes hnodes
    exact fun i hi => ⟨(hs.alive i).trans (g.alive_old hi), (hs.parent i).trans (g.parent_old hi)⟩

/-- A directory that is there when the rest of the merge begins is there at its end unless it is below a
child that is dropped. -/
theorem alive_mergeRun (hw : answers.FreshWalks) {all : List Subdir} {mEnd : Merge}
    (hr : MergeRun target answers node children subdirs m [] [] mEnd) (hm : Merging node all children subdirs m) {i : Nat}
    (hi : i < m.st.tree.nodes.length) : (mEnd.st.tree.node i).alive = true ↔ (m.st.tree.node i).alive = true ∧
      ∀ c, MergeDrops target answers node children subdirs m c → ¬Above m.st.tree.parentOf c i := by
  generalize hc : ([] : List Nat) = children' at hr
  generalize hs : ([] : List Subdir) = subdirs' at hr
  induction hr with
  | @refl children subdirs m =>
    subst hc hs
    refine ⟨fun ha => ⟨ha, ?_⟩, And.left⟩
    rintro c ⟨_, _, _, hr, -⟩
    cases hr
  | @keep child children _ subdir subdirs _ m _ ho hr ih =>
    have hk := sameShape_keep m child subdir
    rw [ih (hm.keep (childOrder_eq ho).1) (by rw [hk.length]; exact hi) hc hs, hk.alive, hk.parentOf]
    simp only [mergeDrops_keep ho]
  | @drop child children _ subdirs _ m _ ho hr ih =>
    obtain ⟨ha, hp, -, -⟩ := hm.child
    have hlen : (m.drop child).st.tree.nodes.length = m.st.tree.nodes.length := DirTree.length_detach _ _
    rw [ih hm.drop (by rw [hlen]; exact hi) hc hs, tree_drop, hm.shape.alive_detach ha hp, hm.shape.parentOf_detach ha hp]
    simp only [mergeDrops_drop ho, forall_eq_or_imp, and_assoc]
  | @add children _ subdir subdirs _ m _ ho hr ih =>
    have hmadd : Merging node all children subdirs (m.add target answers node subdir) := hm.add hw (hm.ahead ho)
    have hle := length_add_le target answers node m subdir
    have hold := @old_add target _ _ _ _ _ _ hw _ hm (hm.ahead ho)
    have habove : ∀ c, Above (m.add target answers node subdir).st.tree.parentOf c i ↔ Above m.st.tree.parentOf c i := fun c =>
      ⟨fun h => h.congr hmadd.shape.down fun j hj => ((hold j (hj.trans_lt hi)).2).symm,
        fun h => h.congr hm.shape.down fun j hj => (hold j (hj.trans_lt hi)).2⟩
    rw [ih hmadd (hi.trans_le hle) hc hs, (hold i hi).1]
    simp only [mergeDrops_add ho, habove]

/-- The rest of the merge adds to the records the keys of what it grafts. -/
def AddsKeys {κ : Type} (keysOf : DirTree → List (Nat × κ)) (target : Target) (answers : Answers) (node : Nat) (children : List Nat)
    (subdirs : List Subdir) (m : Merge) (records result : List (Nat × κ)) : Prop :=
  ∃ added, result = records ++ added ∧ (∀ e ∈ added, m.st.tree.nodes.length ≤ e.1) ∧
    ∀ key, (∃ e ∈ added, e.2 = key) ↔ ∃ found, MergeGrafts target answers node children subdirs m found ∧ ∃ e ∈ keysOf found, e.2 = key

theorem addsKeys_add {κ : Type} {keysOf : DirTree → List (Nat × κ)} (hsame : ∀ t u, SameInos t u → keysOf u = keysOf t)
    {records result : List (Nat × κ)} (ho : ∀ child ∈ children.head?, childOrder answers m.st child subdir = .gt)
    (h : AddsKeys keysOf target answers node children subdirs (m.add target answers node subdir)
      (m.addRecords keysOf target answers node subdir records) result) :
    AddsKeys keysOf target answers node children (subdir :: subdirs) m records result := by
  obtain ⟨added, rfl, hbelow, hkeys⟩ := h
  have hlen : m.st.tree.nodes.length ≤ (m.add target answers node subdir).st.tree.nodes.length :=
    length_add_le target answers node m subdir
  unfold AddsKeys
  simp only [mergeGrafts_add ho]
  unfold Merge.addRecords
  cases hwalk : walkNew target answers m.st.tree node subdir.name with
  | none =>
    have hnone : answers.walk (walkTarget target answers m.st.tree node subdir.name) = none := by
      unfold walkNew at hwalk
      split at hwalk
      · assumption
      · cases hwalk
    refine ⟨added, rfl, fun e he => hlen.trans (hbelow e he), fun key => (hkeys key).trans ?_⟩
    refine exists_congr fun found => and_congr_left fun _ => (or_iff_right ?_).symm
    rw [hnone]
    exact fun he => by cases he.1
  | some p =>
    obtain ⟨found, hfound, hkept⟩ := sameInos_walkNew hwalk
    dsimp only
    split
    · rename_i hfits
      refine ⟨(keysOf p.1).map (fun e => (e.1 + m.st.tree.nodes.length, e.2)) ++ added, List.append_assoc _ _ _, fun e he => ?_,
        fun key => ?_⟩
      · rcases List.mem_append.1 he with he | he
        · obtain ⟨x, -, rfl⟩ := List.mem_map.1 he
          exact Nat.le_add_left _ _
        · exact hlen.trans (hbelow e he)
      · simp only [hfound, Option.some.injEq]
        constructor
        · rintro ⟨e, he, rfl⟩
          rcases List.mem_append.1 he with he | he
          · obtain ⟨x, hx, rfl⟩ := List.mem_map.1 he
            exact ⟨found, .inl ⟨rfl, by rw [← hkept.length]; exact hfits⟩, x, hsame _ _ hkept ▸ hx, rfl⟩
          · obtain ⟨found', hgraft, x, hx, hkey⟩ := (hkeys e.2).1 ⟨e, he, rfl⟩
            exact ⟨found', .inr hgraft, x, hx, hkey⟩
        · rintro ⟨found', ⟨rfl, -⟩ | hgraft, x, hx, rfl⟩
          · exact ⟨_, List.mem_append_left _ (List.mem_map.2 ⟨x, (hsame _ _ hkept).symm ▸ hx, rfl⟩), rfl⟩
          · obtain ⟨e, he, hkey⟩ := (hkeys x.2).2 ⟨found', hgraft, x, hx, rfl⟩
            exact ⟨e, List.mem_append_right _ he, hkey⟩
    · rename_i hfull
      refine ⟨added, rfl, fun e he => hlen.trans (hbelow e he), fun key => (hkeys key).trans ?_⟩
      refine exists_congr fun found' => and_congr_left fun _ => (or_iff_right ?_).symm
      rw [hfound, Option.some.injEq]
      rintro ⟨rfl, hfits⟩
      exact hfull (by rw [hkept.length]; exact hfits)

/-- The keys a merge records are those of the subtrees it grafts. -/
theorem addsKeys_mergeNotes {κ : Type} {keysOf : DirTree → List (Nat × κ)} (hsame : ∀ t u, SameInos t u → keysOf u = keysOf t) :
    ∀ (fuel : Nat) (children : List Nat) (subdirs : List Subdir) (m : Merge) (records : List (Nat × κ)),
      children.length + subdirs.length ≤ fuel → AddsKeys keysOf target answers node children subdirs m records
        (mergeNotes target answers node (Merge.addRecords keysOf target answers node) fuel children subdirs m records)
  | 0, children, subdirs, m, records, hl => by
    obtain rfl : children = [] := List.length_eq_zero_iff.1 (by omega)
    obtain rfl : subdirs = [] := List.length_eq_zero_iff.1 (by omega)
    refine ⟨[], (List.append_nil _).symm, fun e he => absurd he List.not_mem_nil, fun key => ⟨?_, ?_⟩⟩
    · rintro ⟨e, he, -⟩
      exact absurd he List.not_mem_nil
    · rintro ⟨found, ⟨_, _, _, _, hr, -⟩, -⟩
      cases hr
  | fuel + 1, [], [], m, records, hl => addsKeys_mergeNotes hsame 0 [] [] m records (Nat.zero_le _)
  | fuel + 1, child :: children, [], m, records, hl => by
    have ho : ∀ subdir ∈ ([] : List Subdir).head?, childOrder answers m.st child subdir = .lt := fun _ h => by cases h
    have hlen : (m.drop child).st.tree.nodes.length = m.st.tree.nodes.length := DirTree.length_detach _ _
    unfold AddsKeys
    simp only [mergeGrafts_drop ho, ← hlen]
    exact addsKeys_mergeNotes hsame fuel children [] (m.drop child) records (by simpa using hl)
  | fuel + 1, [], subdir :: subdirs, m, records, hl =>
    addsKeys_add hsame (fun _ h => by cases h)
      (addsKeys_mergeNotes hsame fuel [] subdirs (m.add target answers node subdir) _ (by simpa using hl))
  | fuel + 1, child :: children, subdir :: subdirs, m, records, hl => by
    simp only [List.length_cons] at hl
    rw [mergeNotes]
    cases ho : childOrder answers m.st child subdir with
    | eq =>
      have hlen := (sameShape_keep m child subdir).length
      unfold AddsKeys
      simp only [mergeGrafts_keep ho, ← hlen]
      exact addsKeys_mergeNotes hsame fuel children subdirs (m.keep child subdir) records (by omega)
    | lt =>
      have ho' : ∀ s ∈ (subdir :: subdirs).head?, childOrder answers m.st child s = .lt := fun s hs => by
        cases hs
        exact ho
      have hlen : (m.drop child).st.tree.nodes.length = m.st.tree.nodes.length := DirTree.length_detach _ _
      unfold AddsKeys
      simp only [mergeGrafts_drop ho', ← hlen]
      exact addsKeys_mergeNotes hsame fuel children (subdir :: subdirs) (m.drop child) records (by simp only [List.length_cons]; omega)
    | gt =>
      refine addsKeys_add hsame (fun c hc => ?_) (addsKeys_mergeNotes hsame fuel (child :: children) subdirs
        (m.add target answers node subdir) _ (by simp only [List.length_cons]; omega))
      cases hc
      exact ho

end Steps

/-! ## The re-read -/

/-- A child the re-read drops. -/
def Drops (target : Target) (answers : Answers) (st : TreeState) (node : Nat) (listing : Listing) (child : Nat) : Prop :=
  MergeDrops target answers node (st.tree.node node).children listing.subdirs (startMerge st node listing) child

/-- An alive directory below no child the re-read drops. -/
def Stays (target : Target) (answers : Answers) (st : TreeState) (node : Nat) (listing : Listing) (i : Nat) : Prop :=
  (st.tree.node i).alive = true ∧ ∀ child, Drops target answers st node listing child → ¬Above st.tree.parentOf child i

/-- Where a directory stays, the one its key is indexed under stays, or a grafted subtree has the key. -/
structure KeepsKeys (target : Target) (answers : Answers) (st : TreeState) (recorded : List (Nat × Handle)) (node : Nat) : Prop where
  inos : ∀ listing, Relists target answers st node listing → ∀ dir, Stays target answers st node listing dir →
    (∃ n, st.inos.get (st.tree.node dir).ino = some n ∧ Stays target answers st node listing n) ∨
      ∃ found, Grafts target answers st node listing found ∧
        ∃ k < found.nodes.length, (found.node k).ino = (st.tree.node dir).ino
  handles : ∀ listing, Relists target answers st node listing → ∀ dir handle, (dir, handle) ∈ recorded →
    Stays target answers st node listing dir →
      (∃ n, st.handles.get handle = some n ∧ Stays target answers st node listing n) ∨
        ∃ found, Grafts target answers st node listing found ∧ ∃ k, (k, handle) ∈ found.handles

/-- Every alive directory is found by its inode, and by its handle if that was recorded: the lookup comes
back with an alive directory of the same key. -/
structure Resolves (st : TreeState) (recorded : List (Nat × Handle)) : Prop where
  inos : ∀ dir, (st.tree.node dir).alive = true → ∃ n, st.resolve (.ino (st.tree.node dir).ino) = some n ∧
    (st.tree.node n).alive = true ∧ (st.tree.node n).ino = (st.tree.node dir).ino
  handles : ∀ dir handle, (dir, handle) ∈ recorded → (st.tree.node dir).alive = true →
    ∃ n, st.resolve (.handle handle) = some n ∧ (st.tree.node n).alive = true ∧ (n, handle) ∈ recorded

section Relist

variable {target : Target} {answers : Answers} {st : TreeState} {node : Nat} {listing : Listing} {recorded : List (Nat × Handle)}

theorem resolves_iff (h : Keyed st recorded) : Resolves st recorded ↔
    Records.Found (fun i => (st.tree.node i).alive = true) (inoRecords st.tree) ∧
      Records.Found (fun i => (st.tree.node i).alive = true) recorded := by
  have hino : ∀ ino n, st.resolve (.ino ino) = some n ↔
      Records.last (inoRecords st.tree) ino = some n ∧ (st.tree.node n).alive = true := by
    intro ino n
    unfold TreeState.resolve
    dsimp only
    rw [Option.filter_eq_some_iff, h.inos]
  have hhandle : ∀ handle n, st.resolve (.handle handle) = some n ↔
      Records.last recorded handle = some n ∧ (st.tree.node n).alive = true := by
    intro handle n
    unfold TreeState.resolve
    dsimp only
    rw [Option.filter_eq_some_iff, h.handles]
  constructor
  · intro hr
    refine ⟨?_, ?_⟩
    · rintro ⟨i, ino⟩ he ha
      obtain ⟨-, rfl⟩ := mem_inoRecords.1 he
      obtain ⟨n, hn, -, -⟩ := hr.inos i ha
      exact ⟨n, (hino _ n).1 hn⟩
    · rintro ⟨i, handle⟩ he ha
      obtain ⟨n, hn, -, -⟩ := hr.handles i handle he ha
      exact ⟨n, (hhandle _ n).1 hn⟩
  · rintro ⟨hi, hh⟩
    refine ⟨fun dir ha => ?_, fun dir handle hm ha => ?_⟩
    · obtain ⟨n, hn, hlive⟩ := hi _ (mem_inoRecords.2 ⟨DirTree.lt_of_alive ha, rfl⟩) ha
      exact ⟨n, (hino _ n).2 ⟨hn, hlive⟩, hlive, (mem_inoRecords.1 (Records.mem_of_last hn)).2⟩
    · obtain ⟨n, hn, hlive⟩ := hh _ hm ha
      exact ⟨n, (hhandle _ n).2 ⟨hn, hlive⟩, hlive, Records.mem_of_last hn⟩

theorem Walk.CountScan.handles_lt {host : Host} {target : Target} {hash : Bytes → Nat} {t : DirTree} {counted : Table Inode (Nat × Link)}
    (h : Walk.CountScan host target hash t counted) : ∀ e ∈ t.handles, e.1 < t.nodes.length := by
  obtain ⟨w, n, b, data, root, hb⟩ := h.bag
  obtain ⟨u, hu, rfl⟩ := Option.map_eq_some_iff.1 hb.tree
  unfold buildTree at hu
  split at hu
  · cases hu
  · cases hu
    intro e he
    obtain ⟨x, hx, hhandle⟩ := List.mem_filterMap.1 he
    obtain ⟨handle, -, rfl⟩ := Option.map_eq_some_iff.1 hhandle
    simpa using (List.mem_zipIdx' hx).1

theorem Answers.Sound.handled (h : answers.Sound) : answers.HandledWalks := by
  intro target tree he
  obtain ⟨host, hash, counted, -, hscan⟩ := h.scans target tree he
  exact hscan.handles_lt

/-- The inodes on record when a merge is over are the tree's. -/
theorem inos_merge (m : Merge) (fuel : Nat) (children : List Nat) (subdirs : List Subdir) :
    mergeNotes target answers node (Merge.addRecords inoRecords target answers node) fuel children subdirs m (inoRecords m.st.tree) =
      inoRecords (mergeChildren target answers node fuel children subdirs m).st.tree := by
  refine mergeNotes_rule (P := fun m records => records = inoRecords m.st.tree) ?_ ?_ ?_ fuel children subdirs m _ rfl
  · rintro m child subdir _ rfl
    exact (sameInos_modifyNode m.st.tree child (f := fun n =>
      { n with ownBlocks := subdir.blocks, ownApparent := subdir.apparent }) fun _ => rfl).records.symm
  · rintro m child _ rfl
    exact (sameInos_detach m.st.tree child).records.symm
  · rintro m subdir _ rfl
    unfold Merge.add Merge.addRecords
    cases hwalk : walkNew target answers m.st.tree node subdir.name with
    | none => rfl
    | some p =>
      dsimp only
      split
      · have hu := sameInos_shareLinks m.st.tree.nodes.length p.2 (m.st.tree.graft node p.1).1
        exact (hu.records.trans (inoRecords_graft _ _ _)).symm
      · exact (sameInos_modifyNode m.st.tree node (f := fun n => { n with isSealed := true }) fun _ => rfl).records.symm

/-- What a re-read makes of the directories and their keys. -/
structure Rekeyed (target : Target) (answers : Answers) (st : TreeState) (node : Nat) (listing : Listing)
    (recorded : List (Nat × Handle)) (inos : List (Nat × Nat)) (handles : List (Nat × Handle)) : Prop where
  keyed : Keyed (relist target answers st node).1 (recorded ++ handles)
  records : inoRecords (relist target answers st node).1.tree = inoRecords st.tree ++ inos
  old : ∀ i < st.tree.nodes.length,
    ((relist target answers st node).1.tree.node i).alive = true ↔ Stays target answers st node listing i
  newInos : ∀ e ∈ inos, ((relist target answers st node).1.tree.node e.1).alive = true
  newHandles : ∀ e ∈ handles, ((relist target answers st node).1.tree.node e.1).alive = true
  inosOf : ∀ ino, (∃ e ∈ inos, e.2 = ino) ↔
    ∃ found, Grafts target answers st node listing found ∧ ∃ e ∈ inoRecords found, e.2 = ino
  handlesOf : ∀ handle, (∃ e ∈ handles, e.2 = handle) ↔
    ∃ found, Grafts target answers st node listing found ∧ ∃ e ∈ found.handles, e.2 = handle

theorem rekeyed_relist (hs : answers.Sound) (ho : Owned st.tree) (hk : Keyed st recorded)
    (hl : Relists target answers st node listing) :
    ∃ inos handles, relistRecorded target answers st node recorded = recorded ++ handles ∧
      Rekeyed target answers st node listing recorded inos handles := by
  have hrelist := hl.relist_eq
  obtain ⟨ha, hsealed, hread⟩ := hl
  have hstart := merging_start hs.entries ho.shape ho.names ha hread
  have hrun := mergeRun_merged target answers st node listing
  have hfinal : SameInos (merged target answers st node listing).st.tree (applyAll target answers st node listing).1.tree :=
    sameInos_frame.applyAll target answers st node listing
  have halive : ∀ i, ((applyAll target answers st node listing).1.tree.node i).alive =
      ((merged target answers st node listing).st.tree.node i).alive := fun i =>
    (alive_applyAll target answers st node listing i).trans ((sameLinks_settledTree target answers st node listing).shape.alive i)
  have hnew : Newcomers node st.tree.nodes.length [] (merged target answers st node listing) :=
    (mergeRun_rule hs.walks (fun children _ m => Newcomers node st.tree.nodes.length children m)
      (fun hm hstep hnew => newcomers_step hs.walks hm hstep hnew) hrun hstart (newcomers_start listing ho.shape ha)).2
  obtain ⟨inos, hinos, hbelow, hinosOf⟩ := @addsKeys_mergeNotes target answers node _ _
    (fun _ _ h => SameInos.records h) ((st.tree.node node).children.length + listing.subdirs.length) (st.tree.node node).children
    listing.subdirs (startMerge st node listing) (inoRecords st.tree) le_rfl
  obtain ⟨handles, hhandles, hbelow', hhandlesOf⟩ := @addsKeys_mergeNotes target answers node _ _
    (fun _ _ h => SameInos.handles h) ((st.tree.node node).children.length + listing.subdirs.length) (st.tree.node node).children
    listing.subdirs (startMerge st node listing) recorded le_rfl
  have hsplit : inoRecords (relist target answers st node).1.tree = inoRecords st.tree ++ inos := by
    rw [hrelist, hfinal.records, ← hinos]
    exact (inos_merge (startMerge st node listing) _ _ _).symm
  have hkeyed : Keyed (relist target answers st node).1 (recorded ++ handles) := by
    have hmerged := @keyed_merge target answers node recorded hs.handled (startMerge st node listing)
      ⟨hk.inos, hk.handles, hk.drained, hk.placed⟩ ((st.tree.node node).children.length + listing.subdirs.length)
      (st.tree.node node).children listing.subdirs
    rw [hhandles] at hmerged
    rw [hrelist]
    exact hmerged.retree hfinal
  have hlen : ∀ i, i < (relist target answers st node).1.tree.nodes.length → st.tree.nodes.length ≤ i →
      ((relist target answers st node).1.tree.node i).alive = true := by
    rw [hrelist]
    intro i hi hge
    rw [halive]
    rw [hfinal.length] at hi
    exact (hnew.new i hge hi).1
  refine ⟨inos, handles, ?_, hkeyed, hsplit, fun i hi => ?_, fun e he => ?_, fun e he => ?_, hinosOf, hhandlesOf⟩
  · unfold relistRecorded
    rw [ha, hsealed, hread]
    exact hhandles
  -- an older node died only below a dropped child; a node the pass adds is alive, so none of its keys is stale
  · rw [hrelist, halive]
    exact alive_mergeRun hs.walks hrun hstart hi
  · refine hlen e.1 ?_ (hbelow e he)
    have hmem : e ∈ inoRecords (relist target answers st node).1.tree := by
      rw [hsplit]
      exact List.mem_append_right _ he
    exact (mem_inoRecords.1 hmem).1
  · exact hlen e.1 (hkeyed.placed e (List.mem_append_right _ he)) (hbelow' e he)

/-- A directory that is not read again brings no handles. -/
theorem recorded_unread (h : ∀ listing, ¬Relists target answers st node listing) :
    relistRecorded target answers st node recorded = recorded := by
  unfold relistRecorded
  split
  · rfl
  · rename_i hread
    rw [Bool.or_eq_true, Bool.not_eq_true', not_or, Bool.not_eq_false, Bool.not_eq_true] at hread
    split
    · rfl
    · rename_i listing hl
      exact absurd ⟨hread.1, hread.2, hl⟩ (h listing)

theorem relists_unique {listing' : Listing} (h : Relists target answers st node listing) (h' : Relists target answers st node listing') :
    listing' = listing := Except.ok.inj (h'.2.2.symm.trans h.2.2)

/-- Across a re-read every alive directory is still found exactly if it keeps their keys. -/
theorem resolves_relist (hs : answers.Sound) (ho : Owned st.tree) (hk : Keyed st recorded) :
    Keyed (relist target answers st node).1 (relistRecorded target answers st node recorded) ∧
      (Resolves st recorded → (Resolves (relist target answers st node).1 (relistRecorded target answers st node recorded) ↔
        KeepsKeys target answers st recorded node)) := by
  rcases relist_cases target answers st node with ⟨listing, hl, -⟩ | ⟨hno, he⟩
  · obtain ⟨inos, handles, hrec, hr⟩ := rekeyed_relist hs ho hk hl
    rw [hrec]
    refine ⟨hr.keyed, fun _ => ?_⟩
    rw [resolves_iff hr.keyed, hr.records, Records.found_append hr.newInos, Records.found_append hr.newHandles]
    -- among the old directories those are alive that stay
    have hinos : ∀ ino n, Records.last (inoRecords st.tree) ino = some n →
        (((relist target answers st node).1.tree.node n).alive = true ↔ Stays target answers st node listing n) := fun ino n hn =>
      hr.old n (mem_inoRecords.1 (Records.mem_of_last hn)).1
    have hhandles : ∀ handle n, Records.last recorded handle = some n →
        (((relist target answers st node).1.tree.node n).alive = true ↔ Stays target answers st node listing n) := fun handle n hn =>
      hr.old n (hk.placed _ (Records.mem_of_last hn))
    constructor
    · rintro ⟨h1, h2⟩
      refine ⟨fun listing' hl' dir hd => ?_, fun listing' hl' dir handle hm hd => ?_⟩ <;> cases relists_unique hl hl'
      · have hlt := DirTree.lt_of_alive hd.1
        rcases h1 _ (mem_inoRecords.2 ⟨hlt, rfl⟩) ((hr.old dir hlt).2 hd) with ⟨n, hn, ha⟩ | hadd
        · exact .inl ⟨n, (hk.inos _).trans hn, (hinos _ n hn).1 ha⟩
        · obtain ⟨found, hg, e, he, hkey⟩ := (hr.inosOf _).1 hadd
          obtain ⟨hk', hino⟩ := mem_inoRecords.1 he
          exact .inr ⟨found, hg, e.1, hk', hino.trans hkey⟩
      · rcases h2 _ hm ((hr.old dir (hk.placed _ hm)).2 hd) with ⟨n, hn, ha⟩ | hadd
        · exact .inl ⟨n, (hk.handles _).trans hn, (hhandles _ n hn).1 ha⟩
        · obtain ⟨found, hg, ⟨k, _⟩, he, rfl⟩ := (hr.handlesOf _).1 hadd
          exact .inr ⟨found, hg, k, he⟩
    · intro h
      refine ⟨?_, ?_⟩
      · rintro ⟨dir, ino⟩ he ha
        obtain ⟨hlt, rfl⟩ := mem_inoRecords.1 he
        rcases h.inos listing hl dir ((hr.old dir hlt).1 ha) with ⟨n, hn, hstays⟩ | ⟨found, hg, k, hk', hino⟩
        · have hn' := (hk.inos _).symm.trans hn
          exact .inl ⟨n, hn', (hinos _ n hn').2 hstays⟩
        · exact .inr ((hr.inosOf _).2 ⟨found, hg, (k, _), mem_inoRecords.2 ⟨hk', rfl⟩, hino⟩)
      · rintro ⟨dir, handle⟩ he ha
        rcases h.handles listing hl dir handle he ((hr.old dir (hk.placed _ he)).1 ha) with ⟨n, hn, hstays⟩ | ⟨found, hg, k, hk'⟩
        · have hn' := (hk.handles _).symm.trans hn
          exact .inl ⟨n, hn', (hhandles _ n hn').2 hstays⟩
        · exact .inr ((hr.handlesOf _).2 ⟨found, hg, _, hk', rfl⟩)
  · rw [he, recorded_unread hno]
    exact ⟨hk, fun h => ⟨fun _ => ⟨fun listing hl => absurd hl (hno listing), fun listing hl => absurd hl (hno listing)⟩, fun _ => h⟩⟩

end Relist

/-! ## Runs -/

/-- The states of a live target, each with the handles recorded for its directories: from a scan's tree,
by re-reads with what `P` asks of each, and by marks of activity. -/
inductive KeyRun (P : Target → Answers → TreeState → List (Nat × Handle) → Nat → Prop) : TreeState → List (Nat × Handle) → Prop
  | scan {host : Host} {target : Target} {hash : Bytes → Nat} {t : DirTree} {counted : Table Inode (Nat × Link)}
      (h : Walk.CountScan host target hash t counted) (hk : host.listing.Proper) (generation : Nat) :
      KeyRun P (TreeState.new t generation) t.handles
  | relist {st : TreeState} {recorded : List (Nat × Handle)} (h : KeyRun P st recorded) (target : Target) (answers : Answers)
      (node : Nat) (hs : answers.Sound) (hp : P target answers st recorded node) :
      KeyRun P (relist target answers st node).1 (relistRecorded target answers st node recorded)
  | touch {st : TreeState} {recorded : List (Nat × Handle)} (h : KeyRun P st recorded) (dir : Nat) (at_ : Int) :
      KeyRun P { st with tree := st.tree.touch dir at_ } recorded

section Runs

variable {P : Target → Answers → TreeState → List (Nat × Handle) → Nat → Prop} {st : TreeState} {recorded : List (Nat × Handle)}

theorem KeyRun.reached (h : KeyRun P st recorded) : LiveReached st := by
  induction h with
  | scan h hk generation => exact .scan h hk generation
  | relist h target answers node hs hp ih => exact ih.relist target answers node hs
  | touch h dir at_ ih => exact ih.touch dir at_

/-- The indexes of a scan's tree. -/
theorem keyed_new {t : DirTree} (ht : ∀ e ∈ t.handles, e.1 < t.nodes.length) (generation : Nat) :
    Keyed (TreeState.new t generation) t.handles := by
  refine ⟨fun ino => ?_, fun handle => ?_, rfl, ht⟩
  · show (TreeState.indexInos t.nodes 0 .empty).get ino = Records.last (inoRecords t) ino
    rw [get_indexInos, List.drop_zero, Table.get_empty, Option.or_none]
  · show (Table.ofList (t.handles.map fun e => (e.2, e.1))).get handle = Records.last t.handles handle
    unfold Table.ofList
    rw [List.foldl_map, Records.get_index, Table.get_empty, Option.or_none]

theorem keyed_of_run (h : KeyRun P st recorded) : Keyed st recorded := by
  induction h with
  | scan h hk generation => exact keyed_new h.handles_lt generation
  | relist h target answers node hs hp ih => exact (resolves_relist hs (owned_of_reached h.reached) ih).1
  | touch h dir at_ ih => exact ih.retree (sameInos_frame.touch _ dir at_)

/-- A scan's tree resolves every directory, and re-reads that keep the keys leave it so. -/
theorem resolves_of_run (h : KeyRun KeepsKeys st recorded) : Resolves st recorded := by
  induction h with
  | @scan host target hash t counted h hk generation =>
    have halive := (h.fresh hk).alive
    refine (resolves_iff (keyed_new h.handles_lt generation)).2 ⟨Records.found_of_live fun e he => ?_,
      Records.found_of_live fun e he => halive e.1 (h.handles_lt e he)⟩
    exact halive e.1 (mem_inoRecords.1 he).1
  | relist h target answers node hs hp ih =>
    exact ((resolves_relist hs (owned_of_reached h.reached) (keyed_of_run h)).2 ih).2 hp
  | @touch st recorded h dir at_ ih =>
    have hk := keyed_of_run h
    have hsame := sameInos_frame.touch st.tree dir at_
    have halive := (sameLinks_touch st.tree dir at_).shape.alive
    obtain ⟨h1, h2⟩ := (resolves_iff hk).1 ih
    refine (resolves_iff (hk.retree hsame)).2 ⟨?_, ?_⟩
    · show Records.Found _ (inoRecords (st.tree.touch dir at_))
      rw [hsame.records]
      exact (Records.found_congr fun e _ => by rw [halive]).1 h1
    · exact (Records.found_congr fun e _ => by rw [halive]).1 h2

theorem keepsKeys_iff (h : KeyRun KeepsKeys st recorded) {answers : Answers} (hs : answers.Sound) (target : Target) (node : Nat) :
    Resolves (relist target answers st node).1 (relistRecorded target answers st node recorded) ↔
      KeepsKeys target answers st recorded node :=
  (resolves_relist hs (owned_of_reached h.reached) (keyed_of_run h)).2 (resolves_of_run h)

/-- In a run whose re-reads keep the keys every alive directory is found, by its inode and by its handle;
and the next re-read leaves it so exactly if it keeps the keys as well. -/
theorem directories_resolve (h : KeyRun KeepsKeys st recorded) : Resolves st recorded ∧
    ∀ target answers node, answers.Sound →
      (Resolves (relist target answers st node).1 (relistRecorded target answers st node recorded) ↔
        KeepsKeys target answers st recorded node) :=
  ⟨resolves_of_run h, fun target _ node hs => keepsKeys_iff h hs target node⟩

end Runs

/-! ## A directory moved and moved back -/

open Walk

/-- A target walked by one worker, without a cap, and not excluded itself. -/
def plainTarget (target : Target) : Bool :=
  !excludesRoot target && !target.collectHandles && decide (target.maxDepth = none) && !target.scanPath.contains 0 &&
    target.scanThreads = 1

theorem scan_emptyDir {target : Target} (h : plainTarget target = true) (ino : Nat) :
    ∃ counted, CountScan (statHost (emptyDir ino)) target List.length (statTree target (emptyDir ino)) counted := by
  unfold plainTarget at h
  simp only [Bool.and_eq_true, Bool.not_eq_true', decide_eq_true_eq, List.contains_eq_mem, decide_eq_false_iff_not] at h
  obtain ⟨⟨⟨⟨hx, hc⟩, hm⟩, hz⟩, hn⟩ := h
  obtain ⟨displayPath, scanPath, exclude, follow, cross, mode, depth, cap, threads, most, handles⟩ := target
  dsimp only at hc hm hn
  subst hc hm hn
  have h0 : Walking (statHost (emptyDir ino))
      (start ⟨displayPath, scanPath, exclude, follow, cross, mode, depth, none, 1, most, false⟩ (emptyDir ino) List.length)
      (emptyDir ino) none (n := 0) _ := .initial false
  have h1 := WorkPool.Reachable.step h0 (.worker (.spawnDone (i := 0) rfl (by decide)))
  have h2 := WorkPool.Reachable.step h1 (.worker (.retire (i := 0) rfl))
  have h3 := WorkPool.Reachable.step h2 (.worker (.more (i := 0) rfl (.opened rfl)))
  have h4 := WorkPool.Reachable.step h3 (.worker (.done (i := 0) rfl (.closed rfl rfl)))
  have h5 := WorkPool.Reachable.step h4 (.worker (.retire (i := 0) rfl))
  have hover : ∀ i : Fin 1, i = 0 := Fin.fin_one_eq_zero
  exact ⟨_, .walked rfl hx rfl (by simp [RootHandle]) (by simp) hz rfl h5 (fun i => by rw [hover i]; rfl) rfl rfl⟩

/-- These names, each of an empty directory with this inode. -/
def listedDirs (dirs : List (Bytes × Nat)) : Reading where
  entries := dirs.map fun dir => { name := dir.1, stat := .ok (emptyDir dir.2), handle := none }
  fail := none

/-- A re-read that lists these directories, and finds a new one by its walk. -/
def listsDirs (own : Nat) (dirs : List (Bytes × Nat)) (walked : Nat) : Answers where
  byHandle := false
  opened := .ok (emptyDir own, listedDirs dirs)
  dirHandle _ := none
  walk target := if plainTarget target then some (statTree target (emptyDir walked)) else none

theorem sound_listsDirs {own walked : Nat} {dirs : List (Bytes × Nat)} (h : (listedDirs dirs).Proper) :
    (listsDirs own dirs walked).Sound := by
  refine ⟨fun target tree he => ?_, fun own' reading he => ?_⟩
  · unfold listsDirs at he
    dsimp only at he
    split at he
    · rename_i hplain
      cases he
      obtain ⟨counted, hscan⟩ := scan_emptyDir hplain walked
      exact ⟨_, _, counted, proper_statHost _, hscan⟩
    · cases he
  · cases he
    exact h

/-- `/d/a`, and then `/d/x`, appear in `/d`. -/
def firstState : TreeState := (relist emptyWalk.target (listsDirs 2 [([97], 3)] 3) emptyState 0).1
def secondState : TreeState := (relist emptyWalk.target (listsDirs 2 [([97], 3), ([120], 4)] 4) firstState 0).1

/-- `/d/x` is moved into `/d/a`, which is read again. -/
def movedState : TreeState := (relist emptyWalk.target (listsDirs 3 [([120], 4)] 4) secondState 1).1

/-- It is moved back, and `/d/a` is read again. -/
def movedBackState : TreeState := (relist emptyWalk.target (listsDirs 3 [] 4) movedState 1).1

theorem run_emptyState (P : Target → Answers → TreeState → List (Nat × Handle) → Nat → Prop) : KeyRun P emptyState [] := by
  obtain ⟨counted, h⟩ := scan_empty
  exact .scan h (proper_statHost _) 1

/-- Without handles on record it is enough to look the nodes up by inode, one after the other. -/
theorem resolves_of_nodes {st : TreeState} (h : ∀ dir < st.tree.nodes.length, (st.tree.node dir).alive = true →
    ∃ n < st.tree.nodes.length, st.resolve (.ino (st.tree.node dir).ino) = some n ∧ (st.tree.node n).alive = true ∧
      (st.tree.node n).ino = (st.tree.node dir).ino) : Resolves st [] := by
  refine ⟨fun dir ha => ?_, fun dir handle hm => absurd hm List.not_mem_nil⟩
  obtain ⟨n, -, hn⟩ := h dir (DirTree.lt_of_alive ha) ha
  exact ⟨n, hn⟩

theorem run_movedState : KeyRun KeepsKeys movedState [] := by
  have h0 := run_emptyState KeepsKeys
  have s1 : (listsDirs 2 [([97], 3)] 3).Sound := sound_listsDirs ⟨by decide, by decide⟩
  have h1 : KeyRun KeepsKeys firstState [] :=
    h0.relist emptyWalk.target _ 0 s1 ((keepsKeys_iff h0 s1 _ 0).1 (resolves_of_nodes (by decide)))
  have s2 : (listsDirs 2 [([97], 3), ([120], 4)] 4).Sound := sound_listsDirs ⟨by decide, by decide⟩
  have h2 : KeyRun KeepsKeys secondState [] :=
    h1.relist emptyWalk.target _ 0 s2 ((keepsKeys_iff h1 s2 _ 0).1 (resolves_of_nodes (by decide)))
  have s3 : (listsDirs 3 [([120], 4)] 4).Sound := sound_listsDirs ⟨by decide, by decide⟩
  exact h2.relist emptyWalk.target _ 1 s3 ((keepsKeys_iff h2 s3 _ 1).1 (resolves_of_nodes (by decide)))

/-- Moved into `/d/a`, the directory is found there, while `/d` still has it as well. -/
theorem directories_resolve_moved : Resolves movedState [] ∧ movedState.resolve (.ino 4) = some 3 ∧
    (movedState.tree.node 2).alive = true ∧ (movedState.tree.node 2).ino = 4 :=
  ⟨(directories_resolve run_movedState).1, by decide, by decide, by decide⟩

/-- Moved back before `/d` is read again, it is not found: `/d` counts it where it was, and `/d/a` has
dropped the node the index names. -/
theorem moved_back_lost : ¬∀ st recorded, KeyRun (fun _ _ _ _ _ => True) st recorded → Resolves st recorded := by
  intro h
  have h0 := run_emptyState fun _ _ _ _ _ => True
  have h1 : KeyRun (fun _ _ _ _ _ => True) firstState [] :=
    h0.relist emptyWalk.target _ 0 (sound_listsDirs ⟨by decide, by decide⟩) trivial
  have h2 : KeyRun (fun _ _ _ _ _ => True) secondState [] :=
    h1.relist emptyWalk.target _ 0 (sound_listsDirs ⟨by decide, by decide⟩) trivial
  have h3 : KeyRun (fun _ _ _ _ _ => True) movedState [] :=
    h2.relist emptyWalk.target _ 1 (sound_listsDirs ⟨by decide, by decide⟩) trivial
  have h4 : KeyRun (fun _ _ _ _ _ => True) movedBackState [] :=
    h3.relist emptyWalk.target _ 1 (sound_listsDirs ⟨by decide, by decide⟩) trivial
  obtain ⟨n, hn, -⟩ := (h _ _ h4).inos 2 (by decide)
  have hlost : movedBackState.resolve (.ino (movedBackState.tree.node 2).ino) = none := by decide
  rw [hlost] at hn
  cases hn

end StorageHarvester
