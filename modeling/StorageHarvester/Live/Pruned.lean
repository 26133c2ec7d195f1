/-
The mark of directories with excluded content, over scans, re-reads and grafts. A re-read goes by the
exclude rules, but sets no mark: a directory stays marked as the walk that gave it its node left it.
What was dropped is recorded beside the state; as long as no unmarked directory is re-read with
something to drop, the marks are right, and the sharing pass counts no excluded link.
-/
import StorageHarvester.Btrfs.Skeleton
import StorageHarvester.Live.Merge
import StorageHarvester.Live.Times
import StorageHarvester.Scan.Pruned

namespace StorageHarvester

/-! ## What is dropped -/

/-- Reading a directory again drops this name. -/
def Listing.drops (target : Target) (displayPath : Bytes) (opened : Listing.Opened) (name : Bytes) : Prop :=
  Walk.isDot name = false ∧ (!target.exclude.isEmpty && target.exclude.isMatch (pushComponent displayPath name)) = true ∧
    ∃ own reading, opened = .ok (own, reading) ∧ ∃ e ∈ reading.entries, e.name = name

/-- What was dropped in a tree and in one grafted to it, whose nodes start at `start`. -/
def Dropped.graft (dropped : Dropped) (start : Nat) (other : Dropped) : Dropped := fun node name =>
  if node < start then dropped node name else other (node - start) name

/-- What was dropped once `node` is read again. -/
def Dropped.reread (dropped : Dropped) (node : Nat) (names : Bytes → Prop) : Dropped := fun i name =>
  if i = node then names name else dropped i name

section Merge

variable (target : Target) (answers : Answers) (node : Nat) (walks : Target → Dropped)

/-- A new subdirectory comes with what its walk dropped. -/
def Merge.addDropped (m : Merge) (subdir : Subdir) (dropped : Dropped) : Dropped :=
  match walkNew target answers m.st.tree node subdir.name with
  | none => dropped
  | some p =>
    if m.st.tree.nodes.length + p.1.nodes.length ≤ target.treeMaxDirectories then
      dropped.graft m.st.tree.nodes.length (walks (walkTarget target answers m.st.tree node subdir.name))
    else dropped

end Merge

/-- What was dropped after a re-read: what its listing drops, and what the walks of new subdirectories
do. -/
def relistDropped (target : Target) (answers : Answers) (st : TreeState) (node : Nat) (walks : Target → Dropped)
    (dropped : Dropped) : Dropped :=
  if !(st.tree.node node).alive || (st.tree.node node).isSealed then dropped
  else match readListing target answers st node with
    | .error _ => dropped
    | .ok listing =>
      let children := (st.tree.node node).children
      mergeNotes target answers node (Merge.addDropped target answers node walks) (children.length + listing.subdirs.length) children listing.subdirs
        (startMerge st node listing)
        (dropped.reread node (Listing.drops target (st.tree.displayPathBytes node) answers.opened))

/-! ## Marks -/

/-- Every alive directory that was read whole, and that something was dropped in, is marked. -/
def Marked (t : DirTree) (dropped : Dropped) : Prop :=
  ∀ node name, dropped node name → (t.node node).alive = true → (t.node node).isSealed = false → (t.node node).pruned = true

/-- What `u` has alive and read whole, `t` has, marked alike. -/
structure SameMarks (t u : DirTree) : Prop where
  length : u.nodes.length = t.nodes.length
  kept : ∀ i, (u.node i).alive = true → (u.node i).isSealed = false →
    (t.node i).alive = true ∧ (t.node i).isSealed = false ∧ (u.node i).pruned = (t.node i).pruned

section Marks

variable {t u v : DirTree} {dropped : Dropped}

theorem Marked.same (h : Marked t dropped) (hs : SameMarks t u) : Marked u dropped := by
  intro node name hd ha hsealed
  obtain ⟨ha', hs', hp⟩ := hs.kept node ha hsealed
  rw [hp]
  exact h node name hd ha' hs'

namespace SameMarks

theorem refl (t : DirTree) : SameMarks t t := ⟨rfl, fun _ ha hs => ⟨ha, hs, rfl⟩⟩

theorem trans (h : SameMarks t u) (h' : SameMarks u v) : SameMarks t v := by
  refine ⟨h'.length.trans h.length, fun i ha hs => ?_⟩
  obtain ⟨ha', hs', hp'⟩ := h'.kept i ha hs
  obtain ⟨ha, hs, hp⟩ := h.kept i ha' hs'
  exact ⟨ha, hs, hp'.trans hp⟩

theorem of_nodes (h : u.nodes = t.nodes) : SameMarks t u := by
  have hnode : ∀ i, u.node i = t.node i := fun i => by unfold DirTree.node; rw [h]
  refine ⟨by rw [h], fun i ha hs => ?_⟩
  rw [hnode] at ha hs ⊢
  exact ⟨ha, hs, rfl⟩

theorem modifyNode (t : DirTree) (i : Nat) {f : DirNode → DirNode} (hf : ∀ n, (f n).alive = true → (f n).isSealed = false →
    n.alive = true ∧ n.isSealed = false ∧ (f n).pruned = n.pruned) : SameMarks t (t.modifyNode i f) := by
  refine ⟨DirTree.length_modifyNode t i f, fun j ha hs => ?_⟩
  rw [DirTree.node_modifyNode] at ha hs ⊢
  split
  · rename_i hj
    rw [if_pos hj] at ha hs
    exact hf _ ha hs
  · rename_i hj
    rw [if_neg hj] at ha hs
    exact ⟨ha, hs, rfl⟩

/-- An edit of sizes. -/
theorem sizes (t : DirTree) (i : Nat) {f : DirNode → DirNode} (ha : ∀ n, (f n).alive = n.alive)
    (hs : ∀ n, (f n).isSealed = n.isSealed) (hp : ∀ n, (f n).pruned = n.pruned) : SameMarks t (t.modifyNode i f) :=
  modifyNode t i fun n ha' hs' => ⟨(ha n).symm.trans ha', (hs n).symm.trans hs', hp n⟩

theorem relinked (h : SameMarks t u) (links : Table Inode LinkOwner) : SameMarks t { u with links := links } :=
  h.trans (.of_nodes rfl)

end SameMarks

theorem sameMarks_propagateUp (d : Delta) : ∀ (fuel i : Nat) (t : DirTree), SameMarks t (DirTree.propagateUp d fuel i t)
  | 0, _, t => .refl t
  | fuel + 1, i, t => by
    have hsub : SameMarks t (t.applySub i d) :=
      (SameMarks.sizes t i (f := fun n => { n with sub := n.sub.apply d }) (fun _ => rfl) (fun _ => rfl) fun _ => rfl).trans
        (.of_nodes rfl)
    rw [DirTree.propagateUp]
    split
    · exact hsub
    · exact hsub.trans (sameMarks_propagateUp d fuel _ _)

theorem sameMarks_propagate (t : DirTree) (i : Nat) (d : Delta) : SameMarks t (t.propagate i d) := by
  unfold DirTree.propagate
  split
  · exact .refl t
  · exact sameMarks_propagateUp d _ i t

theorem sameMarks_grow (t : DirTree) (i : Nat) (d : Delta) : SameMarks t (t.grow i d) := by
  have hdirect : SameMarks t (t.applyDirect i d) :=
    (SameMarks.sizes t i (f := fun n => { n with direct := n.direct.apply d }) (fun _ => rfl) (fun _ => rfl) fun _ => rfl).trans
      (.of_nodes rfl)
  exact hdirect.trans (sameMarks_propagate _ i d)

theorem sameMarks_touch (t : DirTree) (i : Nat) (a : Int) : SameMarks t (t.touch i a) := by
  refine ⟨DirTree.length_touch t i a, fun j ha hs => ?_⟩
  rw [DirTree.node_touch] at ha hs ⊢
  exact ⟨ha, hs, rfl⟩

theorem sameMarks_detach (t : DirTree) (child : Nat) : SameMarks t (t.detach child).1 := by
  have hdead : ∀ t₁ : DirTree, SameMarks t₁ { t₁ with nodes := DirTree.markDead t₁.nodes.length [child] t₁.nodes } := by
    intro t₁
    refine ⟨DirTree.length_markDead _ _ _, fun j ha hs => ?_⟩
    unfold DirTree.node at ha hs ⊢
    dsimp only at ha hs ⊢
    rw [DirTree.getD_markDead] at ha hs ⊢
    split
    · rename_i hj
      rw [if_pos hj] at ha
      cases ha
    · rename_i hj
      rw [if_neg hj] at ha hs
      exact ⟨ha, hs, rfl⟩
  unfold DirTree.detach
  cases (t.node child).parent with
  | none => exact (hdead t).trans (.of_nodes rfl)
  | some p =>
    have hcut := SameMarks.sizes t p (f := fun n => { n with children := n.children.filter (· ≠ child) })
      (fun _ => rfl) (fun _ => rfl) fun _ => rfl
    exact (hcut.trans (hdead _)).trans (.of_nodes rfl)

/-- A grafted tree keeps its marks, and what was dropped in it. -/
theorem Marked.graft (h : Marked t dropped) {other : DirTree} {otherDropped : Dropped} (ho : Marked other otherDropped)
    (under : Nat) : Marked (t.graft under other).1 (dropped.graft t.nodes.length otherDropped) := by
  have hlisted : SameMarks (t.appended under other) (t.grown under other) :=
    SameMarks.sizes (t.appended under other) under (fun _ => rfl) (fun _ => rfl) fun _ => rfl
  have hs : SameMarks (t.appended under other) (t.graft under other).1 :=
    (hlisted.trans (sameMarks_touch (t.grown under other) under (other.node 0).newest)).trans (.of_nodes rfl)
  refine Marked.same (fun node name hd ha hsealed => ?_) hs
  unfold Dropped.graft at hd
  rw [node_appended] at ha hsealed ⊢
  split at hd
  · rename_i hlt
    rw [if_pos hlt] at ha hsealed ⊢
    exact h node name hd ha hsealed
  · rename_i hge
    rw [if_neg hge] at ha hsealed ⊢
    split
    · rename_i hlt
      rw [if_pos hlt] at ha hsealed
      exact ho (node - t.nodes.length) name hd ha hsealed
    · rename_i hout
      rw [if_neg hout] at ha
      cases ha

end Marks

/-! ## The merge -/

theorem sameMarks_untakes : ∀ (taken : List (Inode × LinkOwner)) (sub : DirTree), SameMarks sub (taken.foldl untake sub)
  | [], sub => .refl sub
  | e :: taken, sub => by
    rw [List.foldl_cons]
    exact (((SameMarks.refl sub).relinked (sub.links.del e.1)).trans (sameMarks_grow _ e.2.node _)).trans
      (sameMarks_untakes taken _)

section Relist

variable {target : Target} {answers : Answers} {node : Nat} {walks : Target → Dropped} {st : TreeState} {dropped : Dropped}

/-- Every walk comes back with the marks of what it dropped. -/
def Answers.MarkedWalks (answers : Answers) (walks : Target → Dropped) : Prop :=
  ∀ target tree, answers.walk target = some tree → Marked tree (walks target)

theorem marked_walkNew {tree sub : DirTree} {parent : Nat} {name : Bytes} {shared : List (Inode × List Nat)}
    (hw : answers.MarkedWalks walks) (h : walkNew target answers tree parent name = some (sub, shared)) :
    Marked sub (walks (walkTarget target answers tree parent name)) := by
  unfold walkNew at h
  cases hf : answers.walk (walkTarget target answers tree parent name) with
  | none =>
    rw [hf] at h
    cases h
  | some found =>
    rw [hf] at h
    cases h
    have hroot : SameMarks found (found.modifyNode 0 fun n => { n with name := name }) :=
      .sizes found 0 (fun _ => rfl) (fun _ => rfl) fun _ => rfl
    exact (hw _ _ hf).same (hroot.trans (sameMarks_untakes _ _))

theorem marked_add (hw : answers.MarkedWalks walks) (m : Merge) (subdir : Subdir) (h : Marked m.st.tree dropped) :
    Marked (m.add target answers node subdir).st.tree (m.addDropped target answers node walks subdir dropped) := by
  unfold Merge.add Merge.addDropped
  cases hf : walkNew target answers m.st.tree node subdir.name with
  | none => exact h
  | some p =>
    dsimp only
    split
    · have hg := h.graft (marked_walkNew hw hf) node
      exact (hg.same (.of_nodes (nodes_shareLinks _ _ _))).same (.of_nodes rfl)
    · exact h.same (.modifyNode m.st.tree node fun n _ hs => absurd hs Bool.true_eq_false_eq_False.elim)

/-- What was dropped is marked in each step of the merge, and so in all. -/
theorem marked_merge (hw : answers.MarkedWalks walks) (fuel : Nat) (children : List Nat) (subdirs : List Subdir) (m : Merge)
    (dropped : Dropped) (h : Marked m.st.tree dropped) : Marked (mergeChildren target answers node fuel children subdirs m).st.tree
      (mergeNotes target answers node (Merge.addDropped target answers node walks) fuel children subdirs m dropped) := by
  refine mergeNotes_rule (P := fun m dropped => Marked m.st.tree dropped) ?_ ?_ ?_ fuel children subdirs m dropped h
  · exact fun m child subdir _ hm => hm.same (.sizes m.st.tree child (fun _ => rfl) (fun _ => rfl) fun _ => rfl)
  · exact fun m child _ hm => hm.same (sameMarks_detach m.st.tree child)
  · exact fun m subdir _ hm => marked_add hw m subdir hm

/-! ## The re-read -/

theorem sameMarks_hands (here : List Inode) : ∀ (links : List (Inode × LinkOwner)) (h : Handing),
    SameMarks h.tree (links.foldl (Handing.hand node here) h).tree
  | [], h => .refl h.tree
  | e :: links, h => by
    have hone : SameMarks h.tree (h.hand node here e).tree := by
      unfold Handing.hand
      dsimp only
      generalize Delta.size (asI64 e.2.blocks) (asI64 e.2.apparent) = size
      split
      · split
        · exact (SameMarks.refl h.tree).relinked _
        · split
          · exact .refl h.tree
          · exact (sameMarks_grow h.tree _ size).relinked _
      · split
        · exact .refl h.tree
        · exact (sameMarks_grow h.tree _ size).relinked _
    rw [List.foldl_cons]
    exact hone.trans (sameMarks_hands here links _)

theorem sameMarks_applyOwn (t : DirTree) (node : Nat) (own : Own) : SameMarks t (applyOwn t node own) := by
  have hown := SameMarks.sizes t node (f := fun n =>
    { n with ownBlocks := own.blocks, ownApparent := own.apparent, mtime := own.mtime }) (fun _ => rfl) (fun _ => rfl) fun _ => rfl
  unfold applyOwn
  dsimp only
  split
  · exact hown
  · split
    · exact hown
    · exact hown.trans (sameMarks_grow _ _ _)

theorem sameMarks_applyWrites (writes : List (Nat × Delta)) (t : DirTree) : SameMarks t (applyWrites t writes) := by
  unfold applyWrites
  induction writes generalizing t with
  | nil => exact .refl t
  | cons e writes ih =>
    rw [List.foldl_cons]
    exact (sameMarks_grow t e.1 e.2).trans (ih _)

/-- After the merge nothing changes that is marked. -/
theorem sameMarks_applyAll (target : Target) (answers : Answers) (st : TreeState) (node : Nat) (listing : Listing) :
    SameMarks (mergeListing target answers st node listing).2.st.tree (applyAll target answers st node listing).1.tree := by
  unfold applyAll
  dsimp only
  refine SameMarks.trans ?_ (sameMarks_hands _ _ _)
  refine SameMarks.trans ?_ (sameMarks_applyWrites _ _)
  refine SameMarks.trans ?_ (sameMarks_touch _ _ _)
  refine SameMarks.trans ?_ (sameMarks_applyOwn _ _ _)
  refine SameMarks.trans ?_ (sameMarks_propagate _ _ _)
  exact .sizes _ _ (fun _ => rfl) (fun _ => rfl) fun _ => rfl

/-- Where a re-read drops something, the directory is marked already. -/
def MarkedFirst (st : TreeState) (target : Target) (answers : Answers) (node : Nat) : Prop :=
  (st.tree.node node).alive = true → (st.tree.node node).isSealed = false →
    ∀ listing, readListing target answers st node = .ok listing →
      ∀ name, Listing.drops target (st.tree.displayPathBytes node) answers.opened name → (st.tree.node node).pruned = true

theorem marked_relist (hw : answers.MarkedWalks walks) (h : Marked st.tree dropped) (hc : MarkedFirst st target answers node) :
    Marked (relist target answers st node).1.tree (relistDropped target answers st node walks dropped) := by
  unfold relist relistDropped
  split
  · exact h
  · rename_i hread
    rw [Bool.or_eq_true, Bool.not_eq_true', not_or, Bool.not_eq_false, Bool.not_eq_true] at hread
    cases hl : readListing target answers st node with
    | error error =>
      dsimp only
      split
      · split <;> exact h
      · exact h
    | ok listing =>
      dsimp only
      have hfirst : Marked st.tree
          (dropped.reread node (Listing.drops target (st.tree.displayPathBytes node) answers.opened)) := by
        intro i name hd ha hs
        unfold Dropped.reread at hd
        split at hd
        · rename_i hi
          rw [hi]
          exact hc hread.1 hread.2 listing hl name hd
        · exact h i name hd ha hs
      have hmerged : Marked (mergeListing target answers st node listing).2.st.tree _ :=
        marked_merge hw _ _ _ (startMerge st node listing) _ (hfirst.same (.of_nodes rfl))
      exact hmerged.same (sameMarks_applyAll target answers st node listing)

end Relist

/-! ## Runs -/

/-- The states of a live target, each with what was dropped when its directories were last read: from a
scan's tree, by re-reads that meet `P`, and grafts. -/
inductive PrunedRun (P : TreeState → Target → Answers → Nat → Prop) : TreeState → Dropped → Prop
  | scan {host : Host} {target : Target} {hash : Bytes → Nat} {t : DirTree} {dropped : Dropped}
      (h : Walk.DropScan host target hash t dropped) (generation : Nat) : PrunedRun P (TreeState.new t generation) dropped
  | relist {st : TreeState} {dropped : Dropped} (h : PrunedRun P st dropped) (target : Target) (answers : Answers) (node : Nat)
      (walks : Target → Dropped)
      (hw : ∀ target tree, answers.walk target = some tree → ∃ host hash, Walk.DropScan host target hash tree (walks target))
      (hp : P st target answers node) :
      PrunedRun P (relist target answers st node).1 (relistDropped target answers st node walks dropped)
  | graft {st : TreeState} {dropped : Dropped} (h : PrunedRun P st dropped) {host : Host} {target : Target} {hash : Bytes → Nat}
      {other : DirTree} {otherDropped : Dropped} (ho : Walk.DropScan host target hash other otherDropped) (under : Nat) :
      PrunedRun P { st with tree := (st.tree.graft under other).1 } (dropped.graft st.tree.nodes.length otherDropped)

/-- Every directory with excluded content is known as such. -/
structure PrunedMarked (t : DirTree) (dropped : Dropped) : Prop where
  /-- An alive directory, not sealed, that last dropped an entry is marked. -/
  marked : Marked t dropped
  /-- The sharing pass counts no dropped link as one the tree holds. -/
  unshared : ∀ (h : Shape t) (exclude : Bytes → Bool) (ino node : Nat) (name : Bytes), dropped node name →
    (t.node node).isSealed = false → exclude (pushComponent (t.displayPathBytes node) name) = true →
    (Btrfs.Skeleton.ofTree t h exclude).byIno ino = some node → (Btrfs.Skeleton.ofTree t h exclude).holder ino name = none

theorem Marked.pruned {t : DirTree} {dropped : Dropped} (h : Marked t dropped) : PrunedMarked t dropped := by
  refine ⟨h, fun hshape exclude ino node name hd hs hx hi => ?_⟩
  have ha : (t.node node).alive = true := by
    have hm := List.of_mem_filter (List.mem_of_getLast? hi)
    rw [Bool.and_eq_true] at hm
    exact hm.1
  have hpruned : (Btrfs.Skeleton.ofTree t hshape exclude).pruned node = some (t.displayPathBytes node) := by
    show (if (t.node node).alive && (t.node node).pruned then some (t.displayPathBytes node) else none) = _
    rw [ha, h node name hd ha hs]
    rfl
  unfold Btrfs.Skeleton.holder
  rw [hi]
  dsimp only
  rw [hpruned]
  dsimp only
  rw [if_pos (show (Btrfs.Skeleton.ofTree t hshape exclude).exclude _ = true from hx)]

/-- As long as no unmarked directory is re-read with an entry to drop, the marks are right. -/
theorem pruned_marked_run {st : TreeState} {dropped : Dropped} (h : PrunedRun MarkedFirst st dropped) :
    PrunedMarked st.tree dropped := by
  refine Marked.pruned ?_
  induction h with
  | scan h generation => exact (show Marked _ _ from fun node name hd _ _ => h.marked hd).same (.of_nodes rfl)
  | @relist st dropped h target answers node walks hw hp ih =>
    refine marked_relist (fun target tree he node name hd _ _ => ?_) ih hp
    obtain ⟨host, hash, hs⟩ := hw target tree he
    exact hs.marked hd
  | graft h ho under ih => exact ih.graft (fun node name hd _ _ => ho.marked hd) under

/-! ## A file left out -/

open Walk

/-- A file with one link. -/
def droppedEntry : Entry :=
  { name := [120], stat := .ok { kind := .file, dev := 1, ino := 3, nlink := 1, blocks := 4096, size := 10, mtime := 0 }, handle := none }

/-- A target that leaves out `/d/x`. -/
def dropTarget : Target :=
  { emptyWalk.target with exclude := { isEmpty := false, isMatch := fun path => path = [slash, 100, slash, 120] } }

/-- A file system of directories with these entries. -/
def listedHost (entries : List Entry) : Host :=
  { emptyHost with
    listing := fun _ answer => answer = .ok { entries := entries, fail := none }
    answers := fun _ => ⟨_, rfl⟩ }

def listedStat : Stat := { kind := .directory, dev := 1, ino := 2, nlink := 2, blocks := 4096, size := 4096, mtime := 0 }

/-- What a scan finds there. -/
def listedTree (pruned : Bool) : DirTree where
  displayRoot := [slash, 100]
  scanRoot := [slash, 100]
  rootDev := 1
  nodes := [{ name := [], parent := none, depth := 0, ino := 2, ownBlocks := 4096, ownApparent := 4096, mtime := 0, newest := 0
              direct := {}, sub := {}, children := [], isSealed := false, pruned := pruned, alive := true }]
  links := .empty
  handles := []
  plain := []
  untrackedLinks := []

theorem rootHandle_listed (entries : List Entry) : RootHandle (listedHost entries) dropTarget none := by
  simp [RootHandle, dropTarget, emptyWalk]

theorem dropScan_nothing : ∃ dropped, DropScan (listedHost []) dropTarget List.length (listedTree false) dropped := by
  have h0 : Walking (listedHost []) (start dropTarget listedStat List.length) listedStat none (n := 0) _ := .initial false
  have h1 := WorkPool.Reachable.step h0 (.worker (.spawnDone (i := 0) rfl (by decide)))
  have h2 := WorkPool.Reachable.step h1 (.worker (.retire (i := 0) rfl))
  have h3 := WorkPool.Reachable.step h2 (.worker (.more (i := 0) rfl (.opened rfl)))
  have h4 := WorkPool.Reachable.step h3 (.worker (.done (i := 0) rfl (.closed rfl rfl)))
  have h5 := WorkPool.Reachable.step h4 (.worker (.retire (i := 0) rfl))
  have hscan : Scans (listedHost []) dropTarget List.length (.ok _) :=
    .walked rfl rfl rfl (rootHandle_listed []) (by decide) (by decide) rfl h5 (by decide)
  exact tracedScan_of_scan (noter Progress.drops) hscan rfl

theorem dropScan_one : ∃ dropped, DropScan (listedHost [droppedEntry]) dropTarget List.length (listedTree true) dropped := by
  have h0 : Walking (listedHost [droppedEntry]) (start dropTarget listedStat List.length) listedStat none (n := 0) _ := .initial false
  have h1 := WorkPool.Reachable.step h0 (.worker (.spawnDone (i := 0) rfl (by decide)))
  have h2 := WorkPool.Reachable.step h1 (.worker (.retire (i := 0) rfl))
  have h3 := WorkPool.Reachable.step h2 (.worker (.more (i := 0) rfl (.opened rfl)))
  have h4 := WorkPool.Reachable.step h3 (.worker (.more (i := 0) rfl (.entry rfl rfl)))
  have h5 := WorkPool.Reachable.step h4 (.worker (.done (i := 0) rfl (.closed rfl rfl)))
  have h6 := WorkPool.Reachable.step h5 (.worker (.retire (i := 0) rfl))
  have hscan : Scans (listedHost [droppedEntry]) dropTarget List.length (.ok _) :=
    .walked rfl rfl rfl (rootHandle_listed _) (by decide) (by decide) rfl h6 (by decide)
  exact tracedScan_of_scan (noter Progress.drops) hscan rfl

/-- A re-read that lists the file left out, and no subdirectories. -/
def dropAnswers : Answers where
  byHandle := false
  opened := .ok (listedStat, { entries := [droppedEntry], fail := none })
  dirHandle _ := none
  walk _ := none

theorem drops_entry (st : TreeState) (h : st.tree.displayPathBytes 0 = [slash, 100]) :
    Listing.drops dropTarget (st.tree.displayPathBytes 0) dropAnswers.opened [120] := by
  rw [h]
  exact ⟨rfl, rfl, _, _, rfl, droppedEntry, List.mem_singleton_self _, rfl⟩

/-- A file to leave out appears after the scan: the re-read drops it, and marks nothing. -/
theorem pruned_unmarked : ¬∀ st dropped, PrunedRun (fun _ _ _ _ => True) st dropped → PrunedMarked st.tree dropped := by
  intro h
  obtain ⟨dropped, hs⟩ := dropScan_nothing
  have hrun := (PrunedRun.scan (P := fun _ _ _ _ => True) hs 1).relist dropTarget dropAnswers 0 (fun _ _ _ => False)
    (fun _ _ he => by cases he) trivial
  have hd : relistDropped dropTarget dropAnswers (TreeState.new (listedTree false) 1) 0 (fun _ _ _ => False) dropped 0 [120] :=
    drops_entry _ rfl
  have := (h _ _ hrun).marked 0 [120] hd (by decide) (by decide)
  exact absurd this (by decide)

/-- A directory the scan marked is re-read with the same file in it. -/
theorem pruned_marked_run_reread : ∃ (st : TreeState) (dropped : Dropped),
    PrunedMarked st.tree dropped ∧ dropped 0 [120] ∧ (st.tree.node 0).pruned = true := by
  obtain ⟨dropped, hs⟩ := dropScan_one
  have hrun := (PrunedRun.scan (P := MarkedFirst) hs 1).relist dropTarget dropAnswers 0 (fun _ _ _ => False)
    (fun _ _ he => by cases he) fun _ _ _ _ _ _ => rfl
  have hd : relistDropped dropTarget dropAnswers (TreeState.new (listedTree true) 1) 0 (fun _ _ _ => False) dropped 0 [120] :=
    drops_entry _ rfl
  exact ⟨_, _, pruned_marked_run hrun, hd, by decide⟩

end StorageHarvester
