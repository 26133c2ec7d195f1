/-
What re-reads and grafts keep of the record of singly linked files. What a directory's last read met
is noted beside the state; the record is only added to, except for the directory that is read again,
and so it holds all of it: a re-read that adopts a file finds every other directory that counts it,
and has it read again or asks for a scan.
-/
import StorageHarvester.Live.Agrees
import StorageHarvester.Live.Counted
import StorageHarvester.Live.Plain
import StorageHarvester.Live.Pruned

namespace StorageHarvester

open Walk (keyOf)

/-! ## What is met -/

/-- Reading a directory again meets this file. -/
def Listing.meets (target : Target) (displayPath : Bytes) (rootDev : Nat) (opened : Listing.Opened) (inode : Inode) : Prop :=
  ∃ own reading, opened = .ok (own, reading) ∧ ∃ e ∈ reading.entries, SingleEntry target displayPath rootDev e inode

/-- An entry's key is recorded if it is a singly linked file's, and no key is lost. -/
theorem Listing.plain_readEntry (target : Target) (displayPath : Bytes) (rootDev : Nat) (l : Listing) (e : Entry) :
    (∀ key ∈ l.plain, key ∈ (Listing.readEntry target displayPath rootDev true l e).plain) ∧
      ∀ inode, SingleEntry target displayPath rootDev e inode →
        keyOf inode ∈ (Listing.readEntry target displayPath rootDev true l e).plain := by
  refine ⟨fun key hk => ?_, fun inode hs => ?_⟩
  · unfold Listing.readEntry
    split
    · exact hk
    · split
      · exact hk
      · split
        · exact hk
        · rename_i stat _
          split
          · exact hk
          · dsimp only
            split
            · exact hk
            · split
              · exact hk
              · dsimp only
                split
                · exact List.mem_append_left _ hk
                · exact hk
  · obtain ⟨hdot, hx, stat, he, hdev, hkind, hn, rfl⟩ := hs
    unfold Listing.readEntry
    rw [if_neg (by rw [hdot]; exact Bool.false_ne_true), if_neg (by rw [hx]; exact Bool.false_ne_true), he]
    dsimp only
    rw [if_neg (by rw [hdev]; exact Bool.false_ne_true), hkind]
    dsimp only
    rw [if_neg (Nat.not_lt.2 hn)]
    exact List.mem_append_right _ (List.mem_singleton_self _)

/-- A re-read under fanotify lists the key of every file it meets. -/
theorem Listing.plain_readDirect {target : Target} {scanPath displayPath : Bytes} {rootDev : Nat} {opened : Listing.Opened}
    {l : Listing} (h : Listing.readDirect target scanPath displayPath rootDev true opened = .ok l) {inode : Inode}
    (hm : Listing.meets target displayPath rootDev opened inode) : keyOf inode ∈ l.plain := by
  obtain ⟨own, reading, rfl, e, he, hs⟩ := hm
  obtain ⟨listed, hlisted, rfl⟩ := Listing.readDirect_ok h
  show keyOf inode ∈ listed.plain
  have hkeep : ∀ (entries : List Entry) (l : Listing), keyOf inode ∈ l.plain →
      keyOf inode ∈ (entries.foldl (Listing.readEntry target displayPath rootDev true) l).plain := by
    intro entries
    induction entries with
    | nil => exact fun _ hk => hk
    | cons e entries ih => exact fun l hk => ih _ ((Listing.plain_readEntry target displayPath rootDev l e).1 _ hk)
  obtain ⟨before, after, hsplit⟩ := List.append_of_mem he
  rw [hlisted, hsplit, List.foldl_append, List.foldl_cons]
  exact hkeep after _ ((Listing.plain_readEntry target displayPath rootDev _ e).2 inode hs)

/-- What is known of a tree and of one grafted to it, whose nodes start at `start`. -/
def Seen.graft (seen : Seen) (start : Nat) (other : Seen) : Seen := fun node inode =>
  if node < start then seen node inode else other (node - start) inode

/-- What is known once `node` is read again. -/
def Seen.reread (seen : Seen) (node : Nat) (met : Inode → Prop) : Seen := fun i inode =>
  if i = node then met inode else seen i inode

/-- What is known once files are counted under `node` besides those in it. -/
def Seen.counted (seen : Seen) (node : Nat) (met : Inode → Prop) : Seen := fun i inode =>
  seen i inode ∨ i = node ∧ met inode

section Merge

variable (target : Target) (answers : Answers) (node : Nat) (walks : Target → Seen)

/-- A new subdirectory comes with what its walk met; past the cap, all of it counts under `node`. -/
def Merge.addSeen (m : Merge) (subdir : Subdir) (seen : Seen) : Seen :=
  match walkNew target answers m.st.tree node subdir.name with
  | none => seen
  | some p =>
    let met := walks (walkTarget target answers m.st.tree node subdir.name)
    if m.st.tree.nodes.length + p.1.nodes.length ≤ target.treeMaxDirectories then seen.graft m.st.tree.nodes.length met
    else seen.counted node fun inode => ∃ k, met k inode

end Merge

/-- What is known after a re-read: what its listing meets, and what the walks of new subdirectories do. -/
def relistSeen (target : Target) (answers : Answers) (st : TreeState) (node : Nat) (walks : Target → Seen) (seen : Seen) : Seen :=
  if !(st.tree.node node).alive || (st.tree.node node).isSealed then seen
  else match readListing target answers st node with
    | .error _ => seen
    | .ok listing =>
      let children := (st.tree.node node).children
      mergeNotes target answers node (Merge.addSeen target answers node walks) (children.length + listing.subdirs.length)
        children listing.subdirs (startMerge st node listing)
        (seen.reread node (Listing.meets target (st.tree.displayPathBytes node) st.tree.rootDev answers.opened))

/-! ## What is kept -/

/-- The record holds every file met, under the directory it was met in. -/
structure PlainKept (st : TreeState) (seen : Seen) : Prop extends Indexed st where
  placed : ∀ node inode, seen node inode → node < st.tree.nodes.length
  held : ∀ node inode, seen node inode → st.Holds (keyOf inode) node

/-- Two trees with as many directories, and nothing grafted to take over in one that is not in the other. -/
def SamePlain (t u : DirTree) : Prop := u.nodes.length = t.nodes.length ∧ u.plain = t.plain

theorem samePlain_frame : Frame SamePlain where
  refl _ := ⟨rfl, rfl⟩
  trans h h' := ⟨h'.1.trans h.1, h'.2.trans h.2⟩
  figures t i f _ := ⟨DirTree.length_modifyNode t i f, rfl⟩
  relinked _ _ := ⟨rfl, rfl⟩
  clamped _ _ := ⟨rfl, rfl⟩

theorem samePlain_detach (t : DirTree) (child : Nat) : SamePlain t (t.detach child).1 := by
  refine ⟨DirTree.length_detach t child, ?_⟩
  unfold DirTree.detach
  dsimp only
  split <;> rfl

theorem samePlain_touch (t : DirTree) (i : Nat) (a : Int) : SamePlain t (t.touch i a) := samePlain_frame.touch t i a

theorem samePlain_shareLinks (start : Nat) : ∀ (shared : List (Inode × List Nat)) (t : DirTree),
    SamePlain t (shared.foldl (shareLink start) t)
  | [], t => samePlain_frame.refl t
  | e :: shared, t => by
    have hone : SamePlain t (shareLink start t e) := by
      unfold shareLink
      split
      · exact samePlain_frame.relinked _ _
      · exact samePlain_frame.refl t
    exact samePlain_frame.trans hone (samePlain_shareLinks start shared _)

theorem plain_graft (t : DirTree) (under : Nat) (other : DirTree) :
    (t.graft under other).1.plain = t.plain ++ other.plain.map fun e => (e.1, e.2 + t.nodes.length) := by
  have htouch := (samePlain_touch (t.grown under other) under (other.node 0).newest).2
  show ((t.grown under other).touch under (other.node 0).newest).plain ++ _ = _
  rw [htouch]
  rfl

section Keeping

variable {st : TreeState} {seen : Seen}

/-- New figures, links and dead directories leave the record alone. -/
theorem Indexed.retree (h : Indexed st) {u : DirTree} (hu : SamePlain st.tree u) : Indexed { st with tree := u } :=
  ⟨h.sorted, h.agree, fun x hx => (h.below x hx).trans_eq hu.1.symm, hu.2.trans h.drained⟩

theorem PlainKept.retree (h : PlainKept st seen) {u : DirTree} (hu : SamePlain st.tree u) :
    PlainKept { st with tree := u } seen :=
  ⟨h.toIndexed.retree hu, fun i inode hs => (h.placed i inode hs).trans_eq hu.1.symm, h.held⟩

/-- Reading a directory again replaces what is known of it. -/
theorem PlainKept.setPlain (h : PlainKept st seen) {node : Nat} (hn : node < st.tree.nodes.length) {keys : List Nat}
    {met : Inode → Prop} (hm : ∀ inode, met inode → keyOf inode ∈ keys) :
    PlainKept (st.setPlain node keys) (seen.reread node met) := by
  obtain ⟨hi, hlive⟩ := h.toIndexed.setPlain hn keys
  refine ⟨hi, fun i inode hs => ?_, fun i inode hs => ?_⟩ <;> unfold Seen.reread at hs <;> split at hs
  · rename_i he
    rw [he]
    exact hn
  · exact h.placed i inode hs
  · rename_i he
    exact .inr ((hlive _ _).2 (by rw [if_pos he]; exact hm inode hs))
  · rename_i he
    exact (h.held i inode hs).imp id fun hl => (hlive _ _).2 (by rwa [if_neg he])

theorem PlainKept.addPlain (h : PlainKept st seen) {node : Nat} (hn : node < st.tree.nodes.length) {keys : List Nat}
    {met : Inode → Prop} (hm : ∀ inode, met inode → keyOf inode ∈ keys) :
    PlainKept (st.addPlain node keys) (seen.counted node met) := by
  obtain ⟨hi, hkept⟩ := h.toIndexed.addPlain hn keys
  refine ⟨hi, fun i inode hs => hs.elim (h.placed i inode) fun he => he.1 ▸ hn, fun i inode hs => ?_⟩
  rcases hs with hs | ⟨rfl, hs⟩
  · exact (h.held i inode hs).imp id (hkept _)
  · exact .inr ((mem_insertPairs _ _ _).2 (.inr (List.mem_map.2 ⟨_, hm inode hs, rfl⟩)))

/-- With nothing grafted, indexing adds nothing. -/
theorem PlainKept.indexNew (h : PlainKept st seen) (start : Nat) : PlainKept (st.indexNew start) seen := by
  have hno : ∀ x ∈ st.tree.plain, x.2 < st.tree.nodes.length ∧ ∀ y ∈ st.plainLive, y.2 ≠ x.2 := fun x hx => by
    rw [h.drained] at hx
    cases hx
  obtain ⟨hi, hlive⟩ := Indexed.indexNew start h.sorted h.agree h.below hno
  exact ⟨hi, h.placed, fun i inode hs => (h.held i inode hs).imp id fun hl => (hlive _).2 (.inl hl)⟩

/-- A grafted tree's record is taken over, renumbered. `u` is the tree after the graft, with links noted. -/
theorem PlainKept.graft (h : PlainKept st seen) {other u : DirTree} {met : Seen} (under : Nat)
    (hu : SamePlain (st.tree.graft under other).1 u) (hbelow : ∀ x ∈ other.plain, x.2 < other.nodes.length)
    (hmet : ∀ node inode, met node inode → (keyOf inode, node) ∈ other.plain) :
    PlainKept (({ st with tree := u } : TreeState).indexNew st.tree.nodes.length) (seen.graft st.tree.nodes.length met) := by
  have hlen : u.nodes.length = st.tree.nodes.length + other.nodes.length := hu.1.trans (DirTree.length_graft _ _ _)
  have hplain : u.plain = other.plain.map fun e => (e.1, e.2 + st.tree.nodes.length) := by
    rw [hu.2, plain_graft, h.drained, List.nil_append]
  have hnew : ∀ x ∈ u.plain, x.2 < u.nodes.length ∧ ∀ y ∈ st.plainLive, y.2 ≠ x.2 := fun x hx => by
    rw [hplain] at hx
    obtain ⟨e, he, rfl⟩ := List.mem_map.1 hx
    have := hbelow e he
    refine ⟨by rw [hlen]; show e.2 + st.tree.nodes.length < _; omega, fun y hy => ?_⟩
    have := h.below y hy
    show y.2 ≠ e.2 + st.tree.nodes.length
    omega
  obtain ⟨hi, hlive⟩ := @Indexed.indexNew { st with tree := u } st.tree.nodes.length h.sorted h.agree
    (fun x hx => (h.below x hx).trans_le (by show _ ≤ u.nodes.length; omega)) hnew
  refine ⟨hi, fun i inode hs => ?_, fun i inode hs => ?_⟩ <;> unfold Seen.graft at hs <;> split at hs
  · show i < u.nodes.length
    omega
  · have := hbelow _ (hmet _ _ hs)
    show i < u.nodes.length
    dsimp only at this
    omega
  · exact (h.held i inode hs).imp id fun hl => (hlive _).2 (.inl hl)
  · rename_i hge
    refine .inr ((hlive _).2 (.inr ?_))
    show (keyOf inode, i) ∈ u.plain
    rw [hplain]
    refine List.mem_map.2 ⟨_, hmet _ _ hs, Prod.ext rfl ?_⟩
    show i - st.tree.nodes.length + st.tree.nodes.length = i
    omega

end Keeping

/-! ## The re-read -/

/-- Every walk for fanotify comes back with all it met on record. -/
def Answers.SeenWalks (answers : Answers) (walks : Target → Seen) : Prop :=
  ∀ target tree, answers.walk target = some tree → target.collectHandles = true →
    Walk.PlainRecord tree.plain tree.nodes.length ∧ ∀ node inode, walks target node inode → (keyOf inode, node) ∈ tree.plain

section Relist

variable {target : Target} {answers : Answers} {node : Nat} {walks : Target → Seen} {st : TreeState} {seen : Seen}

theorem seen_walkNew (hw : answers.SeenWalks walks) (hf : answers.byHandle = true) {tree sub : DirTree} {parent : Nat}
    {name : Bytes} {shared : List (Inode × List Nat)} (h : walkNew target answers tree parent name = some (sub, shared)) :
    Walk.PlainRecord sub.plain sub.nodes.length ∧
      ∀ node inode, walks (walkTarget target answers tree parent name) node inode → (keyOf inode, node) ∈ sub.plain := by
  obtain ⟨found, hfound, rfl, -⟩ := walkNew_eq_some h
  have hnamed : SamePlain found (found.renameRoot name) := ⟨DirTree.length_modifyNode _ _ _, rfl⟩
  have hsame := samePlain_frame.trans hnamed (samePlain_frame.untakes (takenLinks tree (found.renameRoot name)) _)
  rw [hsame.1, hsame.2]
  exact hw _ _ hfound hf

/-- Each step of the merge keeps the record. -/
theorem kept_add (hw : answers.SeenWalks walks) (hf : answers.byHandle = true) (m : Merge) (subdir : Subdir)
    (h : node < m.st.tree.nodes.length ∧ PlainKept m.st seen) :
    node < (m.add target answers node subdir).st.tree.nodes.length ∧
      PlainKept (m.add target answers node subdir).st (m.addSeen target answers node walks subdir seen) := by
  obtain ⟨hn, h⟩ := h
  unfold Merge.add Merge.addSeen
  cases hwalk : walkNew target answers m.st.tree node subdir.name with
  | none => exact ⟨hn, h⟩
  | some p =>
    obtain ⟨sub, shared⟩ := p
    obtain ⟨hrecord, hmet⟩ := seen_walkNew hw hf hwalk
    dsimp only
    split
    · have hu := samePlain_shareLinks m.st.tree.nodes.length shared (m.st.tree.graft node sub).1
      refine ⟨?_, ?_⟩
      · show node < (shared.foldl (shareLink m.st.tree.nodes.length) (m.st.tree.graft node sub).1).nodes.length
        rw [hu.1, DirTree.length_graft]
        exact Nat.lt_add_right _ hn
      · have hg := h.graft node hu hrecord.below hmet
        exact ⟨⟨hg.sorted, hg.agree, hg.below, hg.drained⟩, hg.placed, hg.held⟩
    · have hsealed := h.retree (u := m.st.tree.modifyNode node fun n => { n with isSealed := true })
        ⟨DirTree.length_modifyNode _ _ _, rfl⟩
      have hkeys : ∀ inode, (∃ k, walks (walkTarget target answers m.st.tree node subdir.name) k inode) →
          keyOf inode ∈ sub.plain.map Prod.fst := by
        rintro inode ⟨k, hk⟩
        exact List.mem_map.2 ⟨_, hmet k inode hk, rfl⟩
      have hcount := hsealed.addPlain (by rw [DirTree.length_modifyNode]; exact hn) hkeys
      refine ⟨?_, ⟨⟨hcount.sorted, hcount.agree, hcount.below, hcount.drained⟩, hcount.placed, hcount.held⟩⟩
      show node < (m.st.tree.modifyNode node _).nodes.length
      rw [DirTree.length_modifyNode]
      exact hn

theorem kept_drop (m : Merge) (child : Nat) (h : node < m.st.tree.nodes.length ∧ PlainKept m.st seen) :
    node < (m.drop child).st.tree.nodes.length ∧ PlainKept (m.drop child).st seen := by
  have hs := samePlain_detach m.st.tree child
  refine ⟨?_, h.2.retree hs⟩
  rw [tree_drop, hs.1]
  exact h.1

theorem kept_keep (m : Merge) (child : Nat) (subdir : Subdir) (h : node < m.st.tree.nodes.length ∧ PlainKept m.st seen) :
    node < (m.keep child subdir).st.tree.nodes.length ∧ PlainKept (m.keep child subdir).st seen := by
  have hs : SamePlain m.st.tree (m.keep child subdir).st.tree := samePlain_frame.figures _ _ _ fun _ => rfl
  refine ⟨?_, h.2.retree hs⟩
  rw [hs.1]
  exact h.1

/-- When the subdirectories are merged the record holds what was met on the way. -/
theorem kept_merge (hw : answers.SeenWalks walks) (hf : answers.byHandle = true) (h : PlainKept st seen)
    (ha : (st.tree.node node).alive = true) {listing : Listing} (hl : readListing target answers st node = .ok listing) :
    PlainKept (mergeListing target answers st node listing).2.st
      (mergeNotes target answers node (Merge.addSeen target answers node walks)
        ((st.tree.node node).children.length + listing.subdirs.length) (st.tree.node node).children listing.subdirs
        (startMerge st node listing)
        (seen.reread node (Listing.meets target (st.tree.displayPathBytes node) st.tree.rootDev answers.opened))) := by
  have hn : node < st.tree.nodes.length := DirTree.lt_of_alive ha
  have hstart : PlainKept (startMerge st node listing).st
      (seen.reread node (Listing.meets target (st.tree.displayPathBytes node) st.tree.rootDev answers.opened)) := by
    have hlinked := h.retree (samePlain_frame.relinked st.tree ((settleListed st.tree node listing.links listing.direct).kept node))
    unfold readListing at hl
    rw [hf] at hl
    exact hlinked.setPlain hn fun inode hm => Listing.plain_readDirect hl hm
  exact (mergeNotes_rule (P := fun m seen => node < m.st.tree.nodes.length ∧ PlainKept m.st seen)
    (fun m child subdir _ => kept_keep m child subdir) (fun m child _ => kept_drop m child)
    (fun m subdir _ => kept_add hw hf m subdir) _ _ _ _ _ ⟨hn, hstart⟩).2

/-- A re-read keeps the record. -/
theorem kept_relist (hw : answers.SeenWalks walks) (hf : answers.byHandle = true) (h : PlainKept st seen) :
    PlainKept (relist target answers st node).1 (relistSeen target answers st node walks seen) := by
  unfold relist relistSeen
  split
  · exact h
  · rename_i hread
    rw [Bool.or_eq_true, Bool.not_eq_true', not_or, Bool.not_eq_false, Bool.not_eq_true] at hread
    cases hl : readListing target answers st node with
    | error error =>
      dsimp only
      split
      · split <;> exact h
      · exact h
    | ok listing => exact (kept_merge hw hf h hread.1 hl).retree (samePlain_frame.applyAll target answers st node listing)

end Relist

/-! ## Who is told -/

/-- A directory is asked to be read again, or where that cannot be, a scan is asked for. -/
def Told (tree : DirTree) (node holder : Nat) (out : Outcome) : Prop :=
  ((tree.node holder).isSealed = true → out.rescan = true) ∧
    ((tree.node holder).isSealed = false → holder ≠ node → holder ∈ out.requeue)

/-- One holder asked for in `adopt`. -/
def askHolder (st : TreeState) (node : Nat) (out : Outcome) (holder : Nat) : Outcome :=
  if (st.tree.node holder).alive && !(st.tree.node holder).isSealed && holder ≠ node && !out.requeue.contains holder then
    { out with requeue := out.requeue ++ [holder] }
  else out

/-- One file of `adopt`. -/
def adoptOne (st : TreeState) (node : Nat) (out : Outcome) (inode : Inode) : Outcome :=
  (st.plainHolders inode).foldl (askHolder st node) { out with rescan := out.rescan || st.countedOutOfReach inode }

theorem adopt_eq (st : TreeState) (node : Nat) (adopted : List Inode) (out : Outcome) :
    adopt st node adopted out = adopted.foldl (adoptOne st node) out := rfl

section Told

variable {st : TreeState} {node holder : Nat}

theorem told_askHolder {out : Outcome} (h : Told st.tree node holder out) (other : Nat) :
    Told st.tree node holder (askHolder st node out other) := by
  unfold askHolder
  split
  · exact ⟨h.1, fun hs hn => List.mem_append_left _ (h.2 hs hn)⟩
  · exact h

theorem told_asks {out : Outcome} (h : Told st.tree node holder out) (holders : List Nat) :
    Told st.tree node holder (holders.foldl (askHolder st node) out) :=
  List.foldlRecOn holders _ h fun _ h other _ => told_askHolder h other

theorem told_adoptOne {out : Outcome} (h : Told st.tree node holder out) (inode : Inode) :
    Told st.tree node holder (adoptOne st node out inode) := by
  have hasked : Told st.tree node holder { out with rescan := out.rescan || st.countedOutOfReach inode } :=
    ⟨fun hs => by rw [h.1 hs, Bool.true_or], h.2⟩
  exact told_asks hasked _

theorem rescan_askHolder (out : Outcome) (other : Nat) : (askHolder st node out other).rescan = out.rescan := by
  unfold askHolder
  split <;> rfl

theorem rescan_asks : ∀ (holders : List Nat) (out : Outcome), (holders.foldl (askHolder st node) out).rescan = out.rescan
  | [], _ => rfl
  | other :: holders, out => (rescan_asks holders _).trans (rescan_askHolder out other)

/-- A holder that can be read again is asked for where its turn comes. -/
theorem mem_askHolder (ha : (st.tree.node holder).alive = true) (hs : (st.tree.node holder).isSealed = false) (hn : holder ≠ node)
    (out : Outcome) : holder ∈ (askHolder st node out holder).requeue := by
  unfold askHolder
  split
  · exact List.mem_append_right _ (List.mem_singleton_self _)
  · rename_i hno
    by_contra hnot
    exact hno (by simp [ha, hs, hn, hnot])

/-- Adopting a file tells every alive directory on record for it. -/
theorem told_adopt {adopted : List Inode} (out : Outcome) {inode : Inode} (hi : inode ∈ adopted)
    (hh : holder ∈ st.plainHolders inode) (ha : (st.tree.node holder).alive = true) :
    Told st.tree node holder (adopt st node adopted out) := by
  -- what is told stays told over the holders and the files that follow
  obtain ⟨before, after, rfl⟩ := List.append_of_mem hi
  rw [adopt_eq, List.foldl_append, List.foldl_cons]
  refine List.foldlRecOn after _ ?_ fun _ h other _ => told_adoptOne h other
  obtain ⟨first, last, hsplit⟩ := List.append_of_mem hh
  unfold adoptOne
  rw [hsplit, List.foldl_append, List.foldl_cons]
  refine told_asks ⟨fun hs => ?_, fun hs hn => mem_askHolder ha hs hn _⟩ last
  have hreach : st.countedOutOfReach inode = true := by
    unfold TreeState.countedOutOfReach
    rw [Bool.or_eq_true, List.any_eq_true]
    exact .inr ⟨holder, hh, by rw [ha, hs]; rfl⟩
  rw [rescan_askHolder, rescan_asks]
  show (_ || st.countedOutOfReach inode) = true
  rw [hreach, Bool.or_true]

end Told

/-! ## Runs -/

/-- Every tree a walk comes back with is a scan's, and `walks` tells what the scan met. -/
def Answers.SeenScans (answers : Answers) (walks : Target → Seen) : Prop :=
  ∀ target tree, answers.walk target = some tree → ∃ host hash, Walk.SeenScan host target hash tree (walks target)

theorem Answers.SeenScans.recorded {answers : Answers} {walks : Target → Seen} (h : answers.SeenScans walks) :
    answers.SeenWalks walks := by
  intro target tree hw hc
  obtain ⟨host, hash, hs⟩ := h target tree hw
  exact hs.recorded hc

/-- The states of a target that follows fanotify, each with the singly linked files its directories'
last reads met. -/
inductive PlainRun : TreeState → Seen → Prop
  | scan {host : Host} {target : Target} {hash : Bytes → Nat} {t : DirTree} {seen : Seen}
      (h : Walk.SeenScan host target hash t seen) (hc : target.collectHandles = true) (generation : Nat) :
      PlainRun (TreeState.new t generation) seen
  | relist {st : TreeState} {seen : Seen} (h : PlainRun st seen) (target : Target) (answers : Answers) (node : Nat)
      (walks : Target → Seen) (hf : answers.byHandle = true) (hw : answers.SeenScans walks) :
      PlainRun (relist target answers st node).1 (relistSeen target answers st node walks seen)
  | setPlain {st : TreeState} {seen : Seen} (h : PlainRun st seen) {node : Nat} (hn : node < st.tree.nodes.length) {keys : List Nat}
      {met : Inode → Prop} (hm : ∀ inode, met inode → keyOf inode ∈ keys) :
      PlainRun (st.setPlain node keys) (seen.reread node met)
  | addPlain {st : TreeState} {seen : Seen} (h : PlainRun st seen) {node : Nat} (hn : node < st.tree.nodes.length) {keys : List Nat}
      {met : Inode → Prop} (hm : ∀ inode, met inode → keyOf inode ∈ keys) :
      PlainRun (st.addPlain node keys) (seen.counted node met)
  | indexNew {st : TreeState} {seen : Seen} (h : PlainRun st seen) (start : Nat) : PlainRun (st.indexNew start) seen
  | graft {st : TreeState} {seen : Seen} (h : PlainRun st seen) {host : Host} {target : Target} {hash : Bytes → Nat} {other : DirTree}
      {met : Seen} (ho : Walk.SeenScan host target hash other met) (hc : target.collectHandles = true) (under : Nat) :
      PlainRun (({ st with tree := (st.tree.graft under other).1 } : TreeState).indexNew st.tree.nodes.length)
        (seen.graft st.tree.nodes.length met)

/-- Every step of a run keeps the record. -/
theorem plainKept_of_run {st : TreeState} {seen : Seen} (h : PlainRun st seen) : PlainKept st seen := by
  induction h with
  | scan h hc generation =>
    obtain ⟨hrecord, hmet⟩ := h.recorded hc
    refine ⟨⟨hrecord.sorted, fun key node => ?_, fun x hx => absurd hx List.not_mem_nil, rfl⟩,
      fun node inode hs => hrecord.below _ (hmet node inode hs), fun node inode hs => .inl (hmet node inode hs)⟩
    exact ⟨fun hx => absurd hx List.not_mem_nil, fun hx => absurd hx List.not_mem_nil⟩
  | relist h target answers node walks hf hw ih => exact kept_relist hw.recorded hf ih
  | setPlain h hn hm ih => exact ih.setPlain hn hm
  | addPlain h hn hm ih => exact ih.addPlain hn hm
  | indexNew h start ih => exact ih.indexNew start
  | graft h ho hc under ih =>
    obtain ⟨hrecord, hmet⟩ := ho.recorded hc
    exact ih.graft under (samePlain_frame.refl _) hrecord.below hmet

/-- A re-read counts this file in the directory or in a grafted one, as a link the tree did not know. -/
def Adopts (target : Target) (answers : Answers) (st : TreeState) (node : Nat) (inode : Inode) : Prop :=
  (st.tree.node node).alive = true ∧ (st.tree.node node).isSealed = false ∧
    ∃ listing, readListing target answers st node = .ok listing ∧ inode ∈ (mergeListing target answers st node listing).2.adopted

/-- No directory that counts a singly linked file is missed when the file gains a link. -/
structure HoldersKnown (st : TreeState) (seen : Seen) : Prop where
  holders : ∀ node inode, (st.tree.node node).alive = true → seen node inode → node ∈ st.plainHolders inode
  /-- Both ways of storing what re-reads found hold the same pairs. -/
  agree : ∀ key node, (key, node) ∈ st.plainLive ↔ ∃ keys, st.plainByNode.get node = some keys ∧ key ∈ keys
  /-- A re-read that adopts the file tells every alive directory where it was met, as of that re-read. -/
  told : ∀ target answers node walks, answers.byHandle = true → answers.SeenScans walks →
    ∀ inode, Adopts target answers st node inode → ∀ holder, relistSeen target answers st node walks seen holder inode →
      ((relist target answers st node).1.tree.node holder).alive = true →
      Told (relist target answers st node).1.tree node holder (relist target answers st node).2
  /-- As of that re-read everything is known that was known of other directories. -/
  others : ∀ target answers node walks holder inode, holder ≠ node → seen holder inode →
    relistSeen target answers st node walks seen holder inode

/-- Two trees with the same directories alive and sealed. -/
def SameState (t u : DirTree) : Prop := ∀ i, (u.node i).alive = (t.node i).alive ∧ (u.node i).isSealed = (t.node i).isSealed

theorem sameState_frame : Frame SameState where
  refl _ _ := ⟨rfl, rfl⟩
  trans h h' i := ⟨(h' i).1.trans (h i).1, (h' i).2.trans (h i).2⟩
  figures t i f hf j := by
    rw [DirTree.node_modifyNode]
    split
    · have halive := congrArg DirNode.alive (hf (t.node j))
      have hsealed := congrArg DirNode.isSealed (hf (t.node j))
      exact ⟨halive, hsealed⟩
    · exact ⟨rfl, rfl⟩
  relinked _ _ _ := ⟨rfl, rfl⟩
  clamped _ _ _ := ⟨rfl, rfl⟩

/-- Handing links on only adds to what is asked for. -/
theorem requeue_hands (node : Nat) (here : List Inode) {holder : Nat} : ∀ (links : List (Inode × LinkOwner)) (h : Handing),
    holder ∈ h.requeue → holder ∈ (links.foldl (Handing.hand node here) h).requeue
  | [], _, hm => hm
  | link :: links, h, hm => by
    refine requeue_hands node here links _ ?_
    unfold Handing.hand
    dsimp only
    generalize Delta.size (asI64 link.2.blocks) (asI64 link.2.apparent) = size
    split
    · split
      · exact hm
      · split
        · exact hm
        · dsimp only
          split
          · exact List.mem_append_left _ hm
          · exact hm
    · split
      · exact hm
      · dsimp only
        split
        · exact List.mem_append_left _ hm
        · exact hm

section Runs

variable {target : Target} {answers : Answers} {node : Nat} {walks : Target → Seen} {st : TreeState} {seen : Seen}

/-- A re-read that adopts a file tells every other directory on record for it. -/
theorem told_relist (hw : answers.SeenWalks walks) (hf : answers.byHandle = true) (h : PlainKept st seen) {inode : Inode}
    (had : Adopts target answers st node inode) {holder : Nat} (hs : relistSeen target answers st node walks seen holder inode)
    (ha : ((relist target answers st node).1.tree.node holder).alive = true) :
    Told (relist target answers st node).1.tree node holder (relist target answers st node).2 := by
  obtain ⟨halive, hopen, listing, hl, hi⟩ := had
  have hread : ¬(!(st.tree.node node).alive || (st.tree.node node).isSealed) = true := by rw [halive, hopen]; exact Bool.false_ne_true
  have hstate := sameState_frame.applyAll target answers st node listing holder
  have hmerged := kept_merge hw hf h halive hl
  unfold relistSeen at hs
  rw [if_neg hread, hl] at hs
  unfold relist at ha ⊢
  rw [if_neg hread, hl] at ha ⊢
  dsimp only at ha ⊢
  rw [hstate.1] at ha
  have htold : Told _ node holder _ := told_adopt { requeue := (mergeListing target answers st node listing).2.requeue
                                                    rescan := (mergeListing target answers st node listing).2.rescan } hi
    ((mem_plainHolders hmerged.toIndexed).2 (hmerged.held holder inode hs)) ha
  refine ⟨fun hsealed => ?_, fun hsealed hn => ?_⟩
  · rw [hstate.2] at hsealed
    exact Bool.or_eq_true_iff.2 (.inl (htold.1 hsealed))
  · rw [hstate.2] at hsealed
    exact requeue_hands node _ _ _ (htold.2 hsealed hn)

/-- Reading a directory again leaves what is known of others alone. -/
theorem seen_others (h : PlainKept st seen) {holder : Nat} {inode : Inode} (hn : holder ≠ node) (hs : seen holder inode) :
    relistSeen target answers st node walks seen holder inode := by
  unfold relistSeen
  split
  · exact hs
  · cases readListing target answers st node with
    | error error => exact hs
    | ok listing =>
      refine (mergeNotes_rule (P := fun m (notes : Seen) => st.tree.nodes.length ≤ m.st.tree.nodes.length ∧ notes holder inode)
        (fun m child subdir _ hp => ⟨hp.1.trans_eq (DirTree.length_modifyNode _ _ _).symm, hp.2⟩)
        (fun m child _ hp => ⟨hp.1.trans_eq (DirTree.length_detach m.st.tree child).symm, hp.2⟩)
        (fun m subdir (notes : Seen) hp => ?_) _ _ _ _ _ ⟨le_rfl, ?_⟩).2
      · have hlt : holder < m.st.tree.nodes.length := (h.placed holder inode hs).trans_le hp.1
        unfold Merge.add Merge.addSeen
        cases walkNew target answers m.st.tree node subdir.name with
        | none => exact hp
        | some p =>
          dsimp only
          split
          · refine ⟨?_, by unfold Seen.graft; rw [if_pos hlt]; exact hp.2⟩
            show _ ≤ (p.2.foldl (shareLink m.st.tree.nodes.length) (m.st.tree.graft node p.1).1).nodes.length
            rw [(samePlain_shareLinks _ _ _).1, DirTree.length_graft]
            exact hp.1.trans (Nat.le_add_right _ _)
          · exact ⟨hp.1.trans_eq (DirTree.length_modifyNode _ _ _).symm, .inl hp.2⟩
      · unfold Seen.reread
        rw [if_neg hn]
        exact hs

/-- On a target that follows fanotify throughout, no holder of a file that gains a link is missed. -/
theorem holders_known (h : PlainRun st seen) : HoldersKnown st seen := by
  have hkept := plainKept_of_run h
  refine ⟨fun node inode _ hs => (mem_plainHolders hkept.toIndexed).2 (hkept.held node inode hs), fun key node => ?_,
    fun target answers node walks hf hw inode had holder hs ha => told_relist hw.recorded hf hkept had hs ha,
    fun target answers node walks holder inode hn hs => seen_others hkept hn hs⟩
  rw [hkept.agree]
  cases st.plainByNode.get node with
  | none => simp
  | some keys => simp

end Runs

/-! ## A file met, then linked -/

open Walk

/-- A target that follows fanotify, walked by one worker, without a cap, and not excluded itself. -/
def followedTarget (target : Target) : Bool :=
  !excludesRoot target && target.collectHandles && decide (target.maxDepth = none) && !target.scanPath.contains 0 &&
    target.scanThreads = 1

theorem seenScan_emptyDir {target : Target} (h : followedTarget target = true) (ino : Nat) :
    ∃ seen, SeenScan (statHost (emptyDir ino)) target List.length (statTree target (emptyDir ino)) seen := by
  unfold followedTarget at h
  simp only [Bool.and_eq_true, Bool.not_eq_true', decide_eq_true_eq, List.contains_eq_mem, decide_eq_false_iff_not] at h
  obtain ⟨⟨⟨⟨hx, hc⟩, hm⟩, hz⟩, hn⟩ := h
  obtain ⟨displayPath, scanPath, exclude, follow, cross, mode, depth, cap, threads, most, handles⟩ := target
  dsimp only at hc hm hn
  subst hc hm hn
  have h0 : Walking (statHost (emptyDir ino))
      (start ⟨displayPath, scanPath, exclude, follow, cross, mode, depth, none, 1, most, true⟩ (emptyDir ino) List.length)
      (emptyDir ino) none (n := 0) _ := .initial false
  have h1 := WorkPool.Reachable.step h0 (.worker (.spawnDone (i := 0) rfl (by decide)))
  have h2 := WorkPool.Reachable.step h1 (.worker (.retire (i := 0) rfl))
  have h3 := WorkPool.Reachable.step h2 (.worker (.more (i := 0) rfl (.opened rfl)))
  have h4 := WorkPool.Reachable.step h3 (.worker (.done (i := 0) rfl (.closed rfl rfl)))
  have h5 := WorkPool.Reachable.step h4 (.worker (.retire (i := 0) rfl))
  have hover : ∀ i : Fin 1, i = 0 := Fin.fin_one_eq_zero
  have hscan : Scans (statHost (emptyDir ino))
      ⟨displayPath, scanPath, exclude, follow, cross, mode, depth, none, 1, most, true⟩ List.length (.ok _) :=
    .walked rfl hx rfl (show RootHandle (statHost (emptyDir ino)) _ none from rfl) (by simp) hz rfl h5
      (fun i => by rw [hover i]; rfl)
  exact tracedScan_of_scan (noter Progress.meets) hscan rfl

/-- A scan of `/d` for fanotify. -/
def handleTarget : Target := { emptyWalk.target with collectHandles := true }

/-- A file with one link and a new subdirectory appear in `/d`. -/
def singleAnswers : Answers where
  byHandle := true
  opened := .ok (emptyDir 2, { entries := [droppedEntry, { name := [121], stat := .ok (emptyDir 5), handle := none }], fail := none })
  dirHandle _ := none
  walk target := if followedTarget target then some (statTree target (emptyDir 5)) else none

def relinkedEntry : Entry :=
  { name := [122], stat := .ok { kind := .file, dev := 1, ino := 3, nlink := 2, blocks := 4096, size := 10, mtime := 0 }, handle := none }

/-- The file gains a link in the subdirectory. -/
def linkedAnswers : Answers :=
  { singleAnswers with opened := .ok (emptyDir 5, { entries := [relinkedEntry], fail := none }) }

theorem seenScans_single : ∃ walks, singleAnswers.SeenScans walks := by
  refine ⟨fun target => if h : followedTarget target = true then (seenScan_emptyDir h 5).choose else fun _ _ => False,
    fun target tree he => ?_⟩
  unfold singleAnswers at he
  dsimp only at he ⊢
  split at he
  · rename_i hf
    cases he
    rw [dif_pos hf]
    exact ⟨_, _, (seenScan_emptyDir hf 5).choose_spec⟩
  · cases he

/-- `/d` with the file and the subdirectory. -/
def metState : TreeState := (relist handleTarget singleAnswers (TreeState.new (statTree handleTarget (emptyDir 2)) 1) 0).1

/-- A file that appears after the scan is on record once the directory is read again; and when another
directory is found to link it, the first one is asked for. -/
theorem holders_known_single : ∃ seen, HoldersKnown metState seen ∧ seen 0 (1, 3) ∧ 0 ∈ metState.plainHolders (1, 3) ∧
    Adopts handleTarget linkedAnswers metState 1 (1, 3) ∧ 0 ∈ (relist handleTarget linkedAnswers metState 1).2.requeue := by
  obtain ⟨seen, hs⟩ := @seenScan_emptyDir handleTarget (by decide) 2
  obtain ⟨walks, hw⟩ := seenScans_single
  have hrun := (PlainRun.scan hs rfl 1).relist handleTarget singleAnswers 0 walks rfl hw
  have hmet : relistSeen handleTarget singleAnswers (TreeState.new (statTree handleTarget (emptyDir 2)) 1) 0 walks seen 0 (1, 3) :=
    ⟨_, _, rfl, droppedEntry, List.mem_cons_self .., rfl, rfl, _, rfl, rfl, rfl, Nat.le_refl 1, rfl⟩
  have hknown := holders_known hrun
  have hadopts : Adopts handleTarget linkedAnswers metState 1 (1, 3) := ⟨by decide, by decide, _, rfl, by decide⟩
  have htold := hknown.told handleTarget linkedAnswers 1 walks rfl hw (1, 3) hadopts 0 (hknown.others _ _ _ _ _ _ (by decide) hmet) (by decide)
  exact ⟨_, hknown, hmet, hknown.holders 0 _ (by decide) hmet, hadopts, htold.2 (by decide) (by decide)⟩

end StorageHarvester
