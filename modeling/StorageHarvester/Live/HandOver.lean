/-
A shared file is handed over when its directory no longer lists it, or goes with its subtree. As long
as some directory known to list it is there when the re-read is over, one of them owns it; it counts
the file, and is read again where the re-read chose it.
-/
import StorageHarvester.Live.Counted
import StorageHarvester.Live.PastCap

namespace StorageHarvester

open Forest

/-! ## Who is known to list a file -/

/-- A directory is on record for a file: as its owner, or as another holder. -/
def OnRecord (links : Table Inode LinkOwner) (inode : Inode) (holder : Nat) : Prop :=
  ∃ owner, links.get inode = some owner ∧ holder ∈ owner.node :: owner.others

/-- On record, or among the holders of a link about to be handed on. -/
def Merge.Knows (m : Merge) (inode : Inode) (holder : Nat) : Prop :=
  OnRecord m.st.tree.links inode holder ∨ ∃ owner, (inode, owner) ∈ m.handed ∧ holder ∈ owner.others

/-- A file bound anew keeps every holder on record, if the new record does. -/
theorem OnRecord.put {links : Table Inode LinkOwner} {inode inode' : Inode} {holder : Nat} (h : OnRecord links inode holder)
    {owner : LinkOwner} (ho : ∀ old, links.get inode' = some old → holder ∈ old.node :: old.others → holder ∈ owner.node :: owner.others) :
    OnRecord (links.put inode' owner) inode holder := by
  obtain ⟨old, hget, hm⟩ := h
  by_cases hi : inode = inode'
  · subst hi
    exact ⟨owner, by rw [Table.get_put, if_pos rfl], ho old hget hm⟩
  · exact ⟨old, by rw [Table.get_put, if_neg hi]; exact hget, hm⟩

section Settle

variable {tree : DirTree} {node : Nat}

/-- Settling a listed file forgets no holder. -/
theorem onRecord_settle {s : Settling} (ha : AliveIn tree s.links) (link : ListedLink) {inode : Inode} {holder : Nat}
    (h : OnRecord s.links inode holder) : OnRecord (s.settle tree node link).links inode holder := by
  unfold Settling.settle
  dsimp only
  split
  · exact h
  · split
    · rename_i owner hget
      split
      · exact h.put fun old hold hm => by cases hget.symm.trans hold; exact hm
      · rw [if_pos (ha link.inode owner hget)]
        have hnoted : ∀ d ∈ owner.node :: owner.others, d ∈ (if owner.others.contains node then owner else
            { owner with others := owner.others ++ [node] }).node :: (if owner.others.contains node then owner else
            { owner with others := owner.others ++ [node] }).others := by
          intro d hd
          split
          · exact hd
          · exact List.mem_cons.2 ((List.mem_cons.1 hd).imp id fun hd => List.mem_append_left _ hd)
        generalize (if owner.others.contains node then owner else { owner with others := owner.others ++ [node] }) = noted at hnoted ⊢
        generalize Delta.size (subI64 link.blocks noted.blocks) (subI64 link.apparent noted.apparent) = change
        split
        · exact h.put fun old hold hm => by cases hget.symm.trans hold; exact hnoted holder hm
        · exact h.put fun old hold hm => by cases hget.symm.trans hold; exact hnoted holder hm
    · rename_i hget
      exact h.put fun old hold _ => by cases hget.symm.trans hold

theorem onRecord_settleListed (hn : (tree.node node).alive = true) {inode : Inode} {holder : Nat} : ∀ (listed : List ListedLink)
    (s : Settling), AliveIn tree s.links → OnRecord s.links inode holder →
      OnRecord (listed.foldl (Settling.settle tree node) s).links inode holder
  | [], _, _, h => h
  | link :: listed, s, ha, h =>
    onRecord_settleListed hn listed _ (aliveIn_settle hn s link ha) (onRecord_settle ha link h)

theorem here_settle (s : Settling) (link : ListedLink) (inode : Inode) :
    inode ∈ (s.settle tree node link).here ↔ inode ∈ s.here ∨ inode = link.inode := by
  unfold Settling.settle
  dsimp only
  split
  · rename_i hc
    have hm : link.inode ∈ s.here := List.contains_iff_mem.1 hc
    exact ⟨.inl, fun h => h.elim id fun he => he ▸ hm⟩
  · have hadd : inode ∈ s.here ++ [link.inode] ↔ inode ∈ s.here ∨ inode = link.inode := by
      rw [List.mem_append, List.mem_singleton]
    split
    · rename_i owner _
      split
      · exact hadd
      · generalize (if owner.others.contains node then owner else { owner with others := owner.others ++ [node] }) = noted
        generalize Delta.size (subI64 link.blocks noted.blocks) (subI64 link.apparent noted.apparent) = change
        split
        · split <;> exact hadd
        · exact hadd
    · exact hadd

/-- The inodes settled are those listed. -/
theorem mem_here (inode : Inode) : ∀ (listed : List ListedLink) (s : Settling),
    inode ∈ (listed.foldl (Settling.settle tree node) s).here ↔ inode ∈ s.here ∨ ∃ link ∈ listed, link.inode = inode
  | [], s => by simp
  | link :: listed, s => by
    rw [List.foldl_cons, mem_here inode listed, here_settle, List.exists_mem_cons_iff, or_assoc, eq_comm (a := link.inode)]

end Settle

section Merge

variable {target : Target} {answers : Answers} {node : Nat} {all subdirs subdirs' : List Subdir} {children children' : List Nat}
  {m m' : Merge} {inode : Inode} {holder : Nat}

/-- When the merge starts, every holder is known that still counts as one. -/
theorem knows_start {st : TreeState} (listing : Listing) (hn : (st.tree.node node).alive = true) (ho : st.tree.OwnersAlive)
    (h : OnRecord st.tree.links inode holder) (hc : holder ≠ node ∨ ∃ link ∈ listing.links, link.inode = inode) :
    (startMerge st node listing).Knows inode holder := by
  obtain ⟨owner, hget, hm⟩ : OnRecord (settleListed st.tree node listing.links listing.direct).links inode holder :=
    onRecord_settleListed hn listing.links _ ho h
  have hhere : inode ∈ (settleListed st.tree node listing.links listing.direct).here ↔ ∃ link ∈ listing.links, link.inode = inode :=
    (mem_here inode listing.links _).trans (or_iff_right List.not_mem_nil)
  show OnRecord ((settleListed st.tree node listing.links listing.direct).kept node) inode holder ∨
    ∃ owner, (inode, owner) ∈ (settleListed st.tree node listing.links listing.direct).handed node ∧ holder ∈ owner.others
  generalize settleListed st.tree node listing.links listing.direct = s at *
  cases hs : s.here.contains inode with
  | true =>
    refine .inl ⟨owner, ?_, hm⟩
    unfold Settling.kept
    rw [Table.get_retain, hget, Option.bind_some, if_pos hs]
  | false =>
    have hne : holder ≠ node := hc.resolve_right fun hl => by
      rw [List.contains_iff_mem.2 (hhere.2 hl)] at hs
      cases hs
    by_cases hon : owner.node = node
    · refine .inr ⟨owner, List.mem_filter.2 ⟨Table.get_eq_some.1 hget, ?_⟩, (List.mem_cons.1 hm).resolve_left fun he => hne (he.trans hon)⟩
      rw [hs, decide_eq_true hon]
      rfl
    · refine .inl ⟨{ owner with others := owner.others.filter (· ≠ node) }, ?_, ?_⟩
      · unfold Settling.kept
        rw [Table.get_retain, hget, Option.bind_some, hs, if_neg Bool.false_ne_true, if_neg hon]
      · refine List.mem_cons.2 ((List.mem_cons.1 hm).imp id fun hm => List.mem_filter.2 ⟨hm, ?_⟩)
        simpa using hne

theorem onRecord_shareLinks (start : Nat) : ∀ (shared : List (Inode × List Nat)) (t : DirTree), OnRecord t.links inode holder →
    OnRecord (shared.foldl (shareLink start) t).links inode holder
  | [], _, h => h
  | e :: shared, t, h => by
    refine onRecord_shareLinks start shared _ ?_
    unfold shareLink
    split
    · rename_i owner hget
      refine h.put fun old hold hm => ?_
      cases hget.symm.trans hold
      exact List.mem_cons.2 ((List.mem_cons.1 hm).imp id fun hm => List.mem_append_left _ hm)
    · exact h

/-- A link noted for a file that is counted puts its holders on record. -/
theorem onRecord_shared {start : Nat} {holders : List Nat} (hh : holder ∈ holders) : ∀ (shared : List (Inode × List Nat)) (t : DirTree),
    (∃ owner, t.links.get inode = some owner) → (inode, holders) ∈ shared →
    OnRecord (shared.foldl (shareLink start) t).links inode (holder + start)
  | [], _, _, hm => absurd hm List.not_mem_nil
  | e :: shared, t, ⟨owner, hget⟩, hm => by
    rw [List.foldl_cons]
    rcases List.mem_cons.1 hm with rfl | hm
    · refine onRecord_shareLinks start shared _ ⟨{ owner with others := owner.others ++ holders.map (· + start) }, ?_,
        List.mem_cons_of_mem _ (List.mem_append_right _ (List.mem_map.2 ⟨holder, hh, rfl⟩))⟩
      unfold shareLink
      rw [hget]
      exact Table.get_put_self _ _ _
    · refine onRecord_shared hh shared _ ?_ hm
      have hrec : OnRecord (shareLink start t e).links inode owner.node :=
        onRecord_shareLinks start [e] t ⟨owner, hget, List.mem_cons_self ..⟩
      obtain ⟨owner', hget', -⟩ := hrec
      exact ⟨owner', hget'⟩

theorem handed_drop (m : Merge) (child : Nat) : (m.drop child).handed = m.handed ++ (m.st.tree.detach child).2 := rfl

/-- A step forgets no holder that is alive after it. -/
theorem knows_step (hm : Merging node all children subdirs m)
    (hstep : MergeStep target answers node all children subdirs m children' subdirs' m')
    (ha : (m'.st.tree.node holder).alive = true) (hk : m.Knows inode holder) : m'.Knows inode holder := by
  cases hstep with
  | keep hname hsame => exact hk
  | @drop child _ _ _ hgone =>
    obtain ⟨hca, hcp, -, -⟩ := hm.child
    rw [tree_drop] at ha
    have hpruned : ∀ owner : LinkOwner, holder ∈ owner.others → holder ∈ ((m.st.tree.detach child).1.pruneOthers owner).others :=
      fun owner ho => List.mem_filter.2 ⟨ho, ha⟩
    rcases hk with ⟨owner, hget, ho⟩ | ⟨owner, hmem, ho⟩
    · cases hao : ((m.st.tree.detach child).1.node owner.node).alive with
      | true =>
        refine .inl ⟨(m.st.tree.detach child).1.pruneOthers owner, ?_, ?_⟩
        · rw [tree_drop, DirTree.links_detach hcp, Table.get_retain, hget, Option.bind_some, if_pos hao]
        · exact List.mem_cons.2 ((List.mem_cons.1 ho).imp id (hpruned owner))
      | false =>
        have hmem : (inode, (m.st.tree.detach child).1.pruneOthers owner) ∈ (m.st.tree.detach child).2 := by
          rw [DirTree.handed_detach hcp]
          exact List.mem_filterMap.2 ⟨(inode, owner), Table.get_eq_some.1 hget, if_neg (by rw [hao]; exact Bool.false_ne_true)⟩
        refine .inr ⟨_, by rw [handed_drop]; exact List.mem_append_right _ hmem, hpruned owner ?_⟩
        refine (List.mem_cons.1 ho).resolve_left fun he => ?_
        rw [he, hao] at ha
        cases ha
    · exact .inr ⟨owner, by rw [handed_drop]; exact List.mem_append_left _ hmem, ho⟩
  | @add _ subdir _ _ hfresh =>
    rcases add_cases target answers node m subdir with he | ⟨sub, shared, hsub, -, hh, he | ⟨t, rfl, he⟩⟩
    · rw [he]
      exact hk
    · unfold Merge.Knows
      rw [hh, he]
      exact hk
    · unfold Merge.Knows
      rw [hh, he]
      refine hk.imp (fun ⟨owner, hget, ho⟩ => onRecord_shareLinks _ shared _ ⟨owner, ?_, ho⟩) id
      rw [DirTree.links_graft, Table.get_foldl_putNew, hget]
      rfl

/-- A directory that is there after a step was there before, or came with it. -/
theorem alive_step (hw : answers.FreshWalks) (hm : Merging node all children subdirs m)
    (hstep : MergeStep target answers node all children subdirs m children' subdirs' m') {i : Nat} (hi : i < m.st.tree.nodes.length) :
    m.st.tree.nodes.length ≤ m'.st.tree.nodes.length ∧ ((m'.st.tree.node i).alive = true → (m.st.tree.node i).alive = true) := by
  cases hstep with
  | @keep child _ subdir _ _ hname hsame =>
    have hs := sameShape_keep m child subdir
    exact ⟨hs.length.ge, fun ha => by rwa [hs.alive] at ha⟩
  | @drop child _ _ _ hgone =>
    obtain ⟨hca, hcp, -, -⟩ := hm.child
    exact ⟨(DirTree.length_detach m.st.tree child).ge, fun ha => ((hm.shape.alive_detach hca hcp i).1 ha).1⟩
  | @add _ subdir _ _ hfresh =>
    rcases add_cases target answers node m subdir with he | ⟨sub, shared, hsub, -, -, he | ⟨t, rfl, he⟩⟩
    · rw [he]
      exact ⟨le_rfl, id⟩
    · have hs := DirTree.sameShape_modifyNode m.st.tree node (f := fun n => { n with isSealed := true }) fun _ => rfl
      rw [he]
      exact ⟨hs.length.ge, fun ha => by rwa [hs.alive] at ha⟩
    · have hwk := walkNew_walked hw hsub
      rw [← hwk.root] at hfresh
      have g := hm.shape.graft_spec hm.alive hwk.shape.pos hfresh
      have hnodes : (m.add target answers node subdir).st.tree.nodes = (m.st.tree.graft node sub).1.nodes := by
        rw [he]
        exact nodes_shareLinks _ _ _
      refine ⟨by rw [hnodes, g.length]; exact Nat.le_add_right _ _, fun ha => ?_⟩
      rw [(sameShape_of_nodes hnodes).alive, g.alive_old hi] at ha
      exact ha

/-- A holder known while the merge goes on is known at its end, if it is still there. -/
theorem knows_run (hw : answers.FreshWalks) (hm : Merging node all children subdirs m)
    (hr : MergeRun target answers node children subdirs m children' subdirs' m') (hl : holder < m.st.tree.nodes.length)
    (hk : m.Knows inode holder) (ha : (m'.st.tree.node holder).alive = true) : m'.Knows inode holder :=
  (mergeRun_rule hw (fun _ _ m => holder < m.st.tree.nodes.length ∧ ((m.st.tree.node holder).alive = true → m.Knows inode holder))
    (fun hm hstep ⟨hl, hk⟩ => by
      obtain ⟨hlen, halive⟩ := alive_step hw hm hstep hl
      exact ⟨hl.trans_le hlen, fun ha => knows_step hm hstep ha (hk (halive ha))⟩) hr hm ⟨hl, fun _ => hk⟩).2.2 ha

/-- A subtree there is room for is grafted. -/
theorem tree_add_fits {subdir : Subdir} {sub : DirTree} {shared : List (Inode × List Nat)}
    (hsub : walkNew target answers m.st.tree node subdir.name = some (sub, shared))
    (hfits : m.st.tree.nodes.length + sub.nodes.length ≤ target.treeMaxDirectories) :
    (m.add target answers node subdir).st.tree =
      { shared.foldl (shareLink m.st.tree.nodes.length) (m.st.tree.graft node sub).1 with handles := [], plain := [] } := by
  unfold Merge.add
  rw [hsub]
  dsimp only
  rw [if_pos hfits]
  rfl

/-- A grafted subtree that counts a file puts a directory on record for it. -/
theorem knows_graft (ho : m.st.tree.OwnersAlive) {subdir : Subdir} {found : DirTree} {owner : LinkOwner}
    (hf : answers.walk (walkTarget target answers m.st.tree node subdir.name) = some found)
    (hfits : m.st.tree.nodes.length + found.nodes.length ≤ target.treeMaxDirectories) (hget : found.links.get inode = some owner) :
    (m.add target answers node subdir).Knows inode (owner.node + m.st.tree.nodes.length) ∧
      (m.add target answers node subdir).st.tree.nodes.length = m.st.tree.nodes.length + found.nodes.length := by
  obtain ⟨sub, shared, hsub⟩ : ∃ sub shared, walkNew target answers m.st.tree node subdir.name = some (sub, shared) := by
    unfold walkNew
    rw [hf]
    exact ⟨_, _, rfl⟩
  obtain ⟨found', hf', hsubeq, hshared⟩ := walkNew_eq_some hsub
  cases hf.symm.trans hf'
  have hlen : sub.nodes.length = found.nodes.length := by
    rw [hsubeq, (sameShape_untakes _ _).length]
    exact DirTree.length_modifyNode _ _ _
  have htree := tree_add_fits hsub (by rw [hlen]; exact hfits)
  refine ⟨.inl ?_, by rw [htree, nodes_shareLinks, DirTree.length_graft, hlen]⟩
  rw [htree]
  show OnRecord (shared.foldl (shareLink m.st.tree.nodes.length) (m.st.tree.graft node sub).1).links inode _
  have hsublinks := get_links_untakes inode (takenLinks m.st.tree (found.renameRoot subdir.name)) (found.renameRoot subdir.name)
  rw [← hsubeq] at hsublinks
  by_cases hmem : inode ∈ (takenLinks m.st.tree (found.renameRoot subdir.name)).map Prod.fst
  · -- counted elsewhere: the walk's link is noted
    obtain ⟨e, he, rfl⟩ := List.mem_map.1 hmem
    obtain ⟨hentry, hcounted⟩ := List.mem_filter.1 he
    have heo : e.2 = owner := Option.some.inj ((Table.get_eq_some.2 hentry).symm.trans hget)
    have hmain : ∃ owner', m.st.tree.links.get e.1 = some owner' := by
      unfold TreeState.ownerAlive at hcounted
      cases hg : m.st.tree.links.get e.1 with
      | none => rw [hg] at hcounted; cases hcounted
      | some owner' => exact ⟨owner', rfl⟩
    obtain ⟨owner', hg⟩ := hmain
    have hnoted : (e.1, e.2.others ++ [e.2.node]) ∈ shared := by
      rw [hshared]
      exact List.mem_map.2 ⟨e, he, rfl⟩
    refine onRecord_shared (by rw [heo]; exact List.mem_append_right _ (List.mem_singleton_self _)) shared _ ⟨owner', ?_⟩ hnoted
    rw [DirTree.links_graft, Table.get_foldl_putNew, hg]
    rfl
  · rw [if_neg hmem] at hsublinks
    have hnone : m.st.tree.links.get inode = none := by
      cases hg : m.st.tree.links.get inode with
      | none => rfl
      | some owner' =>
        refine absurd (List.mem_map.2 ⟨(inode, owner), List.mem_filter.2 ⟨Table.get_eq_some.1 hget, ?_⟩, rfl⟩) hmem
        unfold TreeState.ownerAlive
        rw [hg]
        exact ho inode owner' hg
    refine onRecord_shareLinks _ shared _ ⟨owner.offset m.st.tree.nodes.length, ?_, List.mem_cons_self ..⟩
    rw [DirTree.links_graft, Table.get_foldl_putNew, hnone, Option.none_or]
    have hsubget : sub.links.get inode = some owner := hsublinks.trans hget
    unfold Table.get at hsubget
    obtain ⟨e, he, heq⟩ := Option.map_eq_some_iff.1 hsubget
    rw [he, ← heq]
    rfl

end Merge

/-! ## Handing over -/

section Hand

variable {node : Nat} {here : List Inode} {inode : Inode}

/-- A file is not counted yet, or by the directory read, or by one to be read again. -/
def Asked (node : Nat) (inode : Inode) (h : Handing) : Prop :=
  ∀ owner, h.tree.links.get inode = some owner → owner.node = node ∨ owner.node ∈ h.requeue

theorem asked_hand {h : Handing} (ha : Asked node inode h) (link : Inode × LinkOwner) : Asked node inode (h.hand node here link) := by
  rcases @hand_spec node here h link with ⟨counted, others, hget, -, he⟩ | ⟨-, ⟨-, he⟩ | ⟨next, others, hn, he⟩⟩
  · rw [he]
    intro owner ho
    dsimp only at ho
    rw [Table.get_put] at ho
    split at ho
    · rename_i hi
      cases ho
      exact ha counted (hi ▸ hget)
    · exact ha owner ho
  · rw [he]
    exact ha
  · rw [he]
    intro owner ho
    dsimp only at ho ⊢
    rw [Table.get_put, (sameLinks_grow h.tree next _).links] at ho
    split at ho
    · cases ho
      by_cases hnode : next = node
      · exact .inl hnode
      · rw [if_pos hnode]
        exact .inr (List.mem_append_right _ (List.mem_singleton_self _))
    · refine (ha owner ho).imp id fun hm => ?_
      split
      · exact List.mem_append_left _ hm
      · exact hm

theorem asked_hands : ∀ (links : List (Inode × LinkOwner)) (h : Handing), Asked node inode h →
    Asked node inode (links.foldl (Handing.hand node here) h)
  | [], _, ha => ha
  | link :: links, _, ha => asked_hands links _ (asked_hand ha link)

end Hand

/-- A subtree the re-read grafts, as its walk found it. -/
def Grafts (target : Target) (answers : Answers) (st : TreeState) (node : Nat) (listing : Listing) (found : DirTree) : Prop :=
  ∃ (children : List Nat) (subdir : Subdir) (subdirs : List Subdir) (m : Merge),
    MergeRun target answers node (st.tree.node node).children listing.subdirs (startMerge st node listing) children (subdir :: subdirs) m ∧
      (∀ child ∈ children.head?, childOrder answers m.st child subdir = .gt) ∧
      answers.walk (walkTarget target answers m.st.tree node subdir.name) = some found ∧
      m.st.tree.nodes.length + found.nodes.length ≤ target.treeMaxDirectories

/-- Handing files over loses none while a holder is known. -/
structure HandsOver (target : Target) (answers : Answers) (st : TreeState) (node : Nat) (listing : Listing) : Prop where
  /-- A file is gone only if no directory known to list it is left, the one read only counting if it lists
  it now, and no grafted subtree counts it. -/
  gone : ∀ inode owner, st.tree.links.get inode = some owner → (relist target answers st node).1.tree.links.get inode = none →
    (∀ holder ∈ owner.node :: owner.others, (st.tree.node holder).alive = true →
      ((relist target answers st node).1.tree.node holder).alive = true → holder = node ∧ ∀ link ∈ listing.links, link.inode ≠ inode) ∧
    ∀ found, Grafts target answers st node listing found → found.links.get inode = none
  alive : (relist target answers st node).1.tree.OwnersAlive
  /-- A directory that gets a file now is read again, unless it is the one just read. -/
  asked : ∀ inode owner, (merged target answers st node listing).st.tree.links.get inode = none →
    (relist target answers st node).1.tree.links.get inode = some owner → owner.node ≠ node →
    owner.node ∈ (relist target answers st node).2.requeue
  /-- Within the limits an owner counts its files, each once, beside what it counts without them. -/
  counted : SizedRun st → SizesFit answers st node listing → ∀ inode owner,
    (relist target answers st node).1.tree.links.get inode = some owner → ∀ c, ∃ beside : Int, 0 ≤ beside ∧
      (((relist target answers st node).1.tree.node owner.node).direct.get c : Int) =
        beside + (relist target answers st node).1.tree.owned owner.node c ∧
      (owner.node < st.tree.nodes.length → beside = besideFiles st node listing owner.node c)

section Relist

variable {target : Target} {answers : Answers} {st : TreeState} {node : Nat} {listing : Listing}

/-- A file some holder is known of when the merge is over is counted when links are handed over. -/
theorem ownerAlive_of_knows (ho : (merged target answers st node listing).st.tree.OwnersAlive) {inode : Inode} {holder : Nat}
    (hk : (merged target answers st node listing).Knows inode holder)
    (ha : ((merged target answers st node listing).st.tree.node holder).alive = true)
    (hc : holder ≠ node ∨ ∃ link ∈ listing.links, link.inode = inode) :
    TreeState.ownerAlive (applyAll target answers st node listing).1.tree inode = true := by
  have hsame := sameLinks_settledTree target answers st node listing
  obtain ⟨asked, he, -⟩ := applyAll_handing target answers st node listing
  rw [he, ownerAlive_hands]
  rcases hk with ⟨owner, hget, -⟩ | ⟨owner, hmem, hm⟩
  · refine .inl ?_
    show TreeState.ownerAlive (settledTree target answers st node listing) inode = true
    rw [hsame.ownerAlive]
    unfold TreeState.ownerAlive
    rw [hget]
    exact ho inode owner hget
  · refine .inr ⟨owner, hmem, holder, hm, Bool.and_eq_true_iff.2 ⟨(hsame.shape.alive holder).trans ha, Bool.or_eq_true_iff.2 ?_⟩⟩
    refine hc.imp decide_eq_true fun hl => List.contains_iff_mem.2 ?_
    exact (mem_here inode listing.links _).2 (.inr hl)

theorem get_none_ownerAlive {t : DirTree} {inode : Inode} (h : t.links.get inode = none) : TreeState.ownerAlive t inode = false := by
  unfold TreeState.ownerAlive
  rw [h]

theorem newcomers_run (hw : answers.FreshWalks) {all subdirs subdirs' : List Subdir} {children children' : List Nat} {m m' : Merge}
    {bound : Nat} (hr : MergeRun target answers node children subdirs m children' subdirs' m') (hm : Merging node all children subdirs m)
    (h : Newcomers node bound children m) : Newcomers node bound children' m' :=
  (mergeRun_rule hw (fun children _ m => Newcomers node bound children m) (fun hm hstep hnew => newcomers_step hw hm hstep hnew) hr hm h).2

/-- A new subdirectory comes next, and the merge goes on to its end. -/
theorem Newcomers.added (hw : answers.FreshWalks) {all subdirs : List Subdir} {children : List Nat} {subdir : Subdir} {m mEnd : Merge}
    {bound : Nat} (h : Newcomers node bound children m) (hm : Merging node all children (subdir :: subdirs) m)
    (ho : ∀ child ∈ children.head?, childOrder answers m.st child subdir = .gt)
    (hr : MergeRun target answers node children (subdir :: subdirs) m [] [] mEnd) :
    Merging node all children subdirs (m.add target answers node subdir) ∧
      Newcomers node bound children (m.add target answers node subdir) ∧
      MergeRun target answers node children subdirs (m.add target answers node subdir) [] [] mEnd := by
  have hstep : MergeRun target answers node children (subdir :: subdirs) m children subdirs (m.add target answers node subdir) :=
    .add ho .refl
  exact ⟨hm.add hw (hm.ahead ho), h.add hw hm (hm.fresh (hm.ahead ho)), hstep.through hr⟩

/-- What is grafted stays to the end of the merge. -/
theorem Newcomers.stay (hw : answers.FreshWalks) {all subdirs : List Subdir} {children : List Nat} {m mEnd : Merge} {bound : Nat}
    (h : Newcomers node bound children m) (hm : Merging node all children subdirs m)
    (hr : MergeRun target answers node children subdirs m [] [] mEnd) {i : Nat} (hi : bound ≤ i) (hl : i < m.st.tree.nodes.length) :
    (mEnd.st.tree.node i).alive = true := by
  have hend := (mergeRun_rule hw (fun children _ m' => Newcomers node bound children m' ∧ i < m'.st.tree.nodes.length)
    (fun hm' hstep hnew => ⟨newcomers_step hw hm' hstep hnew.1, hnew.2.trans_le (alive_step hw hm' hstep hnew.2).1⟩) hr hm ⟨h, hl⟩).2
  exact (hend.1.new i hi hend.2).1

/-- Every re-read hands files over without losing one. -/
theorem hands_over (h : LiveReached st) (hs : answers.Sound) (hl : Relists target answers st node listing) :
    HandsOver target answers st node listing := by
  have howned := owned_of_reached h
  have hrelist := hl.relist_eq
  obtain ⟨ha, -, hread⟩ := hl
  obtain ⟨hmerging, howners⟩ := owned_mergeRun hs howned ha hread (mergeRun_merged target answers st node listing)
  have halive : ∀ i, ((applyAll target answers st node listing).1.tree.node i).alive =
      ((merged target answers st node listing).st.tree.node i).alive := fun i =>
    (alive_applyAll target answers st node listing i).trans ((sameLinks_settledTree target answers st node listing).shape.alive i)
  have hstart := merging_start hs.entries howned.shape howned.names ha hread
  refine ⟨fun inode owner hget hnone => ⟨fun holder hm hbefore hafter => ?_, fun found hgraft => ?_⟩,
    (owned_relist hs howned target node).owners, fun inode owner hnone hsome hne => ?_, fun hrun hfit inode owner hsome c => ?_⟩
  · -- a holder left would have been known
    rw [hrelist] at hnone hafter
    by_contra hnot
    have hc : holder ≠ node ∨ ∃ link ∈ listing.links, link.inode = inode := by
      by_contra hneither
      rw [not_or, not_ne_iff] at hneither
      exact hnot ⟨hneither.1, fun link hlink he => hneither.2 ⟨link, hlink, he⟩⟩
    rw [halive] at hafter
    have hknows := knows_run hs.walks hstart (mergeRun_merged target answers st node listing) (DirTree.lt_of_alive hbefore)
      (knows_start listing ha howned.owners ⟨owner, hget, hm⟩ hc) hafter
    have := ownerAlive_of_knows howners hknows hafter hc
    rw [get_none_ownerAlive hnone] at this
    cases this
  · rw [hrelist] at hnone
    obtain ⟨children, subdir, subdirs, m, hrun, horder, hwalk, hfits⟩ := hgraft
    cases hfound : found.links.get inode with
    | none => rfl
    | some owner' =>
      have hlater := hrun.through (mergeRun_merged target answers st node listing)
      obtain ⟨hm, hown⟩ := owned_mergeRun hs howned ha hread hrun
      have hnew := newcomers_run hs.walks hrun hstart (newcomers_start listing howned.shape ha)
      have hlt : owner'.node < found.nodes.length := (hs.walks _ _ hwalk).owners inode owner' hfound
      obtain ⟨hknown, hlen⟩ := knows_graft hown hwalk hfits hfound
      have hgrown := hnew.length
      obtain ⟨hmadd, hnewadd, hnext⟩ := hnew.added hs.walks hm horder hlater
      have hstays := hnewadd.stay hs.walks hmadd hnext (i := owner'.node + m.st.tree.nodes.length) (by omega) (by omega)
      have hknows := knows_run hs.walks hmadd hnext (by omega) hknown hstays
      have hne : owner'.node + m.st.tree.nodes.length ≠ node := by
        have := DirTree.lt_of_alive ha
        omega
      have := ownerAlive_of_knows howners hknows hstays (.inl hne)
      rw [get_none_ownerAlive hnone] at this
      cases this
  · rw [hrelist] at hsome ⊢
    obtain ⟨asked, he, hq, -⟩ := applyAll_handing target answers st node listing
    have hstartAsked : Asked node inode { tree := settledTree target answers st node listing, requeue := asked } := by
      intro owner' ho'
      have hlinks := (sameLinks_settledTree target answers st node listing).links
      cases (hlinks ▸ hnone : (settledTree target answers st node listing).links.get inode = none).symm.trans ho'
    rw [he] at hsome
    rw [hq]
    exact (asked_hands _ _ hstartAsked owner hsome).resolve_left hne
  · have hao := (owned_relist hs howned target node).owners inode owner hsome
    rw [hrelist] at hao ⊢
    obtain ⟨hold, hnew⟩ := rest_applyAll hs.walks hs.entries howned (backed_of_run hrun) ha hread hfit owner.node hao c
    refine ⟨_, ?_, DirTree.direct_eq _ _ _, hold⟩
    rcases Nat.lt_or_ge owner.node st.tree.nodes.length with hlt | hge
    · rw [hold hlt]
      rw [halive] at hao
      exact besideFiles_nonneg hfit (backed_of_run hrun)
        ((accounts_merged hs.walks hs.entries howned ha hread hfit).2.alive owner.node hlt hao) c
    · exact hnew hge

end Relist

/-! ## A file moved into a directory past the budget -/

open Walk

/-- `/d` while it holds the file itself. -/
def looseHost : Host where
  stat _ _ answer := answer = .ok holdingStat
  handle _ handle := handle = none
  listing _ answer := answer = .ok { entries := [linkedEntry], fail := none }
  answers _ := ⟨_, rfl⟩

def looseTree : DirTree where
  displayRoot := [slash, 100]
  scanRoot := [slash, 100]
  rootDev := 1
  nodes := [holdingNode [] none 0]
  links := Table.ofList [((1, 7), { node := 0, blocks := 512, apparent := 10, others := [] })]
  handles := []
  plain := []
  untrackedLinks := []

def looseState : TreeState := TreeState.new looseTree 1

set_option maxRecDepth 4000 in
theorem scan_loose : ∃ counted, CountScan looseHost smallTarget List.length looseTree counted := by
  have h0 : Walking looseHost (start smallTarget holdingStat List.length) holdingStat none (n := 0) _ := .initial false
  have h1 := WorkPool.Reachable.step h0 (.worker (.spawnDone (i := 0) rfl (by decide)))
  have h2 := WorkPool.Reachable.step h1 (.worker (.retire (i := 0) rfl))
  have h3 := WorkPool.Reachable.step h2 (.worker (.more (i := 0) rfl (.opened rfl)))
  have h4 := WorkPool.Reachable.step h3 (.worker (.more (i := 0) rfl (.entry rfl rfl)))
  have h5 := WorkPool.Reachable.step h4 (.worker (.done (i := 0) rfl (.closed rfl rfl)))
  have h6 := WorkPool.Reachable.step h5 (.worker (.retire (i := 0) rfl))
  exact ⟨_, .walked rfl rfl rfl (by simp [RootHandle, smallTarget, emptyWalk]) (by decide) (by decide) rfl h6 (by decide) rfl rfl⟩

theorem reached_loose : LiveReached looseState := by
  obtain ⟨counted, h⟩ := scan_loose
  refine .scan h (fun path reading hr => ?_) 1
  cases hr
  refine ⟨List.nodup_singleton _, fun e he => ?_⟩
  rw [List.mem_singleton.1 he]
  exact .inr (by decide)

/-- What `/d/a` lists: the file, and a directory that holds it too. -/
def pairEntries : List Entry := [linkedEntry, { name := [115], stat := .ok holdingStat, handle := none }]

def pairHost : Host where
  stat _ _ answer := answer = .ok holdingStat
  handle _ handle := handle = none
  listing path answer := answer = .ok { entries := if path = [slash, 100, slash, 97] then pairEntries else [linkedEntry], fail := none }
  answers _ := ⟨_, rfl⟩

/-- The target `/d/a` is walked as: there is room for it alone. -/
def pairTarget : Target := { crampedTarget with treeMaxDirectories := 1 }

/-- What the walk finds: the file is counted in the directory without a node. -/
def pairTree : DirTree where
  displayRoot := [slash, 100, slash, 97]
  scanRoot := [slash, 100, slash, 97]
  rootDev := 1
  nodes := [{ holdingNode [] none 0 with
      isSealed := true
      direct := { apparent := 2, files := 1, dirs := 1 }
      sub := { blocks := 512, apparent := 12, files := 2, dirs := 1 } }]
  links := .empty
  handles := []
  plain := []
  untrackedLinks := []

/-- A hash that puts longer paths first. -/
def longFirst (path : Bytes) : Nat := 100 - path.length

set_option maxRecDepth 10000 in
theorem scan_pair : ∃ counted, CountScan pairHost pairTarget longFirst pairTree counted := by
  have h0 : Walking pairHost (start pairTarget holdingStat longFirst) holdingStat none (n := 0) _ := .initial false
  have h1 := WorkPool.Reachable.step h0 (.worker (.spawnDone (i := 0) rfl (by decide)))
  have h2 := WorkPool.Reachable.step h1 (.worker (.retire (i := 0) rfl))
  have h3 := WorkPool.Reachable.step h2 (.worker (.more (i := 0) rfl (.opened rfl)))
  have h4 := WorkPool.Reachable.step h3 (.worker (.more (i := 0) rfl (.entry rfl rfl)))
  have h5 := WorkPool.Reachable.step h4 (.worker (.more (i := 0) rfl (.entry rfl rfl)))
  have h6 := WorkPool.Reachable.step h5 (.worker (.done (i := 0) rfl (.closed rfl rfl)))
  have h7 := WorkPool.Reachable.step h6 (.worker (.keep (i := 0) rfl))
  have h8 := WorkPool.Reachable.step h7 (.worker (.more (i := 0) rfl (.opened rfl)))
  have h9 := WorkPool.Reachable.step h8 (.worker (.more (i := 0) rfl (.entry rfl rfl)))
  have h10 := WorkPool.Reachable.step h9 (.worker (.done (i := 0) rfl (.closed rfl rfl)))
  have h11 := WorkPool.Reachable.step h10 (.worker (.retire (i := 0) rfl))
  exact ⟨_, .walked rfl rfl rfl (by simp [RootHandle, pairTarget, crampedTarget, smallTarget, emptyWalk]) (by decide) (by decide) rfl
    h11 (by decide) rfl rfl⟩

theorem proper_pairHost : pairHost.listing.Proper := by
  intro path reading hr
  cases hr
  by_cases hp : path = [slash, 100, slash, 97]
  · subst hp
    exact ⟨by decide, by decide⟩
  · rw [if_neg hp]
    exact ⟨by decide, by decide⟩

open Classical in
noncomputable def pairAnswers : Answers := holdingAnswers [[97]] fun target => if target = pairTarget then some pairTree else none

theorem sound_pair : pairAnswers.Sound := by
  refine ⟨fun target tree h => ?_, fun own reading h => ?_⟩
  · obtain ⟨counted, hscan⟩ := scan_pair
    unfold pairAnswers holdingAnswers at h
    dsimp only at h
    split at h
    · rename_i ht
      cases h
      exact ⟨_, _, counted, proper_pairHost, ht ▸ hscan⟩
    · cases h
  · cases h
    exact ⟨by decide, by decide⟩

theorem walk_pair :
    pairAnswers.walk (walkTarget smallTarget pairAnswers (startMerge looseState 0 (holdingListing [[97]])).st.tree 0 [97]) =
      some pairTree :=
  if_pos rfl

theorem grafts_pair : Grafts smallTarget pairAnswers looseState 0 (holdingListing [[97]]) pairTree :=
  ⟨[], holdingSubdir [97], [], startMerge looseState 0 (holdingListing [[97]]), .refl, fun _ h => by (cases h), walk_pair, by decide⟩

theorem relist_pair : relist smallTarget pairAnswers looseState 0 =
    relist smallTarget (holdingAnswers [[97]] fun _ => some pairTree) looseState 0 := by
  have hadd : (startMerge looseState 0 (holdingListing [[97]])).add smallTarget pairAnswers 0 (holdingSubdir [97]) =
      (startMerge looseState 0 (holdingListing [[97]])).add smallTarget (holdingAnswers [[97]] fun _ => some pairTree) 0
        (holdingSubdir [97]) := by
    unfold Merge.add walkNew
    rw [show (holdingSubdir [97]).name = [97] from rfl, walk_pair]
    rfl
  have hmerge : mergeListing smallTarget pairAnswers looseState 0 (holdingListing [[97]]) =
      mergeListing smallTarget (holdingAnswers [[97]] fun _ => some pairTree) looseState 0 (holdingListing [[97]]) :=
    congrArg (fun m : Merge => (settleLinks looseState.tree 0 [] (holdingListing [[97]]).direct, m)) hadd
  show applyAll smallTarget pairAnswers looseState 0 (holdingListing [[97]]) =
    applyAll smallTarget _ looseState 0 (holdingListing [[97]])
  unfold applyAll
  rw [hmerge]

/-- The file of `/d` moves into `/d/a` and into a directory below it. -/
theorem hands_over_moved : HandsOver smallTarget pairAnswers looseState 0 (holdingListing [[97]]) :=
  hands_over reached_loose sound_pair ⟨rfl, rfl, rfl⟩

/-- There `/d/a` has a node and lists the file, and the file has no owner: its walk counts it below `/d/a`,
where there is no node. -/
theorem listed_file_lost : ¬∀ (st : TreeState) (target : Target) (answers : Answers) (node : Nat) (listing : Listing) (inode : Inode)
    (owner : LinkOwner) (found : DirTree) (walk : Target) (host : Host) (hash : Bytes → Nat) (counted : Table Inode (Nat × Link))
    (k : Nat) (reading : Reading) (e : Entry) (stat : Stat),
    LiveReached st → answers.Sound → Relists target answers st node listing → st.tree.links.get inode = some owner →
    Grafts target answers st node listing found → answers.walk walk = some found → CountScan host walk hash found counted →
    k < found.nodes.length → host.listing (found.scanPath k) (.ok reading) → e ∈ reading.entries → e.stat = .ok stat →
    stat.kind = .file → 1 < stat.nlink → (stat.dev, stat.ino) = inode →
    (relist target answers st node).1.tree.links.get inode ≠ none := by
  intro h
  obtain ⟨counted, hscan⟩ := scan_pair
  refine h looseState smallTarget pairAnswers 0 (holdingListing [[97]]) (1, 7) _ pairTree pairTarget pairHost longFirst counted 0 _
    linkedEntry _ reached_loose sound_pair ⟨rfl, rfl, rfl⟩ rfl grafts_pair (if_pos rfl) hscan (by decide) rfl (List.mem_cons_self ..) rfl
    rfl (by decide) rfl ?_
  rw [relist_pair]
  decide

end StorageHarvester
