/-
What the cap on tracked directories turns away is not lost. A subdirectory that a scan refuses a node
counts, with everything below it, in the directory it was found in, which is sealed. A re-read counts a
new subdirectory without nodes where there is no room, and seals the directory; where there is room, what
the walk refused within the subtree counts on in it. No later re-read takes any of that away.
-/
import StorageHarvester.Live.Agrees
import StorageHarvester.Live.RolledUp
import StorageHarvester.Scan.Cap

namespace StorageHarvester

open DirTree Walk

/-! ## Scans -/

open Classical in
/-- A subdirectory that a scan refuses a node is counted with everything below it. -/
structure RefusedByScan (t : DirTree) (log : List Tallied) (r : Tallied) : Prop extends CountedAbove t log r where
  /-- Its own inode, and what was found at and below it. -/
  total : ∀ c, min (r.amount c + amounts (log.filter fun x => r.Holds x.job.path) c) u64Max ≤ (t.node r.job.node).sub.get c
  /-- What was found below all those refused there comes on top of the entries and the children. -/
  surplus : ∀ c, (t.node 0).sub.get c < u64Max → (amounts (noted log r.job.node false) c : Int) ≤ t.surplus r.job.node c

theorem refusedByScan {host : Host} {target : Target} {hash : Bytes → Nat} {t : DirTree} {log : List Tallied}
    {won : Table Inode (Nat × Link)} (h : LogScan host target hash t log won) (hk : host.listing.Proper)
    (hlen : t.nodes.length < u64Max) {r : Tallied} (hr : r ∈ log) (href : r.refused = true) : RefusedByScan t log r := by
  have habove := h.countedAbove hk hlen hr href
  refine { toCountedAbove := habove, total := fun c => h.refused_le hk hlen hr href c, surplus := fun c hroot => ?_ }
  have hsurplus := h.surplus hk hroot habove.tracked
  omega

/-- A walk that finds a tree has its log. -/
theorem logScan_of_count {host : Host} {target : Target} {hash : Bytes → Nat} {t : DirTree} {counted : Table Inode (Nat × Link)}
    (h : CountScan host target hash t counted) : ∃ log, LogScan host target hash t log counted :=
  h.retrace logger

/-! ## A listing's subdirectories -/

/-- What a subdirectory's own inode counts in the directory. -/
def Subdir.amount (subdir : Subdir) : Component → Nat
  | .dirs => 1
  | .blocks => subdir.blocks
  | .apparent => subdir.apparent
  | _ => 0

/-- A listing counts its subdirectories' own inodes, up to the limit. -/
def Listing.CountsSubdirs (l : Listing) : Prop := ∀ c, min (l.subdirs.map fun s => s.amount c).sum u64Max ≤ l.direct.get c

theorem Listing.CountsSubdirs.more {l l' : Listing} (h : l.CountsSubdirs) (hs : l'.subdirs = l.subdirs)
    (hd : ∀ c, min (l.direct.get c) u64Max ≤ l'.direct.get c) : l'.CountsSubdirs := by
  intro c
  have h1 := h c
  have h2 := hd c
  rw [hs]
  omega

theorem countsSubdirs_readEntry {target : Target} {displayPath : Bytes} {rootDev : Nat} {recordPlain : Bool} {l : Listing}
    (h : l.CountsSubdirs) (e : Entry) : (Listing.readEntry target displayPath rootDev recordPlain l e).CountsSubdirs := by
  have hkept : ∀ (t : Tally) (blocks apparent : Nat) (c : Component), min (t.get c) u64Max ≤ (t.addSize blocks apparent).get c :=
    fun t blocks apparent c => by
      have := Tally.capped_get_addSize t blocks apparent c
      omega
  unfold Listing.readEntry
  split
  · exact h
  split
  · exact h
  split
  · exact h
  · rename_i stat _
    split
    · exact h
    dsimp only
    split
    · -- a subdirectory's inode is added with it
      intro c
      have hold := h c
      have hnew := Tally.capped_get_addSize { l.direct with dirs := l.direct.dirs + 1 } stat.blocks stat.size c
      dsimp only
      rw [List.map_append, List.sum_append]
      cases c <;> simp [Subdir.amount, Tally.get, sizeAt] at hold hnew ⊢ <;> omega
    · split
      · refine h.more rfl fun c => (Nat.min_le_left _ _).trans ?_
        cases stat.kind <;> cases c <;> simp [Tally.get]
      · refine h.more rfl fun c => le_trans (min_le_min_right _ ?_) (hkept _ stat.blocks stat.size c)
        cases stat.kind <;> cases c <;> simp [Tally.get]

theorem countsSubdirs_readListing {target : Target} {answers : Answers} {st : TreeState} {node : Nat} {listing : Listing}
    (h : readListing target answers st node = .ok listing) : listing.CountsSubdirs := by
  unfold readListing at h
  rcases hopened : answers.opened with error | ⟨own, reading⟩
  · rw [hopened] at h
    unfold Listing.readDirect at h
    split at h <;> cases h
  · rw [hopened] at h
    obtain ⟨listed, rfl, rfl⟩ := Listing.readDirect_ok h
    have hfold : ∀ (entries : List Entry) (l : Listing), l.CountsSubdirs →
        (entries.foldl (Listing.readEntry target (st.tree.displayPathBytes node) st.tree.rootDev answers.byHandle) l).CountsSubdirs := by
      intro entries
      induction entries with
      | nil => exact fun l hl => hl
      | cons e entries ih => exact fun l hl => ih _ (countsSubdirs_readEntry hl e)
    intro c
    have hsorted := hfold reading.entries { own := ⟨own.blocks, own.size, own.mtime⟩, newest := own.mtime } (fun c => by simp) c
    dsimp only
    rw [((List.perm_insertionSort _ _).map _).sum_eq]
    exact hsorted

/-! ## What a re-read brings -/

/-- A new subdirectory that a re-read of `node` comes to with the old children `children` left and `m` done;
a walk finds `found`, less what the tree counts already `sub`. -/
structure Brought (target : Target) (answers : Answers) (st : TreeState) (node : Nat) (listing : Listing) (children : List Nat)
    (subdir : Subdir) (subdirs : List Subdir) (m : Merge) (found sub : DirTree) : Prop where
  relists : Relists target answers st node listing
  run : MergeRun target answers node (st.tree.node node).children listing.subdirs (startMerge st node listing) children
    (subdir :: subdirs) m
  /-- It comes next. -/
  next : ∀ child ∈ children.head?, childOrder answers m.st child subdir = .gt
  walk : answers.walk (walkTarget target answers m.st.tree node subdir.name) = some found
  new : ∃ shared, walkNew target answers m.st.tree node subdir.name = some (sub, shared)

/-- There are nodes for all of it. -/
def FitsIn (target : Target) (m : Merge) (sub : DirTree) : Prop := m.st.tree.nodes.length + sub.nodes.length ≤ target.treeMaxDirectories

section Relist

variable {target : Target} {answers : Answers} {st : TreeState} {node : Nat} {listing : Listing} {children : List Nat}
  {subdir : Subdir} {subdirs : List Subdir} {m : Merge} {found sub : DirTree}

/-- What is refused along the way is refused by the whole merge. -/
theorem mergeRefused_run {children' : List Nat} {subdirs' : List Subdir} {m' : Merge}
    (h : MergeRun target answers node children subdirs m children' subdirs' m') : ∀ fuel, children.length + subdirs.length ≤ fuel →
    ∃ before fuel', children'.length + subdirs'.length ≤ fuel' ∧
      mergeRefused target answers node fuel children subdirs m = before ++ mergeRefused target answers node fuel' children' subdirs' m' := by
  induction h with
  | refl => exact fun fuel hl => ⟨[], fuel, hl, rfl⟩
  | @keep child children _ subdir subdirs _ m _ ho _ ih =>
    intro fuel hl
    obtain _ | fuel := fuel
    · cases hl
    obtain ⟨before, fuel', hl', he⟩ := ih fuel (by simp only [List.length_cons] at hl; omega)
    refine ⟨before, fuel', hl', ?_⟩
    rw [mergeRefused, ho, ← he]
  | @drop child children _ subdirs _ m _ ho _ ih =>
    intro fuel hl
    obtain _ | fuel := fuel
    · simp at hl
    obtain ⟨before, fuel', hl', he⟩ := ih fuel (by simp only [List.length_cons] at hl; omega)
    refine ⟨before, fuel', hl', ?_⟩
    rw [← he]
    cases subdirs with
    | nil => rw [mergeRefused]
    | cons subdir subdirs => rw [mergeRefused, ho subdir rfl]
  | @add children _ subdir subdirs _ m _ ho _ ih =>
    intro fuel hl
    obtain _ | fuel := fuel
    · cases hl
    obtain ⟨before, fuel', hl', he⟩ := ih fuel (by simp only [List.length_cons] at hl; omega)
    refine ⟨m.refuses target answers node subdir ++ before, fuel', hl', ?_⟩
    rw [List.append_assoc, ← he]
    cases children with
    | nil => rw [mergeRefused]
    | cons child children => rw [mergeRefused, ho child rfl]

/-- A subtree there is no room for is among those refused. -/
theorem Brought.refused (h : Brought target answers st node listing children subdir subdirs m found sub) (hfull : ¬FitsIn target m sub) :
    sub ∈ refusedTrees target answers st node listing := by
  obtain ⟨before, fuel, hl, he⟩ := mergeRefused_run h.run _ le_rfl
  obtain ⟨shared, hnew⟩ := h.new
  have hone : m.refuses target answers node subdir = [sub] := by
    unfold Merge.refuses
    rw [hnew]
    exact if_neg hfull
  obtain _ | fuel := fuel
  · simp at hl
  unfold refusedTrees
  rw [he]
  refine List.mem_append_right _ ?_
  cases hc : children with
  | nil =>
    rw [mergeRefused, hone]
    exact List.mem_append_left _ (List.mem_singleton_self sub)
  | cons child children' =>
    rw [mergeRefused, h.next child (by rw [hc]; rfl), hone]
    exact List.mem_append_left _ (List.mem_singleton_self sub)

/-- A subtree as its walk left it: the same directories are sealed, with the same beyond their entries and
their children. -/
structure KeptFrom (found after : DirTree) (start : Nat) : Prop where
  alive : ∀ k < found.nodes.length, (after.node (start + k)).alive = true
  isSealed : ∀ k < found.nodes.length, (after.node (start + k)).isSealed = (found.node k).isSealed
  surplus : ∀ k < found.nodes.length, ∀ c, after.surplus (start + k) c = found.surplus k c

section Counted

variable (h : TotalsRun st) (hs : answers.Sound) (hk : TotalsFit target answers st node listing)

include hs hk

/-- What a walk found is in the totals of what is brought, but for the multiply linked files. -/
theorem Brought.amounts_le (hb : Brought target answers st node listing children subdir subdirs m found sub) {host : Host}
    {hash : Bytes → Nat} {log : List Tallied} {won : Table Inode (Nat × Link)}
    (hscan : LogScan host (walkTarget target answers m.st.tree node subdir.name) hash found log won) (hp : host.listing.Proper)
    (c : Component) : (amounts log c : Int) ≤ (sub.node 0).sub.get c := by
  obtain ⟨shared, hnew⟩ := hb.new
  obtain ⟨-, htotal⟩ := sameSurplus_walkNew hs.walks hk.walks hk.totals hb.walk hnew
  have hroot := hk.totals _ _ hb.walk c
  have hfound := hscan.amounts_le hp (hroot.trans (by decide))
  have htaken : handedSize (takenLinks m.st.tree found) c ≤ found.linked c :=
    List.Sublist.sum_le_sum ((List.filter_sublist ..).map _) fun x hx => by
      obtain ⟨e, -, rfl⟩ := List.mem_map.1 hx
      exact e.2.size_nonneg c
  have := htotal c
  omega

include h in
/-- A subtree grafted by a re-read is afterwards as its walk left it. -/
theorem Brought.keptFrom (hb : Brought target answers st node listing children subdir subdirs m found sub)
    (hw : WritesStay target answers st node listing) (hfits : FitsIn target m sub) :
    KeptFrom found (relist target answers st node).1.tree m.st.tree.nodes.length := by
  have howned := owned_of_reached h.sized.reached
  obtain ⟨hrolled, -⟩ := rolledUp_of_run h
  have hstart := merging_start hs.entries howned.shape howned.names hb.relists.1 hb.relists.2.2
  obtain ⟨hm, -⟩ := owned_mergeRun hs howned hb.relists.1 hb.relists.2.2 hb.run
  have hnew := newcomers_run hs.walks hb.run hstart (newcomers_start listing howned.shape hb.relists.1)
  obtain ⟨hmadd, hnewadd, hnext⟩ := hnew.added hs.walks hm hb.next (hb.run.through (mergeRun_merged target answers st node listing))
  obtain ⟨shared, hsub⟩ := hb.new
  have hfound := hs.walks _ _ hb.walk
  have hwalked := walkNew_walked hs.walks hsub
  obtain ⟨hsame, -⟩ := sameSurplus_walkNew hs.walks hk.walks hk.totals hb.walk hsub
  have hlen : sub.nodes.length = found.nodes.length := hsame.shape.length.trans (DirTree.length_modifyNode _ _ _)
  have hfresh := hm.fresh (hm.ahead hb.next)
  rw [← hwalked.root] at hfresh
  have g := hm.shape.graft_spec hm.alive hwalked.shape.pos hfresh
  -- grafted
  have hnodes : (m.add target answers node subdir).st.tree.nodes = (m.st.tree.graft node sub).1.nodes := by
    rw [tree_add_fits hsub hfits]
    exact nodes_shareLinks _ _ _
  have hnode : ∀ i, (m.add target answers node subdir).st.tree.node i = (m.st.tree.graft node sub).1.node i := fun i => by
    unfold DirTree.node
    rw [hnodes]
  have hsurplus : ∀ i c, (m.add target answers node subdir).st.tree.surplus i c = (m.st.tree.graft node sub).1.surplus i c :=
    fun i c => DirTree.surplus_congr (by rw [hnode]) (by rw [hnode]) (by rw [hnode]) (fun j _ => by rw [hnode]) c
  have hgrown : (m.add target answers node subdir).st.tree.nodes.length = m.st.tree.nodes.length + sub.nodes.length := by
    rw [hnodes, g.length]
  -- to the end of the merge
  obtain ⟨went, came, refused, hweighs⟩ := weighs_run hs.walks hk.walks hk.totals hmadd hnext
  obtain ⟨hshape, hstate, hrest, -⟩ := surplus_applyAll hs.walks hs.entries howned (backed_of_run h.sized) hrolled hb.relists hk hw
  have hnl := DirTree.lt_of_alive hb.relists.1
  have hbound := hnew.length
  rw [hb.relists.relist_eq]
  have hstays : ∀ k < found.nodes.length, ((merged target answers st node listing).st.tree.node (m.st.tree.nodes.length + k)).alive = true :=
    fun k hlt => hnewadd.stay hs.walks hmadd hnext (by omega) (by omega)
  refine ⟨fun k hlt => (hshape.alive _).trans (hstays k hlt), fun k hlt => ?_, fun k hlt c => ?_⟩
  · have hne : m.st.tree.nodes.length + k ≠ node := by omega
    rw [(hstate _).2, hweighs.isSealed _ (by omega), decide_eq_false hne, Bool.false_and, Bool.or_false, hnode,
      g.new k (by omega)]
    show (sub.node k).isSealed = _
    rw [(hsame.state k).2, found.node_renameRoot]
  · have hne : m.st.tree.nodes.length + k ≠ node := by omega
    have hka : (sub.node k).alive = true := hwalked.alive k (by omega)
    rw [hrest _ (hstays k hlt), hweighs.surplus _ (by omega) (hstays k hlt), if_neg hne, if_neg hne, add_zero, add_zero, hsurplus,
      DirTree.surplus_graft_new g hwalked.shape hka, hsame.surplus k ((hsame.shape.alive k).symm.trans hka), surplus_renameRoot]

end Counted

/-- A directory read again, with the subtrees it counts without nodes. -/
structure CountsRefused (after : DirTree) (node : Nat) (listing : Listing) (refused : List DirTree) : Prop where
  alive : (after.node node).alive = true
  isSealed : refused ≠ [] → (after.node node).isSealed = true
  total : ∀ c, ((after.node node).sub.get c : Int) =
    (after.node node).direct.get c + after.overChildren node (fun n => n.sub.get c) + totalsOf refused c
  /-- Its entries hold all its subdirectories' own inodes. -/
  entries : ∀ c, (listing.subdirs.map fun s => s.amount c).sum ≤ (after.node node).direct.get c

theorem countsRefused (h : TotalsRun st) (hs : answers.Sound) (hl : Relists target answers st node listing)
    (hk : TotalsFit target answers st node listing) (hw : WritesStay target answers st node listing) :
    CountsRefused (relist target answers st node).1.tree node listing (refusedTrees target answers st node listing) := by
  have howned := owned_of_reached h.sized.reached
  have hbacked := backed_of_run h.sized
  obtain ⟨hrolled, -⟩ := rolledUp_of_run h
  have hnl := DirTree.lt_of_alive hl.1
  have hweighs := weighs_relist h hrolled hs hl hk hw
  obtain ⟨hshape, -⟩ := surplus_applyAll hs.walks hs.entries howned hbacked hrolled hl hk hw
  rw [← hl.relist_eq] at hshape
  have halive : ((relist target answers st node).1.tree.node node).alive = true :=
    (hshape.alive node).trans (accounts_merged hs.walks hs.entries howned hl.1 hl.2.2 hk.toSizesFit).1.alive
  refine ⟨halive, fun hne => ?_, fun c => ?_, fun c => ?_⟩
  · rw [hweighs.isSealed node hnl, decide_eq_true rfl, Bool.true_and]
    cases hr : refusedTrees target answers st node listing with
    | nil => exact absurd hr hne
    | cons t refused => rw [List.isEmpty_cons, Bool.not_false, Bool.or_true]
  · have hnone : ∀ c, tallySum c [] = 0 := fun _ => rfl
    have hsurplus := hweighs.surplus node hnl halive c
    rw [if_pos rfl, (hrolled node hl.1 c).2 hl.2.1, hnone] at hsurplus
    unfold DirTree.surplus at hsurplus
    omega
  · have hrest : ((relist target answers st node).1.tree.rest node c) = listing.direct.get c := by
      have hai := halive
      rw [hl.relist_eq] at hai ⊢
      rw [(rest_applyAll hs.walks hs.entries howned hbacked hl.1 hl.2.2 hk.toSizesFit node hai c).1 hnl]
      exact if_pos rfl
    have hsubdirs := countsSubdirs_readListing hl.2.2 c
    have hsmall := (hk.listed c).1
    have howns := (relist target answers st node).1.tree.owned_nonneg node c
    unfold DirTree.rest at hrest
    have : (2 : Nat) ^ 62 ≤ u64Max := by decide
    omega

theorem PastCap.brought (h : PastCap target answers st node listing children subdir subdirs m found sub) :
    Brought target answers st node listing children subdir subdirs m found sub :=
  ⟨⟨h.alive, h.unsealed, h.listed⟩, h.run, h.next, h.walk, h.new⟩

end Relist

/-! ## Later states -/

/-- The states such a run goes on to. -/
inductive GoesOn (st : TreeState) : TreeState → Prop
  | refl : GoesOn st st
  | relist {st' : TreeState} (h : GoesOn st st') (target : Target) (answers : Answers) (node : Nat) (hs : answers.Sound)
      (hk : ∀ listing, Relists target answers st' node listing → TotalsFit target answers st' node listing)
      (hw : ∀ listing, Relists target answers st' node listing → WritesStay target answers st' node listing) :
      GoesOn st (relist target answers st' node).1
  | touch {st' : TreeState} (h : GoesOn st st') (dir : Nat) (at_ : Int) : GoesOn st { st' with tree := st'.tree.touch dir at_ }

/-- A directory that is sealed, and what it has beyond its entries and its children. -/
structure StaysSealed (t u : DirTree) (i : Nat) : Prop where
  isSealed : (u.node i).isSealed = true
  surplus : ∀ c, u.surplus i c = t.surplus i c

section Later

variable {st st' : TreeState}

theorem GoesOn.run (hl : GoesOn st st') (h : TotalsRun st) : TotalsRun st' := by
  induction hl with
  | refl => exact h
  | relist _ target answers node hs hk hw ih => exact ih.relist target answers node hs hk hw
  | touch _ dir at_ ih => exact ih.touch dir at_

/-- A sealed directory stays so while it is there, with what it counts of its untracked subdirectories. -/
theorem GoesOn.staysSealed (hl : GoesOn st st') (h : TotalsRun st) : st.tree.nodes.length ≤ st'.tree.nodes.length ∧
    ∀ i < st.tree.nodes.length, (st'.tree.node i).alive = true → (st.tree.node i).isSealed = true → StaysSealed st.tree st'.tree i := by
  induction hl with
  | refl => exact ⟨le_rfl, fun i _ _ hs => ⟨hs, fun _ => rfl⟩⟩
  | @relist st' hl target answers node hs hk hw ih =>
    by_cases hr : ∃ listing, Relists target answers st' node listing
    · obtain ⟨listing, hr⟩ := hr
      have hrun := hl.run h
      have hweighs := weighs_relist hrun (rolledUp_of_run hrun).1 hs hr (hk listing hr) (hw listing hr)
      refine ⟨ih.1.trans hweighs.length, fun i hi ha hsealed => ?_⟩
      have hlt := hi.trans_le ih.1
      have hstays := ih.2 i hi (hweighs.alive i hlt ha) hsealed
      -- a sealed directory is not read
      have hne : i ≠ node := fun he => by
        have := hr.2.1
        rw [← he, hstays.isSealed] at this
        cases this
      refine ⟨by rw [hweighs.isSealed i hlt, hstays.isSealed, Bool.true_or], fun c => ?_⟩
      rw [hweighs.surplus i hlt ha, if_neg hne, add_zero]
      exact hstays.surplus c
    · rcases relist_cases target answers st' node with ⟨listing, hr', -⟩ | ⟨-, he⟩
      · exact absurd ⟨listing, hr'⟩ hr
      · rw [he]
        exact ih
  | @touch st' _ dir at_ ih =>
    have hsame := sameSurplus_touch st'.tree dir at_
    refine ⟨ih.1.trans_eq hsame.shape.length.symm, fun i hi ha hsealed => ?_⟩
    have halive := (hsame.shape.alive i).symm.trans ha
    have hstays := ih.2 i hi halive hsealed
    exact ⟨(hsame.state i).2.trans hstays.isSealed, fun c => (hsame.surplus i halive c).trans (hstays.surplus c)⟩

end Later

/-- What the cap on tracked directories holds, and what becomes of the directories it turns away. -/
structure CapHolds : Prop where
  /-- Whatever the workers do, before one of them panics. -/
  walking : ∀ {host : Host} {w : Walk} {root : Stat} {handle : Option Handle} {n : Nat}
    {s : WorkPool.State n Job Progress Worker Shared Failure}, Walking host w root handle s → s.panicked = false →
    deep w.target s.shared.nodes ≤ max w.target.treeMaxDirectories 1 - 1
  scanned : ∀ {host : Host} {target : Target} {hash : Bytes → Nat} {result : ScanResult} {t : DirTree},
    Scans host target hash (.ok result) → result.tree = some t →
    (t.nodes.countP fun n => target.reportDepth < n.depth) ≤ max target.treeMaxDirectories 1 - 1 ∧
      ∃ log won, LogScan host target hash t log won
  relisted : ∀ {target : Target} {st st' : TreeState}, Relisted target st st' →
    st'.tree.nodes.length ≤ max target.treeMaxDirectories st.tree.nodes.length
  /-- A directory refused by a scan. -/
  byScan : ∀ {host : Host} {target : Target} {hash : Bytes → Nat} {t : DirTree} {log : List Tallied} {won : Table Inode (Nat × Link)},
    LogScan host target hash t log won → host.listing.Proper → t.nodes.length < u64Max → ∀ r ∈ log, r.refused = true →
    RefusedByScan t log r
  /-- Directories refused by a re-read. -/
  byRelist : ∀ {target : Target} {answers : Answers} {st : TreeState} {node : Nat} {listing : Listing}, TotalsRun st → answers.Sound →
    Relists target answers st node listing → TotalsFit target answers st node listing → WritesStay target answers st node listing →
    CountsRefused (relist target answers st node).1.tree node listing (refusedTrees target answers st node listing)
  /-- A new subdirectory: refused, or grafted with what its walk refused. -/
  brought : ∀ {target : Target} {answers : Answers} {st : TreeState} {node : Nat} {listing : Listing} {children : List Nat} {subdir : Subdir}
    {subdirs : List Subdir} {m : Merge} {found sub : DirTree}, TotalsRun st → answers.Sound →
    Brought target answers st node listing children subdir subdirs m found sub →
    TotalsFit target answers st node listing → WritesStay target answers st node listing →
    (FitsIn target m sub → KeptFrom found (relist target answers st node).1.tree m.st.tree.nodes.length) ∧
    (¬FitsIn target m sub → sub ∈ refusedTrees target answers st node listing) ∧
    ∃ (host : Host) (hash : Bytes → Nat) (log : List Tallied) (won : Table Inode (Nat × Link)), host.listing.Proper ∧
      LogScan host (walkTarget target answers m.st.tree node subdir.name) hash found log won ∧
      ∀ c, (amounts log c : Int) ≤ (sub.node 0).sub.get c
  later : ∀ {st st' : TreeState}, TotalsRun st → GoesOn st st' → ∀ i < st.tree.nodes.length, (st'.tree.node i).alive = true →
    (st.tree.node i).isSealed = true → StaysSealed st.tree st'.tree i

/-- The cap holds, and loses no bytes. -/
theorem cap_holds : CapHolds where
  walking h hp := deep_of_walking h hp
  scanned h ht := by
    obtain ⟨log, won, hlog⟩ := logScan_of_scan h ht
    exact ⟨hlog.deep_le, log, won, hlog⟩
  relisted h := h.length_le
  byScan h hk hlen r hr href := refusedByScan h hk hlen hr href
  byRelist h hs hl hk hw := countsRefused h hs hl hk hw
  brought h hs hb hk hw := by
    refine ⟨hb.keptFrom h hs hk hw, hb.refused, ?_⟩
    obtain ⟨host, hash, counted, hp, hcount⟩ := hs.scans _ _ hb.walk
    obtain ⟨log, hlog⟩ := logScan_of_count hcount
    exact ⟨host, hash, log, counted, hp, hlog, hb.amounts_le hs hk hlog hp⟩
  later h hl i hi ha hsealed := (hl.staysSealed h).2 i hi ha hsealed

theorem fits_cramped : TotalsFit smallTarget (crampedAnswers [[97]]) holdingState 0 (holdingListing [[97]]) := by
  have hwalk : ∀ target tree, (crampedAnswers [[97]]).walk target = some tree → tree = movedTree := fun target tree he => by
    unfold crampedAnswers holdingAnswers at he
    dsimp only at he
    split at he
    · exact (Option.some.inj he).symm
    · cases he
  have hcame : (relistMoves smallTarget (crampedAnswers [[97]]) holdingState 0 (holdingListing [[97]])).came = [(movedSub.node 0).sub] := by
    have ho : childOrder (crampedAnswers [[97]]) holdingMerge.st 1 (holdingSubdir [97]) = .gt := rfl
    have hbrings : holdingMerge.brings smallTarget (crampedAnswers [[97]]) 0 (holdingSubdir [97]) = (movedSub.node 0).sub := by
      unfold Merge.brings walkNew
      rw [show (holdingSubdir [97]).name = [97] from rfl, walk_cramped]
      rfl
    show (mergeMoves smallTarget (crampedAnswers [[97]]) 0 2 [1] [holdingSubdir [97]] holdingMerge).came = _
    rw [mergeMoves, ho]
    dsimp only
    rw [hbrings, mergeMoves, mergeMoves]
  have hown : ∀ c, (holdingState.tree.node 0).own c < 2 ^ 62 ∧ sizeAt 0 2 c < 2 ^ 62 := fun c => by cases c <;> decide
  refine ⟨⟨⟨fun i hi c => ?_, fun c => by cases c <;> decide, fun c => ⟨by cases c <;> decide, by cases c <;> decide⟩, hown,
    fun target tree he i hi c => ?_⟩, fun p hp => (by cases hp)⟩, fun target tree he c => ?_, fun c => ?_⟩
  · have hlt : i < 2 := DirTree.lt_of_alive hi
    rcases (show i = 0 ∨ i = 1 by omega) with rfl | rfl <;> cases c <;> decide
  · rw [hwalk target tree he] at hi ⊢
    obtain rfl : i = 0 := Nat.lt_one_iff.1 hi
    cases c <;> decide
  · rw [hwalk target tree he]
    cases c <;> decide
  · unfold heldAfter
    rw [hcame]
    cases c <;> decide

/-- `/d/b` is renamed to `/d/a`, which there is no node left for: `/d` counts it, and is sealed. -/
theorem cap_holds_cramped : movedSub ∈ refusedTrees smallTarget (crampedAnswers [[97]]) holdingState 0 (holdingListing [[97]]) ∧
    ((relist smallTarget (crampedAnswers [[97]]) holdingState 0).1.tree.node 0).isSealed = true := by
  have hpast := pastCap_cramped [] rfl
  have hsound : (crampedAnswers [[97]]).Sound := sound_cramped (List.nodup_singleton _) (by decide)
  have hstays : WritesStay smallTarget (crampedAnswers [[97]]) holdingState 0 (holdingListing [[97]]) := fun link hl => by cases hl
  obtain ⟨-, hrefused, -⟩ := cap_holds.brought totalsRun_holding hsound hpast.brought fits_cramped hstays
  have hm := hrefused hpast.full
  exact ⟨hm, (cap_holds.byRelist totalsRun_holding hsound hpast.brought.relists fits_cramped hstays).isSealed (List.ne_nil_of_mem hm)⟩

/-! ## A directory too large -/

/-- A file as large as can be. -/
def hugeEntry (name : Bytes) : Entry :=
  { name := name, stat := .ok { kind := .file, dev := 1, ino := 8, nlink := 1, blocks := 0, size := 2 ^ 63 - 1, mtime := 0 }, handle := none }

/-- A file system of directories with two such files each. -/
def hugeHost : Host where
  stat _ _ answer := answer = .ok holdingStat
  handle _ handle := handle = none
  listing _ answer := answer = .ok { entries := [hugeEntry [120], hugeEntry [121]], fail := none }
  answers _ := ⟨_, rfl⟩

def hugeTree : DirTree where
  displayRoot := [slash, 100, slash, 97]
  scanRoot := [slash, 100, slash, 97]
  rootDev := 1
  nodes := [{ holdingNode [] none 0 with
      direct := { apparent := 2 ^ 64 - 2, files := 2 }
      sub := { apparent := 2 ^ 64 - 2, files := 2 } }]
  links := .empty
  handles := []
  plain := []
  untrackedLinks := []

set_option maxRecDepth 4000 in
theorem scan_huge : ∃ counted, CountScan hugeHost crampedTarget List.length hugeTree counted := by
  have h0 : Walking hugeHost (start crampedTarget holdingStat List.length) holdingStat none (n := 0) _ := .initial false
  have h1 := WorkPool.Reachable.step h0 (.worker (.spawnDone (i := 0) rfl (by decide)))
  have h2 := WorkPool.Reachable.step h1 (.worker (.retire (i := 0) rfl))
  have h3 := WorkPool.Reachable.step h2 (.worker (.more (i := 0) rfl (.opened rfl)))
  have h4 := WorkPool.Reachable.step h3 (.worker (.more (i := 0) rfl (.entry rfl rfl)))
  have h5 := WorkPool.Reachable.step h4 (.worker (.more (i := 0) rfl (.entry rfl rfl)))
  have h6 := WorkPool.Reachable.step h5 (.worker (.done (i := 0) rfl (.closed rfl rfl)))
  have h7 := WorkPool.Reachable.step h6 (.worker (.retire (i := 0) rfl))
  exact ⟨_, .walked rfl rfl rfl (by simp [RootHandle, crampedTarget, smallTarget, emptyWalk]) (by decide) (by decide) rfl h7
    (by decide) rfl rfl⟩

theorem proper_hugeHost : hugeHost.listing.Proper := by
  intro path reading hr
  cases hr
  refine ⟨by decide, fun e he => ?_⟩
  rcases List.mem_cons.1 he with rfl | he
  · exact .inr (by decide)
  · rw [List.mem_singleton.1 he]
    exact .inr (by decide)

open Classical in
/-- A re-read of `/d` that finds `/d/b` gone and `/d/a` new, with two such files. -/
noncomputable def hugeAnswers : Answers := holdingAnswers [[97]] fun target => if target = crampedTarget then some hugeTree else none

theorem walk_huge : hugeAnswers.walk (walkTarget smallTarget hugeAnswers holdingMerge.st.tree 0 [97]) = some hugeTree :=
  if_pos rfl

theorem sound_huge : hugeAnswers.Sound := by
  refine ⟨fun target tree h => ?_, fun own reading h => ?_⟩
  · obtain ⟨counted, hscan⟩ := scan_huge
    unfold hugeAnswers holdingAnswers at h
    dsimp only at h
    split at h
    · rename_i ht
      cases h
      exact ⟨_, _, counted, proper_hugeHost, ht ▸ hscan⟩
    · cases h
  · cases h
    refine ⟨by decide, fun e he => ?_⟩
    rw [List.mem_singleton.1 he]
    exact .inr (by decide)

theorem relist_huge : relist smallTarget hugeAnswers holdingState 0 =
    relist smallTarget (holdingAnswers [[97]] fun _ => some hugeTree) holdingState 0 := by
  have hadd : holdingMerge.add smallTarget hugeAnswers 0 (holdingSubdir [97]) =
      holdingMerge.add smallTarget (holdingAnswers [[97]] fun _ => some hugeTree) 0 (holdingSubdir [97]) := by
    unfold Merge.add walkNew
    rw [show (holdingSubdir [97]).name = [97] from rfl, walk_huge]
    rfl
  have hmerge : mergeListing smallTarget hugeAnswers holdingState 0 (holdingListing [[97]]) =
      mergeListing smallTarget (holdingAnswers [[97]] fun _ => some hugeTree) holdingState 0 (holdingListing [[97]]) :=
    congrArg (fun m : Merge => (settleLinks holdingState.tree 0 [] (holdingListing [[97]]).direct, m.drop 1)) hadd
  show applyAll smallTarget hugeAnswers holdingState 0 (holdingListing [[97]]) =
    applyAll smallTarget _ holdingState 0 (holdingListing [[97]])
  unfold applyAll
  rw [hmerge]

theorem brought_huge : Brought smallTarget hugeAnswers holdingState 0 (holdingListing [[97]]) [1] (holdingSubdir [97]) [] holdingMerge
    hugeTree (hugeTree.renameRoot [97]) where
  relists := ⟨rfl, rfl, rfl⟩
  run := .refl
  next := fun child hc => by
    cases hc
    rfl
  walk := walk_huge
  new := by
    refine ⟨[], ?_⟩
    unfold walkNew
    rw [show (holdingSubdir [97]).name = [97] from rfl, walk_huge]
    rfl

/-- `/d/a` has no room, and holds more than a change of a total can say: `/d` counts less than was found. -/
theorem huge_growth_clamped : ¬∀ (st : TreeState) (target : Target) (answers : Answers) (node : Nat) (listing : Listing)
    (children : List Nat) (subdir : Subdir) (subdirs : List Subdir) (m : Merge) (found sub : DirTree), LiveReached st → answers.Sound →
    Brought target answers st node listing children subdir subdirs m found sub → ¬FitsIn target m sub →
    ∀ c, (sub.node 0).sub.get c ≤ ((relist target answers st node).1.tree.node node).sub.get c := by
  intro h
  have hcounted := h _ _ _ _ _ _ _ _ _ _ _ reached_holding sound_huge brought_huge (by unfold FitsIn; decide) .apparent
  rw [relist_huge] at hcounted
  exact absurd hcounted (by decide)

end StorageHarvester
