/-
What is published explains the total served. A scan publishes how its tree differs from the one served
(`replace` in `src/live.rs`), a re-read what it changed (`relist`). Since the first scan these add up to the
change of the root's total, but for the root's own inode: a re-read publishes its growth, the difference of
two trees does not.
-/
import StorageHarvester.Live.RolledUp
import StorageHarvester.Tree.Diff

namespace StorageHarvester

open Forest

/-! ## Sizes of directories' own inodes -/

/-- Two trees whose directories' own inodes have the same sizes. -/
def SameOwn (t u : DirTree) : Prop := ∀ i, (u.node i).ownSize = (t.node i).ownSize

section Own

variable {node : Nat} {here : List Inode}

theorem sameOwn_grow (t : DirTree) (i : Nat) (d : Delta) : SameOwn t (t.grow i d) := by
  intro j
  rw [DirTree.node_grow, DirTree.node_applyDirect]
  split <;> rfl

theorem sameOwn_touch (t : DirTree) (i : Nat) (a : Int) : SameOwn t (t.touch i a) := by
  intro j
  rw [DirTree.node_touch]
  rfl

theorem sameOwn_applyListing (t : DirTree) (node : Nat) (direct : Tally) (moved : Delta) : SameOwn t (applyListing t node direct moved) := by
  intro j
  rw [node_applyListing, DirTree.node_modifyNode]
  split <;> rfl

theorem sameOwn_applyWrites : ∀ (writes : List (Nat × Delta)) (t : DirTree), SameOwn t (applyWrites t writes)
  | [], _ => fun _ => rfl
  | w :: writes, t => fun i => (sameOwn_applyWrites writes (t.grow w.1 w.2) i).trans (sameOwn_grow t w.1 w.2 i)

theorem sameOwn_relinked (t : DirTree) (links : Table Inode LinkOwner) : SameOwn t { t with links := links } := fun _ => rfl

theorem sameOwn_hand (h : Handing) (link : Inode × LinkOwner) : SameOwn h.tree (h.hand node here link).tree := by
  unfold Handing.hand
  dsimp only
  generalize Delta.size (asI64 link.2.blocks) (asI64 link.2.apparent) = size
  have htake : ∀ next links, SameOwn h.tree { h.tree.grow next size with links := links } := fun next links =>
    fun i => (sameOwn_relinked (h.tree.grow next size) links i).trans (sameOwn_grow h.tree next size i)
  split
  · split
    · exact sameOwn_relinked _ _
    · split
      · exact fun _ => rfl
      · exact htake _ _
  · split
    · exact fun _ => rfl
    · exact htake _ _

theorem sameOwn_hands : ∀ (links : List (Inode × LinkOwner)) (h : Handing), SameOwn h.tree (links.foldl (Handing.hand node here) h).tree
  | [], _ => fun _ => rfl
  | link :: links, h => fun i => (sameOwn_hands links (h.hand node here link) i).trans (sameOwn_hand h link i)

theorem ownSize_applyOwn {t : DirTree} (hn : node < t.nodes.length) (own : Own) (i : Nat) :
    ((applyOwn t node own).node i).ownSize = if i = node then (own.blocks, own.apparent) else (t.node i).ownSize := by
  have hset : ((t.modifyNode node fun n => { n with ownBlocks := own.blocks, ownApparent := own.apparent, mtime := own.mtime }).node i).ownSize =
      if i = node then (own.blocks, own.apparent) else (t.node i).ownSize := by
    rw [DirTree.node_modifyNode]
    by_cases hi : i = node
    · rw [if_pos ⟨hi, hn⟩, if_pos hi]
      rfl
    · rw [if_neg fun h => hi h.1, if_neg hi]
  unfold applyOwn
  dsimp only
  split
  · exact hset
  · split
    · exact hset
    · exact (sameOwn_grow _ _ _ i).trans hset

end Own

theorem own_of_ownSize {n : DirNode} {blocks apparent : Nat} (h : n.ownSize = (blocks, apparent)) (c : Component) :
    n.own c = sizeAt blocks apparent c := by
  obtain ⟨hb, ha⟩ := Prod.mk.inj h
  rw [← hb, ← ha]
  rfl

theorem SameOwn.own {t u : DirTree} (h : SameOwn t u) (i : Nat) (c : Component) : (u.node i).own c = (t.node i).own c :=
  own_of_ownSize (h i) c

/-! ## A re-read -/

/-- What the root's total counts: what is below it, and its own inode. -/
def servedTotal (t : DirTree) (c : Component) : Int := (t.node 0).sub.get c + (t.node 0).own c

section Relist

variable {target : Target} {answers : Answers} {st : TreeState} {node : Nat} {listing : Listing}

section Applied

variable (hw : answers.FreshWalks) (ho : answers.ProperEntries) (h : Owned st.tree) (hb : st.tree.Backed) (hr : st.tree.RolledUp)
  (hl : Relists target answers st node listing) (hk : TotalsFit target answers st node listing)

include hw ho h hl in
/-- The root's own inode is as it was, or as listed. -/
theorem own_applyAll (c : Component) : ((applyAll target answers st node listing).1.tree.node 0).own c =
    if 0 = node then (sizeAt listing.own.blocks listing.own.apparent c : Int) else (st.tree.node 0).own c := by
  obtain ⟨asked, he, -⟩ := applyAll_handing target answers st node listing
  obtain ⟨hm, -⟩ := mergeRun_rule hw (fun _ _ _ => True) (fun _ _ _ => trivial) (mergeRun_merged target answers st node listing)
    (merging_start ho h.shape h.names hl.1 hl.2.2) trivial
  have hlen : node < (applyListing (merged target answers st node listing).st.tree node (settledDirect st node listing)
      (merged target answers st node listing).moved).nodes.length := by
    rw [(sameLinks_applyListing _ _ _ _).shape.length]
    exact DirTree.lt_of_alive hm.alive
  have hmerged := ownSize_merged hw ho h.shape h.names hl.1 hl.2.2 (Nat.zero_le node)
  have hsize : ((applyAll target answers st node listing).1.tree.node 0).ownSize =
      if 0 = node then (listing.own.blocks, listing.own.apparent) else (st.tree.node 0).ownSize := by
    rw [he, sameOwn_hands, settledTree, sameOwn_applyWrites, grownTree, sameOwn_touch, ownSize_applyOwn hlen, sameOwn_applyListing, hmerged]
  split at hsize <;> rename_i hin
  · rw [if_pos hin]
    exact own_of_ownSize hsize c
  · rw [if_neg hin]
    exact own_of_ownSize hsize c

include hw ho h hb hr hl hk

/-- What a re-read publishes is what the root's total changes by, its own inode included. -/
theorem served_applyAll (hs : WritesStay target answers st node listing) (c : Component) :
    servedTotal (applyAll target answers st node listing).1.tree c =
      servedTotal st.tree c + writtenAll (applyAll target answers st node listing).2.changes c := by
  have hexact := applyAll_exact hw ho h.shape h.names hl.1 hl.2.2 (hk.withinLimit h.shape hr hl.1)
  -- what the parent counts beside its files covers what the own inode loses
  have hfits : OwnFits st node listing.own := fun p hp c => by
    have h1 := hk.parent p hp c; have h2 := st.tree.owned_nonneg p c; have h3 := st.tree.direct_eq p c
    have h4 : (sizeAt (st.tree.node node).ownBlocks (st.tree.node node).ownApparent c : Int) = (st.tree.node node).own c := rfl
    unfold ownGrowth
    omega
  have hgrown := hexact.grown hfits 0 (h.shape.root_above (DirTree.lt_of_alive hl.1)) c
  have hlater := ((sameSurplus_applyAll hw ho h hb hr hl hk hs).2 c).1
  rw [grownTree, sub_touch] at hlater
  rw [show applyListing (merged target answers st node listing).st.tree node (settledDirect st node listing)
    (merged target answers st node listing).moved = appliedTree target answers st node listing from rfl, hgrown] at hlater
  obtain ⟨rest, hchanges⟩ := List.head?_eq_some_iff.1 hexact.published
  unfold servedTotal
  rw [hlater, hchanges, writtenAll_cons, Delta.get_of, own_applyAll hw ho h hl, List.tail_cons]
  by_cases hin : 0 = node
  · -- the root's growth is published too: it goes to no parent, but to the root's own size
    subst hin
    have h4 : (sizeAt (st.tree.node 0).ownBlocks (st.tree.node 0).ownApparent c : Int) = (st.tree.node 0).own c := rfl
    rw [if_pos rfl, if_pos rfl]
    unfold ownGrowth
    omega
  · rw [if_neg hin, if_neg hin]
    omega

end Applied

/-- A re-read that lists nothing publishes nothing. -/
theorem changes_of_unlisted (hno : ∀ listing, ¬Relists target answers st node listing) : (relist target answers st node).2.changes = [] := by
  unfold relist
  split
  · rfl
  · rename_i hread
    rw [Bool.or_eq_true, Bool.not_eq_true', not_or, Bool.not_eq_false, Bool.not_eq_true] at hread
    split
    · split
      · split <;> rfl
      · rfl
    · rename_i listing hl
      exact absurd ⟨hread.1, hread.2, hl⟩ (hno listing)

end Relist

/-! ## Runs -/

/-- The tree a scan ends with, its total and its root's own inode below the limit. -/
structure ScannedBelow (t : DirTree) : Prop where
  scanned : ∃ host target hash counted, Walk.CountScan host target hash t counted ∧ host.listing.Proper
  total : ∀ c, (t.node 0).sub.get c < 2 ^ 62
  own : ∀ c, (t.node 0).own c < 2 ^ 62

/-- The states served since the first scan, with what was published of each component and how much the
root's own inode differed where a scan replaced the tree. -/
inductive ServedRun (first : DirTree) : TreeState → (Component → Int) → (Component → Int) → Prop
  | scan (h : ScannedBelow first) (generation : Nat) : ServedRun first (TreeState.new first generation) (fun _ => 0) fun _ => 0
  | rescan {st : TreeState} {published missed : Component → Int} (h : ServedRun first st published missed) {t : DirTree}
      (ht : ScannedBelow t) : ServedRun first (TreeState.new t (st.generation + 1)) (fun c => published c + diffSum st.tree t c)
        fun c => missed c + ((t.node 0).own c - (st.tree.node 0).own c)
  | relist {st : TreeState} {published missed : Component → Int} (h : ServedRun first st published missed) (target : Target)
      (answers : Answers) (node : Nat) (hs : answers.Sound)
      (hk : ∀ listing, Relists target answers st node listing → TotalsFit target answers st node listing)
      (hw : ∀ listing, Relists target answers st node listing → WritesStay target answers st node listing) :
      ServedRun first (relist target answers st node).1
        (fun c => published c + writtenAll (relist target answers st node).2.changes c) missed
  | touch {st : TreeState} {published missed : Component → Int} (h : ServedRun first st published missed) (dir : Nat) (at_ : Int) :
      ServedRun first { st with tree := st.tree.touch dir at_ } published missed

section Runs

variable {first : DirTree} {st : TreeState} {published missed : Component → Int}

theorem ScannedBelow.totalsRun {t : DirTree} (h : ScannedBelow t) (generation : Nat) : TotalsRun (TreeState.new t generation) := by
  obtain ⟨host, target, hash, counted, hscan, hproper⟩ := h.scanned
  exact .scan hscan hproper h.total generation

theorem ServedRun.totalsRun (h : ServedRun first st published missed) : TotalsRun st := by
  induction h with
  | scan h generation => exact h.totalsRun generation
  | rescan h ht ih => exact ht.totalsRun _
  | relist h target answers node hs hk hw ih => exact ih.relist target answers node hs hk hw
  | touch h dir at_ ih => exact ih.touch dir at_

theorem ServedRun.first_below (h : ServedRun first st published missed) : ScannedBelow first := by
  induction h with
  | scan h generation => exact h
  | rescan h ht ih => exact ih
  | relist h target answers node hs hk hw ih => exact ih
  | touch h dir at_ ih => exact ih

/-- The root's total and its own inode stay below what a `u64` holds. -/
theorem root_below (h : ServedRun first st published missed) (c : Component) :
    (st.tree.node 0).sub.get c < 2 ^ 63 ∧ (st.tree.node 0).own c < 2 ^ 62 := by
  induction h with
  | scan h generation => exact ⟨(h.total c).trans (by decide), h.own c⟩
  | rescan h ht ih => exact ⟨(ht.total c).trans (by decide), ht.own c⟩
  | @relist st published missed h target answers node hs hk hw ih =>
    rcases relist_cases target answers st node with ⟨listing, hl, he⟩ | ⟨-, he⟩
    · have howned := owned_of_reached h.totalsRun.sized.reached
      have hrolled := (rolledUp_of_run h.totalsRun).1
      have hown := own_applyAll hs.walks hs.entries howned hl c
      rw [he]
      refine ⟨((sameSurplus_applyAll hs.walks hs.entries howned (backed_of_run h.totalsRun.sized) hrolled hl (hk listing hl)
        (hw listing hl)).2 c).2, ?_⟩
      rw [hown]
      split
      · exact_mod_cast ((hk listing hl).own c).2
      · exact ih.2
    · rw [he]
      exact ih
  | @touch st published missed h dir at_ ih =>
    rw [(sameOwn_touch st.tree dir at_).own, sub_touch]
    exact ih

/-- Totals that are rolled up, below the limit at the root, are below it everywhere. -/
theorem summed_of_rolledUp {t : DirTree} (h : Shape t) (hr : t.RolledUp) (hroot : ∀ c, (t.node 0).sub.get c < 2 ^ 63) : t.Summed where
  children i hi c := by
    have hpos := (hr i hi c).1
    unfold DirTree.surplus at hpos
    omega
  limit i hi c := (hr.le_root h hi c).2.trans_lt (hroot c)

theorem ScannedBelow.summed {t : DirTree} (h : ScannedBelow t) : Shape t ∧ t.Summed := by
  obtain ⟨host, target, hash, counted, hscan, hproper⟩ := h.scanned
  have hfresh := hscan.fresh hproper
  have hroot : ∀ c, (t.node 0).sub.get c < 2 ^ 63 := fun c => (h.total c).trans (by decide)
  exact ⟨hfresh.shape, summed_of_rolledUp hfresh.shape (hfresh.rolledUp fun c => (hroot c).trans (by decide)) hroot⟩

theorem ServedRun.summed (h : ServedRun first st published missed) : Shape st.tree ∧ st.tree.Summed := by
  have hshape := (owned_of_reached h.totalsRun.sized.reached).shape
  exact ⟨hshape, summed_of_rolledUp hshape (rolledUp_of_run h.totalsRun).1 fun c => (root_below h c).1⟩

/-- The total served is the first scan's, what was published since, and what the root's own inode
differed by at the scans. -/
theorem served_total (h : ServedRun first st published missed) (c : Component) :
    servedTotal st.tree c = servedTotal first c + published c + missed c := by
  -- every step adds to the total what it publishes, a scan also what the own inode differs by
  induction h with
  | scan h generation => exact ((add_zero _).trans (add_zero _)).symm
  | @rescan st published missed h t ht ih =>
    obtain ⟨hshape, hsummed⟩ := h.summed
    have hdiff := diffSum_eq hshape ht.summed.1 hsummed ht.summed.2 c
    show servedTotal t c = servedTotal first c + (published c + diffSum st.tree t c) + (missed c + ((t.node 0).own c - (st.tree.node 0).own c))
    unfold servedTotal at ih ⊢
    omega
  | @relist st published missed h target answers node hs hk hw ih =>
    show _ = servedTotal first c + (published c + writtenAll (relist target answers st node).2.changes c) + missed c
    rcases relist_cases target answers st node with ⟨listing, hl, he⟩ | ⟨hno, he⟩
    · have howned := owned_of_reached h.totalsRun.sized.reached
      rw [he, served_applyAll hs.walks hs.entries howned (backed_of_run h.totalsRun.sized) (rolledUp_of_run h.totalsRun).1 hl
        (hk listing hl) (hw listing hl) c, ih]
      omega
    · have hnone : writtenAll [] c = 0 := rfl
      rw [he, changes_of_unlisted hno, ih, hnone, add_zero]
  | @touch st published missed h dir at_ ih =>
    rw [← ih]
    unfold servedTotal
    rw [(sameOwn_touch st.tree dir at_).own, sub_touch]

/-- Below the limit the root's totals do not saturate. -/
theorem total_root {t : DirTree} (h : ∀ c, (t.node 0).sub.get c < 2 ^ 63 ∧ (t.node 0).own c < 2 ^ 62) :
    ((t.node 0).totalBlocks : Int) = servedTotal t .blocks ∧ ((t.node 0).totalApparent : Int) = servedTotal t .apparent := by
  have hb := h .blocks
  have ha := h .apparent
  unfold DirNode.totalBlocks DirNode.totalApparent servedTotal saturatingAdd u64Max
  unfold DirNode.own sizeAt at *
  simp only [Tally.get] at *
  omega

/-- In every run of scans and re-reads, what was published since the first scan adds up to the change of the
total served exactly if what the root's own inode differed by at the scans adds up to nothing. -/
theorem served_explained_iff (h : ServedRun first st published missed) :
    (published .blocks = (st.tree.node 0).totalBlocks - ((first.node 0).totalBlocks : Int) ∧
      published .apparent = (st.tree.node 0).totalApparent - ((first.node 0).totalApparent : Int)) ↔
      missed .blocks = 0 ∧ missed .apparent = 0 := by
  obtain ⟨hblocks, happarent⟩ := total_root (root_below h)
  obtain ⟨hblocks₀, happarent₀⟩ := total_root (root_below (.scan h.first_below 1))
  have hb := served_total h .blocks
  have ha := served_total h .apparent
  rw [hblocks, happarent]
  show (_ = servedTotal st.tree .blocks - ((first.node 0).totalBlocks : Int) ∧
    _ = servedTotal st.tree .apparent - ((first.node 0).totalApparent : Int)) ↔ _
  have htree : (TreeState.new first 1).tree.node 0 = first.node 0 := rfl
  have htotal : ∀ c, servedTotal (TreeState.new first 1).tree c = servedTotal first c := fun _ => rfl
  rw [htree, htotal] at hblocks₀ happarent₀
  rw [hblocks₀, happarent₀]
  omega

end Runs

/-! ## A file that grew, and was as before at the next scan -/

theorem below_holding : ScannedBelow holdingTree := by
  obtain ⟨counted, h⟩ := scan_holding
  exact ⟨⟨_, _, _, counted, h, proper_holdingHost (by decide)⟩, fun c => by cases c <;> decide, fun c => by cases c <;> decide⟩

/-- The re-read of `/d/b` publishes what the file and the directory's own inode grew by, the scan that they
are as before. -/
theorem served_explained_iff_thick : ∃ published missed, ServedRun holdingTree (TreeState.new holdingTree 2) published missed ∧
    writtenAll (relist smallTarget thickAnswers holdingState 1).2.changes .apparent = 13 ∧ published .apparent = 0 ∧
    ((published .blocks = (holdingTree.node 0).totalBlocks - ((holdingTree.node 0).totalBlocks : Int) ∧
      published .apparent = (holdingTree.node 0).totalApparent - ((holdingTree.node 0).totalApparent : Int)) ↔
      missed .blocks = 0 ∧ missed .apparent = 0) := by
  have hrun := ((ServedRun.scan below_holding 1).relist smallTarget thickAnswers 1 sound_thick (fun listing hl => ?_) fun listing hl => ?_).rescan
    below_holding
  · exact ⟨_, _, hrun, by decide, by decide, served_explained_iff hrun⟩
  · obtain rfl : thickListing = listing := Except.ok.inj hl.2.2
    exact ⟨sizesFit_thick, fun _ _ he => (by cases he), fun c => by cases c <;> decide⟩
  · obtain rfl : thickListing = listing := Except.ok.inj hl.2.2
    intro link hlink owner hget hne
    obtain rfl : ⟨(1, 7), 1024, 20⟩ = link := (List.mem_singleton.1 hlink).symm
    cases hget
    exact absurd rfl hne

end StorageHarvester
