/-
The times of every tree there is: one a scan or a pool's build makes, and what re-reads, grafts,
touches and new allocations make of it. A pool's nodes have no time; a walked disk that goes opaque
loses the one it had, and nothing else lowers a time.
-/
import StorageHarvester.Live.State
import StorageHarvester.Live.Times
import StorageHarvester.Lvm.Placed
import StorageHarvester.Scan.Newest

namespace StorageHarvester

open Forest

namespace Lvm

/-! ## A pool's build -/

theorem mem_startChildren {nodes : List DirNode} {i j : Nat} :
    j ∈ startChildren nodes i ↔ j < nodes.length ∧ startParent nodes j = some i := by
  unfold startChildren
  rw [List.mem_insertionSort, List.mem_reverse, List.mem_filter, List.mem_range]
  simp

/-- Every node but the pool's has a parent, and none has a time. -/
theorem start_node {gs : List Guest} {i : Nat} (hl : i < (startNodes (placeGuests 1 gs)).length) :
    (0 < i → startParent (startNodes (placeGuests 1 gs)) i ≠ none) ∧
      ((startNodes (placeGuests 1 gs)).getD i default).newest = noTime := by
  rcases Nat.eq_zero_or_pos i with rfl | h0
  · rw [startNodes_eq]
    exact ⟨fun h => absurd h (Nat.lt_irrefl 0), rfl⟩
  · unfold startParent
    obtain ⟨g, hg, he⟩ := List.mem_flatMap.1 (placed_of_lt h0 hl)
    rcases List.mem_cons.1 he with he | he
    · have hn := congrArg Prod.snd he
      dsimp only at hn
      rw [hn]
      exact ⟨fun _ => Option.some_ne_none 0, rfl⟩
    · obtain ⟨d, hd, he⟩ := List.mem_map.1 he
      have hn := congrArg Prod.snd he
      dsimp only at hn
      rw [← hn]
      exact ⟨fun _ => Option.some_ne_none g.node, rfl⟩

theorem aged_placed {gs : List Guest} {t : DirTree} (ht : t.nodes = rollNodes (startNodes (placeGuests 1 gs))) : Aged t := by
  have hlen : t.nodes.length = (startNodes (placeGuests 1 gs)).length := by
    rw [ht, rollNodes, List.length_map, List.length_zipIdx]
  have hpos : 0 < (startNodes (placeGuests 1 gs)).length := by rw [length_startNodes]; omega
  have hnode : ∀ i < (startNodes (placeGuests 1 gs)).length, (t.node i).parent = startParent (startNodes (placeGuests 1 gs)) i ∧
      (t.node i).newest = noTime ∧ (t.node i).children = startChildren (startNodes (placeGuests 1 gs)) i := by
    intro i hi
    have h := node_rollNodes hi
    unfold DirTree.node
    rw [ht, h]
    exact ⟨rfl, (start_node hi).2, rfl⟩
  have hparent : t.parentOf = startParent (startNodes (placeGuests 1 gs)) := by
    funext i
    by_cases hi : i < (startNodes (placeGuests 1 gs)).length
    · exact (hnode i hi).1
    · rw [DirTree.parentOf, DirTree.node_of_le (by omega), startParent, List.getD_eq_default _ _ (Nat.le_of_not_lt hi)]
  refine ⟨⟨hlen ▸ hpos, ?_, ?_, fun i hi hl => ?_, fun p c hc => ?_⟩, fun j p hp hj _ => ?_⟩
  · rw [(hnode 0 hpos).1, startNodes_eq]
    rfl
  · rw [hparent]
    exact down_start gs
  · rw [hlen] at hl
    rw [(hnode i hl).1]
    exact (start_node hl).1 hi
  · by_cases hpl : p < (startNodes (placeGuests 1 gs)).length
    · rw [(hnode p hpl).2.2] at hc
      exact (congrFun hparent c).trans (mem_startChildren.1 hc).2
    · rw [DirTree.node_of_le (by omega)] at hc
      cases hc
  · exact absurd (hnode j (hlen ▸ DirTree.lt_of_parentOf hp)).2.1 hj

theorem aged_build {displayPath : Bytes} {lvm : Config.LvmTarget} {inputs : Inputs} {pool : Pool} {t : DirTree}
    (h : build displayPath lvm inputs = .ok (pool, t)) : Aged t := by
  unfold build at h
  split at h
  · cases h
  · split at h
    · cases h
    · cases h
      exact aged_placed rfl

/-! ## Its disks -/

section Disks

variable {t : DirTree}

theorem aging_graftWalk (h : Aged t) (disk : Disk) {walked : DirTree} (hw : Aged walked) :
    Aging t (graftWalk t disk walked).1 := by
  unfold graftWalk
  dsimp only
  split
  · exact .refl h
  · cases hp : (t.node disk.node).parent with
    | none => exact .refl h
    | some guest =>
      dsimp only
      have hguest : guest < t.nodes.length := Nat.lt_trans (h.down _ _ hp) (DirTree.lt_of_parentOf hp)
      have hgone := ((Aging.refl h).same (DirTree.sameTimes_detach t disk.node)).same
        (DirTree.sameTimes_propagate _ guest (Delta.ofTally (t.node disk.node).sub).negate)
      have hnamed : Aged (asDisk walked disk.key (disk.allocated.getD 0 - (walked.node 0).totalBlocks)) :=
        hw.same (.modifyNode walked 0 (fun _ => rfl) (fun _ => rfl) fun _ => List.Subset.refl _)
      exact (hgone.graft hnamed hguest).same (DirTree.sameTimes_propagate _ guest _)

theorem sameTimes_detaches : ∀ (children : List Nat) (t : DirTree),
    SameTimes t (children.foldl (fun t child => (t.detach child).1) t)
  | [], t => .refl t
  | c :: children, t => by
    rw [List.foldl_cons]
    exact (DirTree.sameTimes_detach t c).trans (sameTimes_detaches children _)

/-- A node flat and alone has no time, and so bounds none. -/
theorem aged_goFlat (h : Aged t) (node allocated : Nat) : Aged (goFlat t node allocated) ∧
    (∀ j, j ≠ node → ((goFlat t node allocated).node j).newest = (t.node j).newest) ∧
    (node < t.nodes.length → ((goFlat t node allocated).node node).newest = noTime) := by
  have hs : SameTimes t (detachChildren t node) :=
    (SameTimes.modifyNode t node (f := fun n => { n with children := [] }) (fun _ => rfl) (fun _ => rfl)
      fun n => List.nil_subset n.children).trans (sameTimes_detaches _ _)
  have hd := h.same hs
  have hfewer : Fewer (detachChildren t node) (goFlat t node allocated) :=
    (SameTimes.modifyNode (detachChildren t node) node (f := fun n => { flatNode allocated n with newest := n.newest })
      (fun _ => rfl) (fun _ => rfl) fun _ => List.Subset.refl _).toFewer.trans <| by
    refine ⟨by simp [goFlat], fun i => ?_, fun i => ?_⟩
    all_goals
      unfold goFlat
      rw [DirTree.node_modifyNode, DirTree.node_modifyNode]
      split
    · rfl
    · rfl
    · exact List.Subset.refl _
    · exact List.Subset.refl _
  have hnewest : ∀ j, ((goFlat t node allocated).node j).newest =
      if j = node ∧ node < (detachChildren t node).nodes.length then noTime else ((detachChildren t node).node j).newest := by
    intro j
    unfold goFlat
    rw [DirTree.node_modifyNode]
    split <;> rfl
  refine ⟨⟨hd.toRooted.fewer hfewer, fun j p hp hj hpn => ?_⟩, fun j hj => ?_, fun hl => ?_⟩
  · rw [hfewer.parent] at hp
    rw [hnewest] at hj hpn ⊢
    rw [hnewest]
    split at hj
    · exact absurd rfl hj
    · split at hpn
      · exact absurd rfl hpn
      · rename_i h1 h2
        rw [if_neg h1, if_neg h2]
        exact hd.heap j p hp hj hpn
  · rw [hnewest, if_neg fun he => hj he.1]
    exact hs.newest j
  · rw [hnewest, if_pos ⟨rfl, by rw [hs.length]; exact hl⟩]

theorem sameTimes_change (t : DirTree) (node : Nat) (change : Int) :
    SameTimes t (if change ≠ 0 then (t.applyDirect node (Delta.size change change)).propagate node (Delta.size change change)
      else t) := by
  split
  · exact (DirTree.sameTimes_applyDirect t node _).trans (DirTree.sameTimes_propagate _ node _)
  · exact .refl t

/-- A new allocation keeps all times, but for a disk that goes opaque. -/
theorem aged_setAllocated (h : Aged t) (disk : Disk) (allocated : Nat) : Aged (setAllocated t disk allocated).tree ∧
    (∀ j, (setAllocated t disk allocated).flat = false ∨ j ≠ disk.node →
      ((setAllocated t disk allocated).tree.node j).newest = (t.node j).newest) ∧
    ((setAllocated t disk allocated).flat = true → disk.node < t.nodes.length →
      ((setAllocated t disk allocated).tree.node disk.node).newest = noTime) := by
  unfold setAllocated
  dsimp only
  split
  · obtain ⟨hflat, hkept, hlost⟩ := aged_goFlat h disk.node allocated
    cases hp : ((goFlat t disk.node allocated).node disk.node).parent with
    | none => exact ⟨hflat, fun j hj => hkept j (hj.resolve_left Bool.true_eq_false_eq_False.elim), fun _ => hlost⟩
    | some p =>
      have hs := DirTree.sameTimes_propagate (goFlat t disk.node allocated) p (flatDelta (t.node disk.node) allocated)
      refine ⟨hflat.same hs, fun j hj => ?_, fun _ hl => (hs.newest disk.node).trans (hlost hl)⟩
      exact (hs.newest j).trans (hkept j (hj.resolve_left Bool.true_eq_false_eq_False.elim))
  · generalize wrapI64 (wrapI64 ((if disk.walked = true then allocated - ((t.node disk.node).totalBlocks - disk.unaccounted)
      else allocated : Nat) : Int) - wrapI64 (disk.unaccounted : Int)) = change
    have hs := sameTimes_change t disk.node change
    exact ⟨h.same hs, fun j _ => hs.newest j, fun hf => absurd hf Bool.false_ne_true⟩

end Disks

end Lvm

/-! ## All trees -/

/-- A tree some scan comes back with. -/
def Scanned (t : DirTree) : Prop :=
  ∃ host target hash result, Walk.Scans host target hash (.ok result) ∧ result.tree = some t

/-- What may be done to a tree: with a tree it brings in, and the disk's node that goes opaque. -/
inductive TimeStep : DirTree → Option DirTree → Option Nat → DirTree → Prop
  /-- It becomes the state of a live target. -/
  | live (t : DirTree) (generation : Nat) : TimeStep t none none (TreeState.new t generation).tree
  | relist (st : TreeState) (target : Target) (answers : Answers) (node : Nat)
      (hw : ∀ target tree, answers.walk target = some tree → Scanned tree) :
      TimeStep st.tree none none (relist target answers st node).1.tree
  | graft (t : DirTree) (under : Nat) (other : DirTree) (hu : under < t.nodes.length) :
      TimeStep t (some other) none (t.graft under other).1
  | graftWalk (t : DirTree) (disk : Lvm.Disk) (walked : DirTree) :
      TimeStep t (some walked) none (Lvm.graftWalk t disk walked).1
  | touch (t : DirTree) (index : Nat) (at_ : Int) : TimeStep t none none (t.touch index at_)
  | setAllocated (t : DirTree) (disk : Lvm.Disk) (allocated : Nat) :
      TimeStep t none (if (Lvm.setAllocated t disk allocated).flat then some disk.node else none)
        (Lvm.setAllocated t disk allocated).tree

/-- The trees of scans and of pools, and all that is made of them. -/
inductive TimesReached : DirTree → Prop
  | scan {t : DirTree} (h : Scanned t) : TimesReached t
  | build {displayPath : Bytes} {lvm : Config.LvmTarget} {inputs : Lvm.Inputs} {pool : Lvm.Pool} {t : DirTree}
      (h : Lvm.build displayPath lvm inputs = .ok (pool, t)) : TimesReached t
  | step {t u : DirTree} {brought : Option DirTree} {flat : Option Nat} (h : TimesReached t)
      (hb : ∀ other, brought = some other → TimesReached other) (hs : TimeStep t brought flat u) : TimesReached u

section Run

variable {t u : DirTree} {brought : Option DirTree} {flat : Option Nat}

theorem Scanned.aged (h : Scanned t) : Aged t := by
  obtain ⟨host, target, hash, result, hs, ht⟩ := h
  exact Walk.aged_of_scan hs ht

/-- No step lowers a time but that of a disk that goes opaque, which loses it. -/
theorem TimeStep.aged (hs : TimeStep t brought flat u) (h : Aged t) (hb : ∀ other, brought = some other → Aged other) :
    Aged u ∧ ∀ j < t.nodes.length, (t.node j).newest ≤ (u.node j).newest ∨ flat = some j ∧ (u.node j).newest = noTime := by
  have haging : Aging t u → Aged u ∧ ∀ j < t.nodes.length,
      (t.node j).newest ≤ (u.node j).newest ∨ flat = some j ∧ (u.node j).newest = noTime :=
    fun ha => ⟨ha.aged, fun j hj => .inl (ha.later.newest j hj)⟩
  cases hs with
  | live t generation => exact haging ((Aging.refl h).same (.of_nodes rfl))
  | relist st target answers node hw => exact haging (aging_relist (fun target tree he => (hw target tree he).aged) h)
  | graft t under other hu => exact haging ((Aging.refl h).graft (hb other rfl) hu)
  | graftWalk t disk walked => exact haging (Lvm.aging_graftWalk h disk (hb walked rfl))
  | touch t index at_ => exact haging ((Aging.refl h).touch index at_)
  | setAllocated t disk allocated =>
    obtain ⟨ha, hkept, hlost⟩ := Lvm.aged_setAllocated h disk allocated
    refine ⟨ha, fun j hj => ?_⟩
    by_cases hopaque : (Lvm.setAllocated t disk allocated).flat = true ∧ j = disk.node
    · obtain ⟨hf, rfl⟩ := hopaque
      exact .inr ⟨if_pos hf, hlost hf hj⟩
    · rw [Classical.not_and_iff_not_or_not, Bool.not_eq_true] at hopaque
      exact .inl (le_of_eq (hkept j hopaque).symm)

theorem TimesReached.aged (h : TimesReached t) : Aged t := by
  induction h with
  | scan h => exact h.aged
  | build h => exact Lvm.aged_build h
  | step _ _ hs ih ihb => exact (hs.aged ih ihb).1

/-- What the times of a tree are good for: they form a heap, so touching may stop early, and they
only go forward. -/
structure NewestHeap (t : DirTree) : Prop where
  /-- A directory with a time is as new as what is alive under it. -/
  heap : ∀ p c, (t.node p).alive = true → (t.node c).alive = true → (c ∈ (t.node p).children ∨ (t.node c).parent = some p) →
    (t.node p).newest ≠ noTime → (t.node c).newest ≠ noTime → (t.node c).newest ≤ (t.node p).newest
  /-- Stopping at the first directory already that new is as good as going on. -/
  touch : ∀ index at_, t.touch index at_ = t.raise index at_
  /-- No step lowers a time, but a disk that goes opaque loses it. -/
  forward : ∀ brought flat u, (∀ other, brought = some other → TimesReached other) → TimeStep t brought flat u →
    ∀ j, (t.node j).alive = true → (t.node j).newest ≤ (u.node j).newest ∨ flat = some j ∧ (u.node j).newest = noTime

theorem newest_heap (h : TimesReached t) : NewestHeap t where
  heap := fun p c _ _ hc hp hcn => by
    have hparent : (t.node c).parent = some p := hc.elim (h.aged.linked p c) id
    exact h.aged.heap c p hparent hcn hp
  touch := fun index at_ => DirTree.touch_eq_raise h.aged.down h.aged.heap index at_
  forward := fun brought flat u hb hs j hj =>
    (hs.aged h.aged fun other he => (hb other he).aged).2 j (DirTree.lt_of_alive hj)

end Run

theorem scanned_agedTree (mtime : Int) : Scanned (agedTree mtime) :=
  ⟨agedHost mtime, unreadTarget, List.length, agedResult mtime, Walk.scans_aged mtime, Walk.tree_agedResult mtime⟩

/-- A directory that appears under an older one makes it as new, and the older one stays so. -/
theorem newest_heap_grafted : ∃ t, NewestHeap t ∧ (t.node 0).newest = 9 ∧ (t.node 1).newest = 9 := by
  have h0 : TimesReached (agedTree 5000000000) := .scan (scanned_agedTree _)
  have h1 := h0.step (fun _ he => by cases he; exact .scan (scanned_agedTree 9000000000))
    (.graft _ 0 (agedTree 9000000000) (by decide))
  have h2 := h1.step (fun _ he => by cases he) (.touch _ 0 7)
  exact ⟨_, newest_heap h2, by decide, by decide⟩

end StorageHarvester
