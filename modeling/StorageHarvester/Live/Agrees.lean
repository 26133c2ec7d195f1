/-
`read_direct` against the walk's `read_dir`: two loops over a directory's entries, which keep step
entry by entry. What a scan records of a tracked directory is what a re-read of the same entries
lists, but for the subdirectories that the cap leaves without a node.
-/
import StorageHarvester.Live.Listing
import StorageHarvester.Scan.Visits

namespace StorageHarvester

open WorkPool (Bag BagReachable)

def PendingDir.subdir (dir : PendingDir) : Subdir where
  name := dir.name
  ino := dir.stat.ino
  blocks := dir.stat.blocks
  apparent := dir.stat.size
  mtime := dir.stat.mtime

def TrackedNode.subdir (n : TrackedNode) : Subdir where
  name := n.name
  ino := n.ino
  blocks := n.ownBlocks
  apparent := n.ownApparent
  mtime := n.mtime

namespace Tally

/-- An entry that is no directory counted. -/
def counted (t : Tally) : Kind → Tally
  | .symlink => { t with symlinks := t.symlinks + 1 }
  | _ => { t with files := t.files + 1 }

/-- The sizes are within the limit at which adding stops. -/
def Fits (t : Tally) : Prop := t.blocks ≤ u64Max ∧ t.apparent ≤ u64Max

theorem fits_addSize (t : Tally) (blocks apparent : Nat) : (t.addSize blocks apparent).Fits :=
  ⟨Nat.min_le_right _ _, Nat.min_le_right _ _⟩

theorem Fits.counted {t : Tally} (h : t.Fits) (kind : Kind) : (t.counted kind).Fits := by
  cases kind <;> exact h

theorem addSize_zero {t : Tally} (h : t.Fits) : t.addSize 0 0 = t := by
  obtain ⟨hblocks, happarent⟩ := h
  unfold addSize saturatingAdd
  rw [Nat.add_zero, Nat.add_zero, Nat.min_eq_left hblocks, Nat.min_eq_left happarent]

theorem empty_add {t : Tally} (h : t.Fits) : Tally.add {} t = t := by
  obtain ⟨hblocks, happarent⟩ := h
  unfold add addSize saturatingAdd
  simp only [Nat.zero_add, Nat.min_eq_left hblocks, Nat.min_eq_left happarent]

end Tally

/-- What a re-read that succeeds lists: the entries read one after the other, its subdirectories sorted. -/
theorem Listing.readDirect_ok {target : Target} {scanPath displayPath : Bytes} {rootDev : Nat} {recordPlain : Bool} {own : Stat}
    {reading : Reading} {l : Listing} (h : readDirect target scanPath displayPath rootDev recordPlain (.ok (own, reading)) = .ok l) :
    ∃ listed : Listing, listed = reading.entries.foldl (readEntry target displayPath rootDev recordPlain)
        { own := ⟨own.blocks, own.size, own.mtime⟩, newest := own.mtime } ∧
      l = { listed with subdirs := listed.subdirs.insertionSort fun a b => nameLe a.name b.name = true } := by
  unfold readDirect at h
  split at h
  · cases h
  · simp only at h
    split at h
    · cases h
    · cases h
      exact ⟨_, rfl, rfl⟩

namespace Walk

/-! ## Entry by entry -/

/-- Offered a link each, the table of links keeps the lowest. -/
def offerLinks (links : Table Inode Link) (offers : List (Inode × Link)) : Table Inode Link :=
  offers.foldl (fun links o => keepLowest links o.1 o.2 Link.key) links

/-- The subdirectories at `depth` that got no node when at most `k` directories had been offered one:
past the depth to report, and the cap was reached. -/
def TurnedAway (w : Walk) (depth k : Nat) (turned : List Subdir) : Prop :=
  turned ≠ [] → w.target.reportDepth < depth ∧ w.target.treeMaxDirectories < k

theorem TurnedAway.mono {w : Walk} {depth k k' : Nat} {turned : List Subdir} (h : w.TurnedAway depth k turned) (hk : k ≤ k') :
    w.TurnedAway depth k' turned := fun hne => ⟨(h hne).1, (h hne).2.trans_le hk⟩

/-- A walk reading a tracked directory and a re-read of it have come to the same entry, the worker
having had `before` when it began. -/
structure InStep (w : Walk) (own : Own) (before : Worker) (k : Nat) (p : InDir) (d : Worker) (l : Listing) : Prop where
  direct : p.sums = l.direct
  fits : p.sums.Fits
  floor : noTime ≤ p.newest
  newest : max own.mtime p.newest = l.newest
  subdirs : ∃ turned, (p.pending.map PendingDir.subdir ++ turned).Perm l.subdirs ∧ w.TurnedAway (p.job.depth + 1) k turned
  linkDirs : d.linkDirs = before.linkDirs ++ l.links.map fun e => (e.inode, p.job.node)
  links : ∃ offers : List (Inode × Link), offers.map (fun o => ⟨o.1, o.2.blocks, o.2.apparent⟩) = l.links ∧
    (∀ o ∈ offers, o.2.node = p.job.node ∧ o.2.direct = true) ∧ d.links = offerLinks before.links offers
  plain : d.plain = before.plain ++ l.plain.map fun key => (key, p.job.node)

section Steps

variable {w : Walk} {own : Own} {before d : Worker} {k : Nat} {p : InDir} {l : Listing}

/-- An entry neither loop takes further. -/
theorem InStep.skip (h : InStep w own before k p d l) {k' : Nat} (hk : k ≤ k') (counts : Counts) (pruned : Bool) :
    InStep w own before k' { p with pruned := pruned } { d with counts := counts } l := by
  obtain ⟨turned, hperm, haway⟩ := h.subdirs
  exact ⟨h.direct, h.fits, h.floor, h.newest, ⟨turned, hperm, haway.mono hk⟩, h.linkDirs, h.links, h.plain⟩

theorem InStep.subdir (h : InStep w own before k p d l) (ht : p.job.tracked = true) {k' : Nat} (hk : k ≤ k') (e : Entry)
    (stat : Stat) :
    InStep w own before (w.readSubdir e stat { p with newest := max p.newest stat.mtime } d k').2.2
      (w.readSubdir e stat { p with newest := max p.newest stat.mtime } d k').1
      (w.readSubdir e stat { p with newest := max p.newest stat.mtime } d k').2.1
      { { l with newest := max l.newest stat.mtime } with
        direct := { l.direct with dirs := l.direct.dirs + 1 }.addSize stat.blocks stat.size
        subdirs := l.subdirs ++ [{ name := e.name, ino := stat.ino, blocks := stat.blocks, apparent := stat.size, mtime := stat.mtime }] } := by
  obtain ⟨turned, hperm, haway⟩ := h.subdirs
  have hfloor : noTime ≤ max p.newest stat.mtime := h.floor.trans (le_max_left _ _)
  have hnewest : max own.mtime (max p.newest stat.mtime) = max l.newest stat.mtime := by rw [← max_assoc, h.newest]
  have hturned : w.keeps (p.job.depth + 1) k' = false → ∀ s : Subdir, (p.pending.map PendingDir.subdir ++ (turned ++ [s])).Perm
      (l.subdirs ++ [s]) ∧ w.TurnedAway (p.job.depth + 1) (k' + 1) (turned ++ [s]) := by
    intro hkeeps s
    refine ⟨by rw [← List.append_assoc]; exact hperm.append_right _, fun _ => ?_⟩
    unfold keeps at hkeeps
    rw [Bool.or_eq_false_iff, decide_eq_false_iff_not, decide_eq_false_iff_not] at hkeeps
    omega
  unfold readSubdir
  simp only [ht, if_true]
  split
  · -- the subdirectory gets a node
    refine ⟨by rw [← h.direct], Tally.fits_addSize .., hfloor, hnewest, ⟨turned, ?_, haway.mono (hk.trans (Nat.le_succ k'))⟩, h.linkDirs, h.links, h.plain⟩
    rw [List.map_append, List.append_assoc]
    refine (List.Perm.append_left _ List.perm_append_comm).trans ?_
    rw [← List.append_assoc]
    exact hperm.append_right _
  · rename_i hkeeps
    rw [Bool.not_eq_true] at hkeeps
    split
    · exact ⟨by rw [← h.direct], Tally.fits_addSize .., hfloor, hnewest, ⟨_, hturned hkeeps _⟩, h.linkDirs, h.links, h.plain⟩
    · exact ⟨by rw [← h.direct], Tally.fits_addSize .., hfloor, hnewest, ⟨_, hturned hkeeps _⟩, h.linkDirs, h.links, h.plain⟩

/-- Neither loop adds a multiply linked file's size, and both offer its link. -/
theorem InStep.file (h : InStep w own before k p d l) (ht : p.job.tracked = true) {k' : Nat} (hk : k ≤ k') (e : Entry)
    (stat : Stat) :
    InStep w own before k' (w.readFile e stat { p with newest := max p.newest stat.mtime } d).1
      (w.readFile e stat { p with newest := max p.newest stat.mtime } d).2
      (if 1 < stat.nlink then
        { { l with newest := max l.newest stat.mtime } with
          direct := l.direct.counted stat.kind
          links := l.links ++ [{ inode := (stat.dev, stat.ino), blocks := stat.blocks, apparent := stat.size }] }
      else
        { { l with newest := max l.newest stat.mtime } with
          direct := (l.direct.counted stat.kind).addSize stat.blocks stat.size
          plain := if w.target.collectHandles && stat.kind = .file then l.plain ++ [plainKey stat.dev stat.ino] else l.plain }) := by
  obtain ⟨turned, hperm, haway⟩ := h.subdirs
  have hfloor : noTime ≤ max p.newest stat.mtime := h.floor.trans (le_max_left _ _)
  have hnewest : max own.mtime (max p.newest stat.mtime) = max l.newest stat.mtime := by rw [← max_assoc, h.newest]
  have hsubdirs : ∃ turned, (p.pending.map PendingDir.subdir ++ turned).Perm l.subdirs ∧ w.TurnedAway (p.job.depth + 1) k' turned :=
    ⟨turned, hperm, haway.mono hk⟩
  obtain ⟨offers, hoffers, hat, hlinks⟩ := h.links
  have hsums : (w.readFile e stat { p with newest := max p.newest stat.mtime } d).1.sums =
      (l.direct.counted stat.kind).addSize (if 1 < stat.nlink then 0 else stat.blocks) (if 1 < stat.nlink then 0 else stat.size) := by
    rw [← h.direct]
    unfold readFile Tally.counted
    cases stat.kind <;> simp
  have hbounded : (w.readFile e stat { p with newest := max p.newest stat.mtime } d).1.sums.Fits := by
    rw [hsums]
    exact Tally.fits_addSize ..
  by_cases hs : 1 < stat.nlink
  · rw [if_pos hs]
    rw [if_pos hs, if_pos hs, Tally.addSize_zero ((h.direct ▸ h.fits).counted stat.kind)] at hsums
    refine ⟨hsums, hbounded, hfloor, hnewest, hsubdirs, ?_, ?_, ?_⟩
    · show (if (decide (1 < stat.nlink) && p.job.tracked) = true then _ else _) = _
      rw [if_pos (by simp [hs, ht]), h.linkDirs, List.map_append, List.append_assoc]
      rfl
    · let link : Link :=
        { key := w.linkKey p.job.path e.name, node := p.job.node, direct := p.job.tracked, blocks := stat.blocks
          apparent := stat.size
          entry := if p.job.tracked && isReported w.target p.job.depth then some d.entries.length else none }
      refine ⟨offers ++ [((stat.dev, stat.ino), link)], ?_, fun o ho => ?_, ?_⟩
      · rw [List.map_append, hoffers]
        rfl
      · rcases List.mem_append.1 ho with ho | ho
        · exact hat o ho
        · rw [List.mem_singleton.1 ho]
          exact ⟨rfl, ht⟩
      · show (if 1 < stat.nlink then _ else _) = _
        rw [if_pos hs, hlinks]
        unfold offerLinks
        rw [List.foldl_append]
        rfl
    · show (if (!decide (1 < stat.nlink) && w.target.collectHandles && decide (stat.kind = .file)) = true then _ else _) = _
      rw [if_neg (by simp [hs])]
      exact h.plain
  · rw [if_neg hs]
    rw [if_neg hs, if_neg hs] at hsums
    refine ⟨hsums, hbounded, hfloor, hnewest, hsubdirs, ?_, ?_, ?_⟩
    · show (if (decide (1 < stat.nlink) && p.job.tracked) = true then _ else _) = _
      rw [if_neg (by simp [hs])]
      exact h.linkDirs
    · refine ⟨offers, hoffers, hat, ?_⟩
      show (if 1 < stat.nlink then _ else _) = _
      rw [if_neg hs]
      exact hlinks
    · show (if (!decide (1 < stat.nlink) && w.target.collectHandles && decide (stat.kind = .file)) = true then _ else _) = _
      simp only [hs, decide_false, Bool.not_false, Bool.true_and]
      split
      · rw [h.plain, List.map_append, List.append_assoc]
        rfl
      · exact h.plain

/-- The two loops agree at every entry: in what they pass over, in that order, and in what they count. -/
theorem InStep.entry (h : InStep w own before k p d l) (ht : p.job.tracked = true) {k' : Nat} (hk : k ≤ k') (e : Entry) :
    InStep w own before (w.readEntry e p d k').2.2 (w.readEntry e p d k').1 (w.readEntry e p d k').2.1
      (Listing.readEntry w.target (w.displayDir p.job) w.rootDev w.target.collectHandles l e) := by
  unfold readEntry Walk.excludes Listing.readEntry
  by_cases hdot : isDot e.name = true
  · rw [if_pos hdot, if_pos hdot]
    exact h.skip hk _ p.pruned
  rw [if_neg hdot, if_neg hdot]
  by_cases hx : (!w.target.exclude.isEmpty && w.target.exclude.isMatch (pushComponent (w.displayDir p.job) e.name)) = true
  · rw [if_pos hx, if_pos hx]
    exact h.skip hk _ true
  rw [if_neg hx, if_neg hx]
  cases e.stat with
  | error err =>
    simp only
    split
    · exact h.skip hk _ p.pruned
    · exact h.skip hk _ p.pruned
  | ok stat =>
    simp only
    by_cases hdev : (w.target.noCrossFilesystem && decide (stat.dev ≠ w.rootDev)) = true
    · rw [if_pos hdev, if_pos hdev]
      exact h.skip hk _ p.pruned
    rw [if_neg hdev, if_neg hdev]
    have hdepth : InStep w own before k p
        { d with counts := { d.counts with maxObservedDepth := max d.counts.maxObservedDepth (p.job.depth + 1) } } l :=
      h.skip le_rfl _ p.pruned
    have hfile := hdepth.file ht hk e stat
    cases hkind : stat.kind with
    | directory => exact hdepth.subdir ht hk e stat
    | file =>
      rw [hkind] at hfile
      exact hfile
    | symlink =>
      rw [hkind] at hfile
      exact hfile
    | other =>
      rw [hkind] at hfile
      exact hfile

/-- A visit to a tracked directory, and a re-read that has come as far. -/
theorem Visits.inStep {kernel : Kernel} {job : Job} {reading : Reading} (h : Visits w kernel job reading before k p d)
    (ht : job.tracked = true) (hm : noTime ≤ own.mtime) :
    ∃ read, reading.entries = read ++ p.left ∧ InStep w own before k p d
      (read.foldl (Listing.readEntry w.target (w.displayDir job) w.rootDev w.target.collectHandles)
        { own := own, newest := own.mtime }) := by
  induction h with
  | opened k h =>
    refine ⟨[], rfl, rfl, ⟨Nat.zero_le _, Nat.zero_le _⟩, le_rfl, max_eq_left hm, ⟨[], .refl _, fun hne => absurd rfl hne⟩, ?_,
      ⟨[], rfl, fun o ho => absurd ho List.not_mem_nil, rfl⟩, ?_⟩
    · exact (List.append_nil _).symm
    · exact (List.append_nil _).symm
  | @entry k tracked p d e rest h hk hl ih =>
    obtain ⟨read, hread, hin⟩ := ih
    have hleft := (readEntry_kept w e { p with left := rest } d tracked).left
    have hat : p.job = job := h.on.at_
    refine ⟨read ++ [e], ?_, ?_⟩
    · rw [hleft, hread, hl, List.append_assoc]
      rfl
    · subst hat
      have hin' : InStep w own before k { p with left := rest } d
          (read.foldl (Listing.readEntry w.target (w.displayDir p.job) w.rootDev w.target.collectHandles)
            { own := own, newest := own.mtime }) :=
        ⟨hin.direct, hin.fits, hin.floor, hin.newest, hin.subdirs, hin.linkDirs, hin.links, hin.plain⟩
      rw [List.foldl_append, List.foldl_cons, List.foldl_nil]
      exact hin'.entry ht hk e

end Steps

/-! ## At the end of a directory -/

/-- What a worker records of the tracked directory it was at, which had `nodes` registered and leaves
`nodes'`, when a re-read of it lists `l`. -/
structure Recorded (w : Walk) (job : Job) (before after : Worker) (nodes nodes' : List TrackedNode) (offered : Nat)
    (l : Listing) : Prop where
  /-- Entries and sizes, but for those of multiply linked files. -/
  direct : (after.tallies job.node).direct = l.direct
  /-- The newest time of the directory and its entries. -/
  newest : max (toSeconds (nodeIn nodes job.node).mtime) (after.tallies job.node).newest = toSeconds l.newest
  /-- Every multiply linked entry is a holder of its inode, and offered as the link that carries its size. -/
  linkDirs : after.linkDirs = before.linkDirs ++ l.links.map fun e => (e.inode, job.node)
  links : ∃ offers : List (Inode × Link), offers.map (fun o => ⟨o.1, o.2.blocks, o.2.apparent⟩) = l.links ∧
    (∀ o ∈ offers, o.2.node = job.node ∧ o.2.direct = true) ∧ after.links = offerLinks before.links offers
  plain : after.plain = before.plain ++ l.plain.map fun key => (key, job.node)
  /-- The subdirectories registered, which are all but those turned away. -/
  subdirs : ∃ turned, ((nodes'.drop nodes.length).map TrackedNode.subdir ++ turned).Perm l.subdirs ∧
    w.TurnedAway (job.depth + 1) offered turned
  below : ∀ n ∈ nodes'.drop nodes.length, n.parent = some job.node

theorem drop_registered (p : InDir) (nodes : List TrackedNode) :
    (p.registered nodes).drop nodes.length = p.pending.map (register p.job) := by
  unfold InDir.registered
  split
  · exact List.drop_left' (List.length_modify ..)
  · exact List.drop_left' rfl

section Agreement

variable {host : Host} {w : Walk} {root : Stat} {handle : Option Handle} {n : Nat}
  {s : WorkPool.State n Job Progress Worker Shared Failure} {i : Fin (n + 1)} {job : Job} {p : InDir}

/-- The listing of what a visit met, at its end. -/
theorem Visits.recorded {reading : Reading} {before d : Worker} {k offered : Nat} {nodes : List TrackedNode}
    (h : Visits w host.listing job reading before k p d) (ht : job.tracked = true) (hl : p.left = []) (hk : k ≤ offered)
    (hblank : before.tallies job.node = {}) {own : Stat} (hm : noTime ≤ own.mtime)
    (hown : own.mtime = (nodeIn nodes job.node).mtime) {scanPath : Bytes} {l : Listing}
    (hr : Listing.readDirect w.target scanPath (w.displayDir job) w.rootDev w.target.collectHandles (.ok (own, reading)) = .ok l) :
    Recorded w job before (p.tallied d) nodes (p.registered nodes) offered l := by
  obtain ⟨read, hread, hin⟩ := h.inStep ht (show noTime ≤ (Own.mk own.blocks own.size own.mtime).mtime from hm)
  rw [hl, List.append_nil] at hread
  subst hread
  have hon := h.on
  obtain ⟨listed, hlisted, rfl⟩ := Listing.readDirect_ok hr
  rw [← hlisted] at hin
  obtain ⟨turned, hperm, haway⟩ := hin.subdirs
  obtain ⟨offers, hoffers, hat, hlinks⟩ := hin.links
  have hjob := hon.at_
  subst hjob
  have htally : (p.tallied d).tallies p.job.node = { direct := Tally.add {} p.sums, newest := max noTime (toSeconds p.newest) } := by
    unfold InDir.tallied NodeTally.modifyPart
    simp only [Function.update_self, ht, if_true, hon.tallies, hblank]
  refine ⟨?_, ?_, hin.linkDirs, ⟨offers, hoffers, hat, hlinks⟩, hin.plain, ⟨turned, ?_, haway.mono hk⟩, fun n hn => ?_⟩
  · rw [htally]
    show Tally.add {} p.sums = listed.direct
    rw [← hin.direct]
    exact Tally.empty_add hin.fits
  · rw [htally, ← hown]
    show max (toSeconds own.mtime) (max noTime (toSeconds p.newest)) = toSeconds listed.newest
    rw [max_eq_right (noTime_le_toSeconds hin.floor), ← hin.newest, toSeconds_max hm hin.floor]
  · rw [drop_registered, List.map_map]
    refine List.Perm.trans ?_ (List.perm_insertionSort _ _).symm
    exact hperm
  · rw [drop_registered] at hn
    obtain ⟨dir, -, rfl⟩ := List.mem_map.1 hn
    rfl

end Agreement

/-! ## A directory at the cap -/

/-- What `stat` says of an entry of the directory below. -/
def mixedStat (kind : Kind) (ino nlink size : Nat) : Stat :=
  { kind := kind, dev := 1, ino := ino, nlink := nlink, blocks := size, size := size, mtime := 5000000000 }

/-- Two subdirectories, a file, and a file with a second link elsewhere. -/
def mixedReading : Reading where
  entries :=
    [{ name := [97], stat := .ok (mixedStat .directory 3 2 10), handle := none },
      { name := [102], stat := .ok (mixedStat .file 4 1 20), handle := none },
      { name := [108], stat := .ok (mixedStat .file 5 2 30), handle := none },
      { name := [122], stat := .ok (mixedStat .directory 6 2 40), handle := none }]
  fail := none

/-- A file system on which every directory holds these. -/
def mixedHost : Host where
  stat _ _ answer := answer = .ok (mixedStat .directory 2 2 10)
  handle _ handle := handle = none
  listing _ answer := answer = .ok mixedReading
  answers _ := ⟨_, rfl⟩

/-- A walk of `/d` for fanotify that reports the root alone, for a tree of at most two directories. -/
def mixedWalk : Walk where
  target :=
    { displayPath := [slash, 100], scanPath := [slash, 100], exclude := { isEmpty := true, isMatch := fun _ => false }
      followSymlinks := false, noCrossFilesystem := false, reportMode := .tree, reportDepth := 0, maxDepth := none
      scanThreads := 1, treeMaxDirectories := 2, collectHandles := true }
  rootDev := 1
  hash := List.length

/-- The root's node. -/
def mixedRoot : TrackedNode := rootNode mixedWalk.target (mixedStat .directory 2 2 10) none

/-- One worker at the end of the root, of whose subdirectories the first gets a node. -/
theorem mixed_read : ∃ (s : WorkPool.State 0 Job Progress Worker Shared Failure) (p : InDir),
    Walking mixedHost mixedWalk (mixedStat .directory 2 2 10) none s ∧ s.abandoned = [] ∧
      s.phase 0 = .working (rootJob mixedWalk.target) (.reading p) ∧ p.left = [] ∧ p.fail = none ∧ s.shared.nodes = [mixedRoot] ∧
      p.pending.map PendingDir.subdir = [⟨[97], 3, 10, 10, 5000000000⟩] := by
  have h0 : Walking mixedHost mixedWalk (mixedStat .directory 2 2 10) none (n := 0) _ := .initial false
  have h1 := WorkPool.Reachable.step h0 (.worker (.spawnDone (i := 0) rfl (by decide)))
  have h2 := WorkPool.Reachable.step h1 (.worker (.retire (i := 0) rfl))
  have h3 := WorkPool.Reachable.step h2 (.worker (.more (i := 0) rfl (.opened rfl)))
  have h4 := WorkPool.Reachable.step h3 (.worker (.more (i := 0) rfl (.entry rfl rfl)))
  have h5 := WorkPool.Reachable.step h4 (.worker (.more (i := 0) rfl (.entry rfl rfl)))
  have h6 := WorkPool.Reachable.step h5 (.worker (.more (i := 0) rfl (.entry rfl rfl)))
  have h7 := WorkPool.Reachable.step h6 (.worker (.more (i := 0) rfl (.entry rfl rfl)))
  exact ⟨_, _, h7, rfl, rfl, rfl, rfl, rfl, rfl⟩

/-- What a re-read of the root lists. -/
def mixedListing : Listing where
  direct := { files := 2, dirs := 2, symlinks := 0, blocks := 70, apparent := 70 }
  subdirs := [⟨[97], 3, 10, 10, 5000000000⟩, ⟨[122], 6, 40, 40, 5000000000⟩]
  links := [⟨(1, 5), 30, 30⟩]
  plain := [plainKey 1 4]
  own := ⟨10, 10, 5000000000⟩
  newest := 5000000000

theorem mixed_listed : Listing.readDirect mixedWalk.target [slash, 100] [slash, 100] 1 true
    (.ok (mixedStat .directory 2 2 10, mixedReading)) = .ok mixedListing := by decide

end Walk

end StorageHarvester
