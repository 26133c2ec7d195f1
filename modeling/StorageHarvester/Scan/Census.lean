/-
What a walk reads of a file system that does not change. Which directories it goes into, and which
entries it meets there, depends on the paths and on nothing else, so every walk that comes to its end
met the same entries at the same places, whatever the number of workers, the order they read in and the
directories that got no node.
-/
import StorageHarvester.Lib.WorkPoolOutput
import StorageHarvester.Scan.Logged
import StorageHarvester.Scan.Reach

namespace StorageHarvester

open WorkPool (Bag BagReachable Emitting Steady Unfolds ofActive)

/-! ## A file system that does not change -/

/-- What each request answers, as long as nothing changes. -/
structure Frozen where
  stat : Bytes → Bool → Except Errno Stat
  listing : Bytes → Except Errno Reading

/-- The same entries, in any order, up to the same end. -/
def SameReading : Except Errno Reading → Except Errno Reading → Prop
  | .ok reading, .ok reading' => reading.entries.Perm reading'.entries ∧ reading.fail = reading'.fail
  | .error error, .error error' => error = error'
  | _, _ => False

/-- A host that answers as the file system is. -/
structure Host.Frozen (host : Host) (fs : Frozen) : Prop where
  stat : ∀ path follow answer, host.stat path follow answer → answer = fs.stat path follow
  listing : ∀ path answer, host.listing path answer → SameReading answer (fs.listing path)

namespace Walk

/-! ## Places -/

/-- A directory by its path and depth, whichever node it counts for. -/
abbrev Place := Bytes × Nat

/-- A directory of a place to be read, for no node in particular. -/
def jobAt (x : Place) : Job := { path := x.1, depth := x.2, node := 0, tracked := false }

/-- The directory gone into at an entry, if it is. -/
def entered (w : Walk) (x : Place) (e : Entry) : Multiset Place :=
  if isDot e.name || w.excludes (jobAt x) e.name then 0
  else match e.stat with
    | .error _ => 0
    | .ok stat =>
      if w.target.noCrossFilesystem && stat.dev ≠ w.rootDev then 0
      else if stat.kind = .directory && w.descends (x.2 + 1) then {(childPath x.1 e.name, x.2 + 1)}
      else 0

/-- What a walk comes upon: an entry, or a directory that cannot be read, or not to its end. -/
inductive Event where
  | entry (x : Place) (e : Entry)
  | failed (x : Place) (error : Errno)

/-- The failure that ends a directory, if one does. -/
def failure (x : Place) (fail : Option Errno) : Multiset Event := (fail.map fun error => {Event.failed x error}).getD 0

/-- The directories gone into from a place. -/
def kids (w : Walk) (fs : Frozen) (x : Place) : Multiset Place :=
  match fs.listing x.1 with
  | .error _ => 0
  | .ok reading => (reading.entries : Multiset Entry).bind (w.entered x)

/-- What there is to come upon at a place. -/
def found (fs : Frozen) (x : Place) : Multiset Event :=
  match fs.listing x.1 with
  | .error error => {.failed x error}
  | .ok reading => (reading.entries : Multiset Entry).map (Event.entry x) + failure x reading.fail

/-- The directories still to be gone into from a directory begun. -/
def Progress.ahead (w : Walk) (fs : Frozen) : Progress → Multiset Place
  | .opening job => w.kids fs (job.path, job.depth)
  | .reading p => (p.ahead : Multiset Place) + (p.left : Multiset Entry).bind (w.entered (p.job.path, p.job.depth))

/-- What there is still to come upon there. -/
def Progress.owed (fs : Frozen) : Progress → Multiset Event
  | .opening job => found fs (job.path, job.depth)
  | .reading p => (p.left : Multiset Entry).map (Event.entry (p.job.path, p.job.depth)) + failure (p.job.path, p.job.depth) p.fail

/-- What the next step comes upon. -/
def Progress.emit (fs : Frozen) : Progress → Multiset Event
  | .opening job => match fs.listing job.path with
    | .error error => {.failed (job.path, job.depth) error}
    | .ok _ => 0
  | .reading p => match p.left with
    | [] => failure (p.job.path, p.job.depth) p.fail
    | e :: _ => {.entry (p.job.path, p.job.depth) e}

theorem excludes_jobAt (w : Walk) (job : Job) (name : Bytes) : w.excludes (jobAt (job.path, job.depth)) name = w.excludes job name := rfl

/-- Reading an entry adds to what is ahead the directory it goes into. -/
theorem ahead_readEntry (w : Walk) (e : Entry) (p : InDir) (d : Worker) (k : Nat) :
    ((w.readEntry e p d k).1.ahead : Multiset Place) = p.ahead + w.entered (p.job.path, p.job.depth) e := by
  have hnone : ∀ q : InDir, q.ahead = p.ahead → (q.ahead : Multiset Place) = p.ahead + 0 := by
    rintro q hq
    rw [hq, add_zero]
  by_cases hdot : isDot e.name = true
  · rw [entered, if_pos (by simp [hdot]), readEntry, if_pos hdot]
    exact hnone p rfl
  by_cases hx : w.excludes p.job e.name = true
  · rw [entered, excludes_jobAt, if_pos (by simp [hx]), readEntry, if_neg hdot, if_pos hx]
    exact hnone _ rfl
  rw [entered, excludes_jobAt, if_neg (by simp [hdot, hx]), readEntry, if_neg hdot, if_neg hx]
  cases e.stat with
  | error err =>
    dsimp only
    split
    · exact hnone _ rfl
    · exact hnone _ rfl
  | ok stat =>
    dsimp only
    by_cases hdev : (w.target.noCrossFilesystem && decide (stat.dev ≠ w.rootDev)) = true
    · rw [if_pos hdev, if_pos hdev]
      exact hnone _ rfl
    rw [if_neg hdev, if_neg hdev]
    cases hk : stat.kind with
    | directory =>
      cases hd : w.descends (p.job.depth + 1) with
      | false =>
        have hno : ¬ (decide (Kind.directory = Kind.directory) && false) = true := by simp
        rw [if_neg hno]
        unfold readSubdir
        dsimp only
        rw [hd]
        split
        · split
          · refine hnone _ ?_
            unfold InDir.ahead
            simp
          · exact hnone _ rfl
        · exact hnone _ rfl
      | true =>
        have hyes : (decide (Kind.directory = Kind.directory) && true) = true := by simp
        rw [if_pos hyes]
        -- tracked or not, the subdirectory is read
        have hchild : ∀ q : InDir, q.job = p.job → q.pending = p.pending →
            q.children = p.children ++ [{ path := childPath p.job.path e.name, depth := p.job.depth + 1, node := p.job.node, tracked := false }] →
            (q.ahead : Multiset Place) = p.ahead + {(childPath p.job.path e.name, p.job.depth + 1)} := by
          rintro q hj hp hc
          unfold InDir.ahead
          rw [hj, hp, hc, List.map_append, ← Multiset.coe_add, ← Multiset.coe_add, ← Multiset.coe_add]
          simp only [List.map_cons, List.map_nil, Multiset.coe_singleton]
          ac_rfl
        unfold readSubdir
        dsimp only
        rw [hd]
        split
        · split
          · unfold InDir.ahead
            simp only [List.filter_append, List.filter_cons_of_pos, List.filter_nil, List.map_append, List.map_cons, List.map_nil,
              ← Multiset.coe_add, Multiset.coe_singleton]
            ac_rfl
          · exact hchild _ rfl rfl rfl
        · exact hchild _ rfl rfl rfl
    | file => exact hnone _ rfl
    | symlink => exact hnone _ rfl
    | other => exact hnone _ rfl

/-- Every step of a walk of this file system hands on and comes upon what its place says. -/
theorem steady (w : Walk) {host : Host} {fs : Frozen} (hs : host.Frozen fs) :
    Steady (w.readDir host.listing host.answers) (Progress.emit fs) (fun job => (job.path, job.depth)) (w.kids fs) (found fs)
      (Progress.ahead w fs) (Progress.owed fs) where
  start _ := ⟨rfl, rfl⟩
  more interrupted p d s p' d' s' ht := by
    cases ht with
    | @opened job reading _ _ hr =>
      have hsame := hs.listing _ _ hr
      cases hl : fs.listing job.path with
      | error error =>
        rw [hl] at hsame
        exact hsame.elim
      | ok reading' =>
        rw [hl] at hsame
        obtain ⟨hperm, hfail⟩ := hsame
        constructor
        · simp only [Progress.ahead, kids, hl, InDir.ahead, List.map_nil, List.filter_nil, List.append_nil, Multiset.coe_nil, zero_add,
            Multiset.coe_eq_coe.2 hperm]
        · simp only [Progress.emit, Progress.owed, found, hl, hfail, zero_add, Multiset.coe_eq_coe.2 hperm]
    | @entry p₀ e rest _ _ hl hint =>
      have hkept := readEntry_kept w e { p₀ with left := rest } d s.tracked
      constructor
      · simp only [Progress.ahead]
        rw [ahead_readEntry, hkept.job, hkept.left, hl, ← Multiset.cons_coe, Multiset.cons_bind]
        exact add_assoc _ _ _
      · simp only [Progress.emit, Progress.owed]
        rw [hkept.job, hkept.left, hkept.fail, hl, ← Multiset.cons_coe, Multiset.map_cons]
        simp only
        rw [← add_assoc, Multiset.singleton_add]
  done interrupted p d s children d' s' ht := by
    cases ht with
    | @unopened job error _ _ _ hr =>
      have hsame := hs.listing _ _ hr
      cases hl : fs.listing job.path with
      | ok reading =>
        rw [hl] at hsame
        exact hsame.elim
      | error error' => constructor <;> simp [Progress.ahead, Progress.emit, Progress.owed, kids, found, hl]
    | @closed p₀ _ _ hl hf =>
      constructor
      · simp only [Progress.ahead]
        rw [hl, ← places_jobs p₀ s.nodes, Multiset.coe_nil, Multiset.zero_bind, add_zero]
        rfl
      · simp only [Progress.emit, Progress.owed]
        rw [hl]
        simp
    | @closedEarly p₀ _ _ error counts hl hf htol =>
      constructor
      · simp only [Progress.ahead]
        rw [hl, ← places_jobs p₀ s.nodes, Multiset.coe_nil, Multiset.zero_bind, add_zero]
        rfl
      · simp only [Progress.emit, Progress.owed]
        rw [hl]
        simp

/-- What is gone into is one level deeper. -/
theorem depth_kids {w : Walk} {fs : Frozen} (x y : Place) (hy : y ∈ w.kids fs x) : y.2 = x.2 + 1 := by
  unfold kids at hy
  split at hy
  · exact absurd hy (Multiset.notMem_zero y)
  · obtain ⟨e, -, hy⟩ := Multiset.mem_bind.1 hy
    unfold entered at hy
    split at hy
    · exact absurd hy (Multiset.notMem_zero y)
    · split at hy
      · exact absurd hy (Multiset.notMem_zero y)
      · split at hy
        · exact absurd hy (Multiset.notMem_zero y)
        · split at hy
          · rw [Multiset.mem_singleton.1 hy]
          · exact absurd hy (Multiset.notMem_zero y)

/-! ## Targets that ask for the same walk -/

/-- Targets that tell what is read alike. They may differ in what is reported, in the number of workers and in
the directories that get a node. -/
structure Alike (target target' : Target) : Prop where
  displayPath : target'.displayPath = target.displayPath
  scanPath : target'.scanPath = target.scanPath
  exclude : target'.exclude = target.exclude
  followSymlinks : target'.followSymlinks = target.followSymlinks
  noCrossFilesystem : target'.noCrossFilesystem = target.noCrossFilesystem
  maxDepth : target'.maxDepth = target.maxDepth

section Alike

variable {target target' : Target} {root : Stat} {hash hash' : Bytes → Nat}

theorem Alike.excludes (h : Alike target target') (job : Job) (name : Bytes) :
    (start target' root hash').excludes job name = (start target root hash).excludes job name := by
  unfold Walk.excludes Walk.displayDir relStart start
  rw [h.exclude, h.displayPath, h.scanPath]

theorem Alike.descends (h : Alike target target') (depth : Nat) :
    (start target' root hash').descends depth = (start target root hash).descends depth := by
  simp only [Walk.descends, start, h.maxDepth]

theorem Alike.entered (h : Alike target target') (x : Place) (e : Entry) :
    (start target' root hash').entered x e = (start target root hash).entered x e := by
  have hcross : (start target' root hash').target.noCrossFilesystem = (start target root hash).target.noCrossFilesystem :=
    h.noCrossFilesystem
  have hexcludes : (start target' root hash').excludes (jobAt x) e.name = (start target root hash).excludes (jobAt x) e.name :=
    h.excludes _ _
  have hdescends : (start target' root hash').descends (x.2 + 1) = (start target root hash).descends (x.2 + 1) := h.descends _
  unfold Walk.entered
  rw [hexcludes, hdescends, hcross]
  rfl

theorem Alike.kids (h : Alike target target') (fs : Frozen) (x : Place) :
    (start target' root hash').kids fs x = (start target root hash).kids fs x := by
  unfold Walk.kids
  split
  · rfl
  · exact Multiset.bind_congr fun e _ => h.entered x e

end Alike

/-! ## What a walk has counted -/

theorem counts_eta (c : Counts) : Counts.add {} c = c := by
  cases c
  simp [Counts.add]

instance : Zero Counts := ⟨{}⟩

/-- Counts add up; the deepest level seen is the deepest of both. -/
instance : Add Counts := ⟨Counts.add⟩

instance : AddCommMonoid Counts where
  add_assoc a b c := by
    show (a.add b).add c = a.add (b.add c)
    simp only [Counts.add, Nat.add_assoc, max_assoc]
  add_comm a b := by
    show a.add b = b.add a
    simp only [Counts.add, Nat.add_comm, max_comm]
  zero_add := counts_eta
  add_zero c := by
    show c.add {} = c
    cases c
    simp [Counts.add]
  nsmul := nsmulRec

theorem add_counts (a b : Counts) : a + b = a.add b := rfl

/-- What an entry adds to the counts. -/
def entryCounts (w : Walk) (x : Place) (e : Entry) : Counts :=
  if isDot e.name then {}
  else if w.excludes (jobAt x) e.name then { skippedExcluded := 1 }
  else match e.stat with
    | .error error => if error.isPermissionDenied then { permissionErrors := 1 } else { missingPathRaces := 1 }
    | .ok stat =>
      if w.target.noCrossFilesystem && stat.dev ≠ w.rootDev then { skippedCrossDevice := 1 }
      else
        { maxObservedDepth := x.2 + 1
          scannedDirectories := if stat.kind = .directory then 1 else 0
          depthLimitHits := if stat.kind = .directory && !w.descends (x.2 + 1) then 1 else 0
          scannedFiles := if stat.kind = .file then 1 else 0
          scannedSymlinks := if stat.kind = .symlink then 1 else 0 }

/-- What an entry adds to the counts, or the end of a directory. -/
def Event.counts (w : Walk) : Event → Counts
  | .entry x e => w.entryCounts x e
  | .failed _ error => if error.isPermissionDenied then { permissionErrors := 1 } else { missingPathRaces := 1 }

theorem counts_tolerate {counts counts' : Counts} {error : Errno} (h : tolerate counts error = some counts') (x : Place) (w : Walk) :
    counts' = counts + Event.counts w (.failed x error) := by
  show counts' = counts + if error.isPermissionDenied then { permissionErrors := 1 } else { missingPathRaces := 1 }
  unfold tolerate at h
  split at h
  · rename_i hp
    cases h
    rw [if_pos hp]
    simp [add_counts, Counts.add]
  · rename_i hp
    rw [if_neg hp]
    split at h <;> cases h <;> simp [add_counts, Counts.add]

theorem counts_readEntry (w : Walk) (e : Entry) (p : InDir) (d : Worker) (k : Nat) :
    (w.readEntry e p d k).2.1.counts = d.counts + Event.counts w (.entry (p.job.path, p.job.depth) e) := by
  show (w.readEntry e p d k).2.1.counts = d.counts + w.entryCounts (p.job.path, p.job.depth) e
  unfold readEntry entryCounts
  rw [excludes_jobAt]
  split
  · simp [add_counts, Counts.add]
  split
  · simp [add_counts, Counts.add]
  cases e.stat with
  | error err =>
    dsimp only
    split <;> simp [add_counts, Counts.add]
  | ok stat =>
    dsimp only
    split
    · simp [add_counts, Counts.add]
    cases hk : stat.kind with
    | directory =>
      unfold readSubdir
      dsimp only
      rcases hd : w.descends (p.job.depth + 1) with _ | _
      · split
        · split <;> simp [add_counts, Counts.add]
        · simp [add_counts, Counts.add]
      · split
        · split <;> simp [add_counts, Counts.add]
        · simp [add_counts, Counts.add]
    | file => simp [readFile, hk, add_counts, Counts.add]
    | symlink => simp [readFile, hk, add_counts, Counts.add]
    | other => simp [readFile, hk, add_counts, Counts.add]

theorem mergeCounts_eq (workers : List Worker) : Worker.mergeCounts workers = (workers.map Worker.counts).sum := by
  have hfold : ∀ (l : List Worker) (c : Counts), l.foldl (fun c w => c.add w.counts) c = c + (l.map Worker.counts).sum := by
    intro l
    induction l with
    | nil => exact fun c => (add_zero c).symm
    | cons d l ih =>
      intro c
      rw [List.foldl_cons, ih, List.map_cons, List.sum_cons, ← add_assoc]
      rfl
  unfold Worker.mergeCounts
  rw [hfold]
  exact zero_add _

section Counts

variable {host : Host} {fs : Frozen} {w : Walk} {n : Nat} {b : Bag n Job Progress Worker Shared} {data : Fin (n + 1) → Worker}
  {root : Job} {shared : Shared} {put : Multiset Event}

/-- What the workers have counted is what was come upon. -/
theorem counts_emitting (hf : host.Frozen fs)
    (h : Emitting (w.readDir host.listing host.answers) (Progress.emit fs) root data shared b put) :
    ∑ i, (b.data i).counts = ∑ i, (data i).counts + (put.map (Event.counts w)).sum := by
  refine h.total Worker.counts (Event.counts w) (fun interrupted p d s p' d' s' ht => ?_) fun interrupted p d s children d' s' ht => ?_
  · cases ht with
    | @opened job reading _ _ hr =>
      have hsame := hf.listing _ _ hr
      unfold Progress.emit
      cases hl : fs.listing job.path with
      | error error =>
        rw [hl] at hsame
        exact hsame.elim
      | ok reading' => simp [hl]
    | @entry p₀ e rest _ _ hl hint =>
      rw [counts_readEntry]
      simp [Progress.emit, hl, Event.counts]
  · cases ht with
    | @unopened job error _ _ _ hr htol =>
      have hsame := hf.listing _ _ hr
      cases hl : fs.listing job.path with
      | ok reading' =>
        rw [hl] at hsame
        exact hsame.elim
      | error error' =>
        rw [hl] at hsame
        obtain rfl : error = error' := hsame
        simp only [Progress.emit, hl, Multiset.map_singleton, Multiset.sum_singleton]
        exact counts_tolerate htol _ w
    | @closed p₀ _ _ hl hfail => simp [Progress.emit, hl, hfail, failure, InDir.tallied]
    | @closedEarly p₀ _ _ error counts hl hfail htol =>
      simp only [Progress.emit, hl, hfail, failure, InDir.tallied, Option.map_some, Option.getD_some, Multiset.map_singleton,
        Multiset.sum_singleton]
      exact counts_tolerate htol _ w

end Counts

/-! ## Scans -/

section Scans

variable {host host' : Host} {fs : Frozen} {target target' : Target} {hash hash' : Bytes → Nat} {result result' : ScanResult}

/-- Where a walk goes on this file system: into the directories that unfold from its root. -/
def Roams (fs : Frozen) (w : Walk) (begun : Multiset Place) : Prop := Unfolds (w.kids fs) (w.target.scanPath, 0) begun

/-- What a scan counts, as the file system is. -/
inductive CountsOn (fs : Frozen) (target : Target) (hash : Bytes → Nat) : Counts → Prop
  | excluded (hx : excludesRoot target = true) : CountsOn fs target hash { skippedExcluded := 1 }
  | unread {root : Stat} (hs : fs.stat target.scanPath target.followSymlinks = .ok root) (hx : excludesRoot target = false)
      (hk : root.kind ≠ .directory ∨ target.maxDepth = some 0) : CountsOn fs target hash (rootCounts target root)
  | walked {root : Stat} {begun : Multiset Place} (hs : fs.stat target.scanPath target.followSymlinks = .ok root)
      (hx : excludesRoot target = false) (hk : root.kind = .directory) (hm : target.maxDepth ≠ some 0)
      (hb : Roams fs (start target root hash) begun) :
      CountsOn fs target hash (rootCounts target root + ((begun.bind (found fs)).map (Event.counts (start target root hash))).sum)

/-- The bag of a walk that came to its end did the jobs that unfold from its root. -/
theorem roams_of_bag (hf : host.Frozen fs) {w : Walk} {n : Nat} {b : Bag n Job Progress Worker Shared} {data : Fin (n + 1) → Worker}
    {shared : Shared} {put : Multiset Event}
    (h : Emitting (w.readDir host.listing host.answers) (Progress.emit fs) (rootJob w.target) data shared b put) (hp : b.pending = 0)
    (ha : ∀ i, b.active i = none) : ∃ begun, Roams fs w begun ∧ put = begun.bind (found fs) := by
  obtain ⟨begun, hb, hput⟩ := h.unfolds (steady w hf) hp ha
  exact ⟨begun, hb, hput⟩

theorem Scans.countsOn (hf : host.Frozen fs) (h : Scans host target hash (.ok result)) : CountsOn fs target hash result.counts := by
  generalize hr : Except.ok result = r at h
  cases h with
  | unstated | nul => cases hr
  | @excluded root hs hx =>
    cases hr
    exact .excluded hx
  | @single root hs hx hk =>
    cases hr
    have hcounts : (finish (start target root hash) [] [{ counts := rootCounts target root }]).counts = rootCounts target root :=
      counts_eta _
    rw [hcounts]
    exact .unread (hf.stat _ _ _ hs).symm hx (.inl hk)
  | @shallow root handle hs hx hk hh hm =>
    cases hr
    have hcounts : (finish (start target root hash) [rootNode target root handle] [{ counts := rootCounts target root }]).counts =
        rootCounts target root := counts_eta _
    rw [hcounts]
    exact .unread (hf.stat _ _ _ hs).symm hx (.inr hm)
  | @walked root handle n s hs hx hk hh hm hz hn hw ho =>
    obtain ⟨hv, rfl⟩ := outcome_ok hr.symm
    have hi : WorkPool.Inv s := hw.inv
    have hdone := hi.bag_done ho (hi.ok ho hv)
    obtain ⟨put, he⟩ := WorkPool.emitting_of_reachable (Progress.emit fs) (hw.bag (hi.ok ho hv))
    obtain ⟨begun, hb, hput⟩ := roams_of_bag hf he (by rw [hdone]) (fun i => by rw [hdone])
    have hsum := counts_emitting hf he
    have hcounts : (finish (start target root hash) s.shared.nodes (List.ofFn s.data)).counts =
        rootCounts target root + ((begun.bind (found fs)).map (Event.counts (start target root hash))).sum := by
      show Worker.mergeCounts (List.ofFn s.data) = _
      rw [mergeCounts_eq, List.map_ofFn, List.sum_ofFn, ← hput]
      have hfirst : ∑ i : Fin (n + 1), (workerData n target root i).counts = rootCounts target root := by
        rw [Fin.sum_univ_succ, Finset.sum_eq_zero fun i _ => ?_]
        · exact add_zero _
        · unfold workerData
          rw [if_neg (Fin.val_succ i ▸ Nat.succ_ne_zero _)]
          rfl
      rw [← hfirst]
      exact hsum
    rw [hcounts]
    exact .walked (hf.stat _ _ _ hs).symm hx hk hm hb

theorem Roams.unique {w : Walk} {begun begun' : Multiset Place} (h : Roams fs w begun) (h' : Roams fs w begun') : begun = begun' :=
  Unfolds.unique (fun x y hy => depth_kids x y hy) h h'

theorem Alike.excludesRoot (h : Alike target target') : Walk.excludesRoot target' = Walk.excludesRoot target := by
  unfold Walk.excludesRoot
  rw [h.exclude, h.displayPath]

theorem Alike.roams (h : Alike target target') {root : Stat} {begun : Multiset Place} (hb : Roams fs (start target' root hash') begun) :
    Roams fs (start target root hash) begun := by
  unfold Roams at hb ⊢
  rw [show (start target' root hash').kids fs = (start target root hash).kids fs from funext (h.kids fs)] at hb
  rw [← show (start target' root hash').target.scanPath = (start target root hash).target.scanPath from h.scanPath]
  exact hb

theorem Alike.eventCounts (h : Alike target target') {root : Stat} :
    Event.counts (start target' root hash') = Event.counts (start target root hash) := by
  funext event
  cases event with
  | failed => rfl
  | entry x e =>
    have hcross : (start target' root hash').target.noCrossFilesystem = (start target root hash).target.noCrossFilesystem :=
      h.noCrossFilesystem
    have hexcludes : (start target' root hash').excludes (jobAt x) e.name = (start target root hash).excludes (jobAt x) e.name :=
      h.excludes _ _
    have hdescends : (start target' root hash').descends (x.2 + 1) = (start target root hash).descends (x.2 + 1) := h.descends _
    show entryCounts _ x e = entryCounts _ x e
    unfold entryCounts
    rw [hexcludes, hdescends, hcross]
    rfl

/-- Whatever the schedule, the number of workers, the cap and what is reported, a scan of the same file system
counts the same. -/
theorem counts_agree (hf : host.Frozen fs) (hf' : host'.Frozen fs) (ha : Alike target target')
    (h : Scans host target hash (.ok result)) (h' : Scans host' target' hash' (.ok result')) : result.counts = result'.counts := by
  have hc := Scans.countsOn hf h
  have hc' := Scans.countsOn hf' h'
  have hroot : ∀ {root root' : Stat}, fs.stat target.scanPath target.followSymlinks = .ok root →
      fs.stat target'.scanPath target'.followSymlinks = .ok root' → root' = root := by
    rintro root root' hs hs'
    rw [ha.scanPath, ha.followSymlinks, hs] at hs'
    cases hs'
    rfl
  have hcounts : ∀ root, rootCounts target' root = rootCounts target root := by
    rintro root
    unfold rootCounts
    rw [ha.maxDepth]
  generalize result.counts = c at hc
  generalize result'.counts = c' at hc'
  cases hc with
  | excluded hx =>
    cases hc' with
    | excluded => rfl
    | unread hs' hx' => rw [ha.excludesRoot, hx] at hx'; cases hx'
    | walked hs' hx' => rw [ha.excludesRoot, hx] at hx'; cases hx'
  | unread hs hx hk =>
    cases hc' with
    | excluded hx' => rw [ha.excludesRoot, hx] at hx'; cases hx'
    | unread hs' => rw [hroot hs hs', hcounts]
    | walked hs' hx' hk' hm' =>
      rw [hroot hs hs'] at hk'
      rw [ha.maxDepth] at hm'
      exact (hk.elim (absurd hk') hm').elim
  | @walked root begun hs hx hk hm hb =>
    cases hc' with
    | excluded hx' => rw [ha.excludesRoot, hx] at hx'; cases hx'
    | unread hs' hx' hk' =>
      rw [hroot hs hs', ha.maxDepth] at hk'
      exact (hk'.elim (absurd hk) hm).elim
    | @walked root' begun' hs' hx' hk' hm' hb' =>
      obtain rfl := hroot hs hs'
      rw [(ha.roams hb').unique hb, hcounts, ha.eventCounts]

end Scans

/-! ## A link in a subdirectory -/

def twiceStat (kind : Kind) (ino blocks size : Nat) : Stat :=
  { kind := kind, dev := 1, ino := ino, nlink := 2, blocks := blocks, size := size, mtime := 0 }

def twiceFile : Entry := { name := [102], stat := .ok (twiceStat .file 7 512 10), handle := none }

def twiceDir : Entry := { name := [115], stat := .ok (twiceStat .directory 3 0 2), handle := none }

/-- `/d` holds a file and a directory, which holds the file too. -/
def twiceFs : Frozen where
  stat _ _ := .ok (twiceStat .directory 2 0 2)
  listing path :=
    if path = [slash, 100] then .ok { entries := [twiceFile, twiceDir], fail := none }
    else if path = [slash, 100, slash, 115] then .ok { entries := [twiceFile], fail := none }
    else .error .enoent

def twiceHost : Host where
  stat path follow answer := answer = twiceFs.stat path follow
  handle _ handle := handle = none
  listing path answer := answer = twiceFs.listing path
  answers _ := ⟨_, rfl⟩

/-- A scan of it by one worker, with room for every directory. -/
def roomyTarget : Target := { emptyWalk.target with reportDepth := 0 }

/-- A scan by two workers, with room for the root alone. -/
def crowdedTarget : Target := { roomyTarget with scanThreads := 2, treeMaxDirectories := 1 }

theorem twice_listing {path : Bytes} {reading : Reading} (h : twiceFs.listing path = .ok reading) :
    path = [slash, 100] ∧ reading = ⟨[twiceFile, twiceDir], none⟩ ∨ path = [slash, 100, slash, 115] ∧ reading = ⟨[twiceFile], none⟩ := by
  unfold twiceFs at h
  dsimp only at h
  split at h
  · rename_i hp
    cases h
    exact .inl ⟨hp, rfl⟩
  · split at h
    · rename_i hp
      cases h
      exact .inr ⟨hp, rfl⟩
    · cases h

theorem frozen_twice : twiceHost.Frozen twiceFs := by
  refine ⟨fun _ _ _ h => h, fun path answer h => ?_⟩
  rw [show answer = twiceFs.listing path from h]
  cases twiceFs.listing path with
  | error => rfl
  | ok reading => exact ⟨.refl _, rfl⟩

theorem proper_twice : twiceHost.listing.Proper := by
  rintro path reading hr
  rcases twice_listing hr.symm with ⟨-, rfl⟩ | ⟨-, rfl⟩
  · exact ⟨by decide, by decide⟩
  · exact ⟨by decide, by decide⟩

theorem scan_roomy : ∃ result, Scans twiceHost roomyTarget List.length (.ok result) ∧
    result.tree.map (fun t => ((t.node 0).sub, t.nodes.length)) =
      some ({ files := 2, dirs := 1, symlinks := 0, blocks := 512, apparent := 12 }, 2) := by
  have h0 : Walking twiceHost (start roomyTarget (twiceStat .directory 2 0 2) List.length) (twiceStat .directory 2 0 2) none (n := 0) _ :=
    .initial false
  have h1 := WorkPool.Reachable.step h0 (.worker (.spawnDone (i := 0) rfl (by decide)))
  have h2 := WorkPool.Reachable.step h1 (.worker (.retire (i := 0) rfl))
  have h3 := WorkPool.Reachable.step h2 (.worker (.more (i := 0) rfl (.opened rfl)))
  have h4 := WorkPool.Reachable.step h3 (.worker (.more (i := 0) rfl (.entry rfl rfl)))
  have h5 := WorkPool.Reachable.step h4 (.worker (.more (i := 0) rfl (.entry rfl rfl)))
  have h6 := WorkPool.Reachable.step h5 (.worker (.done (i := 0) rfl (.closed rfl rfl)))
  have h7 := WorkPool.Reachable.step h6 (.worker (.keep (i := 0) rfl))
  have h8 := WorkPool.Reachable.step h7 (.worker (.more (i := 0) rfl (.opened rfl)))
  have h9 := WorkPool.Reachable.step h8 (.worker (.more (i := 0) rfl (.entry rfl rfl)))
  have h10 := WorkPool.Reachable.step h9 (.worker (.done (i := 0) rfl (.closed rfl rfl)))
  have h11 := WorkPool.Reachable.step h10 (.worker (.retire (i := 0) rfl))
  exact ⟨_, .walked rfl rfl rfl (by simp [RootHandle, roomyTarget, emptyWalk]) (by decide) (by decide) rfl h11 (by decide), rfl⟩

/-- The first worker waits while the second reads both directories. -/
theorem scan_crowded : ∃ result, Scans twiceHost crowdedTarget List.length (.ok result) ∧
    result.tree.map (fun t => ((t.node 0).sub, t.nodes.length)) =
      some ({ files := 2, dirs := 1, symlinks := 0, blocks := 512, apparent := 12 }, 1) := by
  have h0 : Walking twiceHost (start crowdedTarget (twiceStat .directory 2 0 2) List.length) (twiceStat .directory 2 0 2) none (n := 1) _ :=
    .initial false
  have h1 := WorkPool.Reachable.step h0 (.worker (.spawn (i := 0) rfl (by decide)))
  have h2 := WorkPool.Reachable.step h1 (.worker (.retire (i := 1) rfl))
  have h3 := WorkPool.Reachable.step h2 (.worker (.spawnDone (i := 0) rfl (by decide)))
  have h4 := WorkPool.Reachable.step h3 (.worker (.retire (i := 0) rfl))
  have h5 := WorkPool.Reachable.step h4 (.worker (.more (i := 1) rfl (.opened rfl)))
  have h6 := WorkPool.Reachable.step h5 (.worker (.more (i := 1) rfl (.entry rfl rfl)))
  have h7 := WorkPool.Reachable.step h6 (.worker (.more (i := 1) rfl (.entry rfl rfl)))
  have h8 := WorkPool.Reachable.step h7 (.worker (.done (i := 1) rfl (.closed rfl rfl)))
  have h9 := WorkPool.Reachable.step h8 (.worker (.keep (i := 1) rfl))
  have h10 := WorkPool.Reachable.step h9 (.worker (.more (i := 1) rfl (.opened rfl)))
  have h11 := WorkPool.Reachable.step h10 (.worker (.more (i := 1) rfl (.entry rfl rfl)))
  have h12 := WorkPool.Reachable.step h11 (.worker (.done (i := 1) rfl (.closed rfl rfl)))
  have h13 := WorkPool.Reachable.step h12 (.worker (.retire (i := 1) rfl))
  have h14 := WorkPool.Reachable.step h13 (.worker (.rouse (i := 0) rfl))
  exact ⟨_, .walked rfl rfl rfl (by simp [RootHandle, crowdedTarget, roomyTarget, emptyWalk]) (by decide) (by decide) rfl h14 (by decide), rfl⟩

theorem alike_twice : Alike roomyTarget crowdedTarget := ⟨rfl, rfl, rfl, rfl, rfl, rfl⟩

/-- Both count the root, the file twice and the directory. -/
theorem counts_agree_twice : ∃ result result', Scans twiceHost roomyTarget List.length (.ok result) ∧
    Scans twiceHost crowdedTarget List.length (.ok result') ∧ result.counts = result'.counts := by
  obtain ⟨result, hs, -⟩ := scan_roomy
  obtain ⟨result', hs', -⟩ := scan_crowded
  exact ⟨result, result', hs, hs', counts_agree frozen_twice frozen_twice alike_twice hs hs'⟩

end Walk

end StorageHarvester
