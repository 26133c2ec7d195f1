/-
`scan` as a whole (`src/scanner/native.rs`): the root's `stat`, the walk by a pool of workers, and
what they gathered, finished. A scan is a relation to its possible results, over every answer of the
kernel and every interleaving of the workers. The walk never deadlocks, loses no directory, and
succeeds only when every directory handed to it was read to its end.
-/
import StorageHarvester.Lib.WorkPoolSafety
import StorageHarvester.Scan.Finish

namespace StorageHarvester

/-- The file system a scan runs on, by what each request may answer. -/
structure Host where
  /-- `stat` of a path, following symlinks or not. -/
  stat : Bytes → Bool → Except Errno Stat → Prop
  /-- The file handle of a path. -/
  handle : Bytes → Option Handle → Prop
  listing : Walk.Kernel
  /-- Opening a directory always gets an answer. -/
  answers : ∀ path, ∃ answer, listing path answer

/-- What a scan that returns no result ends with. -/
inductive ScanError where
  /-- "failed to stat \x7bpath\x7d" -/
  | stat (path : Bytes) (error : Errno)
  /-- "scan path contains NUL" -/
  | nul
  | walk (failure : Walk.Failure)
  /-- "scan of \x7bpath\x7d cancelled" -/
  | cancelled (path : Bytes)
  /-- A worker's panic, which goes on in the caller. -/
  | panicked
  deriving DecidableEq, Repr

namespace Walk

/-- The root is matched as `<display path>/`. -/
def excludesRoot (target : Target) : Bool :=
  !target.exclude.isEmpty &&
    target.exclude.isMatch (if target.displayPath = [] then [] else pushComponent target.displayPath [])

def start (target : Target) (root : Stat) (hash : Bytes → Nat) : Walk where
  target := target
  rootDev := root.dev
  hash := hash

def rootNode (target : Target) (root : Stat) (handle : Option Handle) : TrackedNode where
  name := []
  depth := 0
  parent := none
  ino := root.ino
  ownBlocks := root.blocks
  ownApparent := root.size
  mtime := root.mtime
  isSealed := target.maxDepth = some 0
  pruned := false
  handle := handle

def rootJob (target : Target) : Job where
  path := target.scanPath
  depth := 0
  node := 0
  tracked := true

/-- What the root itself counts. -/
def rootCounts (target : Target) (root : Stat) : Counts :=
  match root.kind with
  | .directory => { scannedDirectories := 1, depthLimitHits := if target.maxDepth = some 0 then 1 else 0 }
  | .file => { scannedFiles := 1 }
  | .symlink => { scannedSymlinks := 1 }
  | .other => {}

/-- The workers' data when the walk starts: the first one's holds what the root counts. -/
def workerData (n : Nat) (target : Target) (root : Stat) (i : Fin (n + 1)) : Worker :=
  if i.val = 0 then { counts := rootCounts target root } else {}

/-- The states of the walk below `root`, whose node has the file handle `handle`. -/
def Walking (host : Host) (w : Walk) (root : Stat) (handle : Option Handle) {n : Nat} :
    WorkPool.State n Job Progress Worker Shared Failure → Prop :=
  WorkPool.Reachable (w.readDir host.listing host.answers) (rootJob w.target) (workerData n w.target root)
    { nodes := [rootNode w.target root handle], tracked := 1 }

/-- What `scan` returns once all workers have. -/
def outcome (w : Walk) {n : Nat} (s : WorkPool.State n Job Progress Worker Shared Failure) : Except ScanError ScanResult :=
  match s.verdict with
  | .panicked => .error .panicked
  | .failed failure => .error (.walk failure)
  | .cancelled => .error (.cancelled w.target.scanPath)
  | .ok => .ok (finish w s.shared.nodes (List.ofFn s.data))

/-- The file handle recorded for the root. -/
def RootHandle (host : Host) (target : Target) (handle : Option Handle) : Prop :=
  if target.collectHandles then host.handle target.scanPath handle else handle = none

/-- What scanning a target may come to. -/
inductive Scans (host : Host) (target : Target) (hash : Bytes → Nat) : Except ScanError ScanResult → Prop
  | unstated {error : Errno} (hs : host.stat target.scanPath target.followSymlinks (.error error)) :
      Scans host target hash (.error (.stat target.scanPath error))
  | excluded {root : Stat} (hs : host.stat target.scanPath target.followSymlinks (.ok root))
      (hx : excludesRoot target = true) :
      Scans host target hash (.ok (finish (start target root hash) [] [{ counts := { skippedExcluded := 1 } }]))
  /-- The root is no directory. -/
  | single {root : Stat} (hs : host.stat target.scanPath target.followSymlinks (.ok root))
      (hx : excludesRoot target = false) (hk : root.kind ≠ .directory) :
      Scans host target hash (.ok (finish (start target root hash) [] [{ counts := rootCounts target root }]))
  /-- The root is not to be read. -/
  | shallow {root : Stat} {handle : Option Handle} (hs : host.stat target.scanPath target.followSymlinks (.ok root))
      (hx : excludesRoot target = false) (hk : root.kind = .directory) (hh : RootHandle host target handle)
      (hm : target.maxDepth = some 0) :
      Scans host target hash
        (.ok (finish (start target root hash) [rootNode target root handle] [{ counts := rootCounts target root }]))
  | nul {root : Stat} (hs : host.stat target.scanPath target.followSymlinks (.ok root))
      (hx : excludesRoot target = false) (hk : root.kind = .directory) (hm : target.maxDepth ≠ some 0)
      (hz : 0 ∈ target.scanPath) : Scans host target hash (.error .nul)
  | walked {root : Stat} {handle : Option Handle} {n : Nat} {s : WorkPool.State n Job Progress Worker Shared Failure}
      (hs : host.stat target.scanPath target.followSymlinks (.ok root)) (hx : excludesRoot target = false)
      (hk : root.kind = .directory) (hh : RootHandle host target handle) (hm : target.maxDepth ≠ some 0)
      (hz : 0 ∉ target.scanPath) (hn : n + 1 = max target.scanThreads 1)
      (hr : Walking host (start target root hash) root handle s) (ho : ∀ i, (s.phase i).isOver = true) :
      Scans host target hash ((start target root hash).outcome s)

/-! ## The walk's protocol -/

theorem outcome_ok {w : Walk} {n : Nat} {s : WorkPool.State n Job Progress Worker Shared Failure} {result : ScanResult}
    (h : w.outcome s = .ok result) : s.verdict = .ok ∧ result = finish w s.shared.nodes (List.ofFn s.data) := by
  unfold outcome at h
  cases hv : s.verdict <;> rw [hv] at h <;> cases h
  exact ⟨rfl, rfl⟩

/-- What the walk's protocol guarantees in a state of the pool. -/
structure WalkComplete (host : Host) (w : Walk) {n : Nat} (s : WorkPool.State n Job Progress Worker Shared Failure) :
    Prop where
  /-- Where no worker can take a step, all have returned. -/
  no_deadlock : (∀ i s', ¬WorkPool.WorkerStep (w.readDir host.listing host.answers) i s s') → ∀ i, (s.phase i).isOver = true
  /-- A walk that stopped without being halted has no job queued and none held. -/
  stopped_done : s.stopped = true → s.halted = false → s.jobs = [] ∧ ∀ i, (s.phase i).held = 0
  /-- Every job is in exactly one place: queued, held by a worker, done, or given up on. -/
  accounted : (s.pushed : Multiset Job) = s.jobs + ∑ i, (s.phase i).held + s.finished + s.abandoned
  /-- Unless the walk is halted, every job is done exactly once. -/
  once : (∀ i, (s.phase i).isOver = true) → s.halted = false → s.finished.Perm s.pushed
  /-- The walk succeeds only when no worker gave up and every job was done to its end. -/
  ok_complete : (∀ i, (s.phase i).isOver = true) → ∀ result, w.outcome s = .ok result →
    s.jobs = [] ∧ s.abandoned = [] ∧ s.panicked = false ∧ s.finished.Perm s.pushed

/-- The walk does not deadlock, stops by itself only when no job is left, does every job exactly
once unless it is halted, and succeeds only when every job was done to its end. -/
theorem walk_complete (host : Host) (w : Walk) (root : Stat) (handle : Option Handle) {n : Nat}
    {s : WorkPool.State n Job Progress Worker Shared Failure} (h : Walking host w root handle s) : WalkComplete host w s := by
  have hi : WorkPool.Inv s := h.inv
  refine ⟨hi.all_over, hi.stopped_done, hi.ledger.conserved, fun ho hh => ?_, fun ho result hr => ?_⟩
  · exact (hi.all_finished ho (hi.none_abandoned ho hh)).2
  · have hv := (outcome_ok hr).1
    have ha := hi.ok ho hv
    obtain ⟨hj, hp⟩ := hi.all_finished ho ha
    refine ⟨hj, ha, ?_, hp⟩
    by_contra hpanic
    rw [Bool.not_eq_false] at hpanic
    rw [WorkPool.State.verdict, hpanic] at hv
    cases hv

/-- A file system of empty directories. -/
def emptyHost : Host where
  stat _ _ answer := answer = .ok { kind := .directory, dev := 1, ino := 2, nlink := 2, blocks := 4096, size := 4096, mtime := 0 }
  handle _ handle := handle = none
  listing _ answer := answer = .ok { entries := [], fail := none }
  answers _ := ⟨_, rfl⟩

/-- A walk of `/data` with nothing excluded. -/
def emptyWalk : Walk where
  target :=
    { displayPath := [slash, 100], scanPath := [slash, 100], exclude := { isEmpty := true, isMatch := fun _ => false }
      followSymlinks := false, noCrossFilesystem := false, reportMode := .tree, reportDepth := 2, maxDepth := none
      scanThreads := 1, treeMaxDirectories := 100, collectHandles := false }
  rootDev := 1
  hash := List.length

/-- A directory found in `/d`. -/
def forkedEntry (name : UInt8) : Entry :=
  { name := [name], stat := .ok { kind := .directory, dev := 1, ino := name.toNat, nlink := 2, blocks := 0, size := 0, mtime := 0 }, handle := none }

/-- `/d` holds two empty directories. -/
def forkedHost : Host where
  stat _ _ answer := answer = .ok { kind := .directory, dev := 1, ino := 2, nlink := 4, blocks := 0, size := 0, mtime := 0 }
  handle _ handle := handle = none
  listing path answer := answer = .ok { entries := if path = [slash, 100] then [forkedEntry 97, forkedEntry 98] else [], fail := none }
  answers _ := ⟨_, rfl⟩

/-- The job of such a directory, which has a node of its own. -/
def forkedJob (name : UInt8) (node : Nat) : Job := { path := [slash, 100, slash, name], depth := 1, node := node, tracked := true }

/-- Two workers: the second finds nothing to do and waits; the first reads `/d`, wakes it for one directory and keeps
the other; the second is the last to come to an end, stops the pool, and wakes the first. -/
theorem walk_complete_forked :
    ∃ s : WorkPool.State 1 Job Progress Worker Shared Failure, (∀ i, (s.phase i).isOver = true) ∧
      s.finished = [rootJob emptyWalk.target, forkedJob 98 2, forkedJob 97 1] ∧ WalkComplete forkedHost emptyWalk s := by
  have h0 : Walking forkedHost emptyWalk default none (n := 1) _ := .initial false
  have h1 := WorkPool.Reachable.step h0 (.worker (.spawn (i := 0) rfl (by decide)))
  have h2 := WorkPool.Reachable.step h1 (.worker (.spawnDone (i := 0) rfl (by decide)))
  have h3 := WorkPool.Reachable.step h2 (.worker (.retire (i := 0) rfl))
  have h4 := WorkPool.Reachable.step h3 (.worker (.retire (i := 1) rfl))
  have h5 := WorkPool.Reachable.step h4 (.worker (.more (i := 0) rfl (.opened rfl)))
  have h6 := WorkPool.Reachable.step h5 (.worker (.more (i := 0) rfl (.entry rfl rfl)))
  have h7 := WorkPool.Reachable.step h6 (.worker (.more (i := 0) rfl (.entry rfl rfl)))
  have h8 := WorkPool.Reachable.step h7 (.worker (.done (i := 0) rfl (.closed rfl rfl)))
  have h9 := WorkPool.Reachable.step h8 (.worker (.publish (i := 0) (w := {1})
    (show _ = WorkPool.Phase.exchange ([forkedJob 97 1] ++ [forkedJob 98 2]) from rfl) (by decide)
    (fun j hj => by rw [Finset.mem_singleton.1 hj]; rfl) (by decide)))
  have h10 := WorkPool.Reachable.step h9 (.worker (.rouse (i := 1) rfl))
  have h11 := WorkPool.Reachable.step h10 (.worker (.more (i := 0) rfl (.opened rfl)))
  have h12 := WorkPool.Reachable.step h11 (.worker (.more (i := 1) rfl (.opened rfl)))
  have h13 := WorkPool.Reachable.step h12 (.worker (.done (i := 0) rfl (.closed rfl rfl)))
  have h14 := WorkPool.Reachable.step h13 (.worker (.retire (i := 0) rfl))
  have h15 := WorkPool.Reachable.step h14 (.worker (.done (i := 1) rfl (.closed rfl rfl)))
  have h16 := WorkPool.Reachable.step h15 (.worker (.retire (i := 1) rfl))
  have h17 := WorkPool.Reachable.step h16 (.worker (.rouse (i := 0) rfl))
  exact ⟨_, by decide, rfl, walk_complete forkedHost emptyWalk default none h17⟩

end Walk

end StorageHarvester
