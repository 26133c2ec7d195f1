/-
The native scanner's walk (`src/scanner/native.rs`): what the kernel answers, the jobs and private
data of the workers, and `read_dir` step by step, as a task for the work pool. The exclude set, the
file system and the path hash are code outside the repository and stay parameters.
-/
import StorageHarvester.Lib.WorkPool
import StorageHarvester.Lib.Utf8
import StorageHarvester.Tree.Basic

namespace StorageHarvester

/-! ## What the kernel answers -/

inductive Kind where
  | file | directory | symlink | other
  deriving DecidableEq, Repr, Inhabited

/-- The fields of a `stat` the scanner uses. `blocks` is in bytes, `mtime` in nanoseconds. -/
structure Stat where
  kind : Kind
  dev : Nat
  ino : Nat
  nlink : Nat
  blocks : Nat
  size : Nat
  mtime : Int
  deriving DecidableEq, Repr, Inhabited

/-- The errors the scanner tells apart. -/
inductive Errno where
  | eacces | eperm | enoent | enotdir | eloop | enametoolong
  | other (code : Nat)
  deriving DecidableEq, Repr

def Errno.isPermissionDenied : Errno → Bool
  | .eacces | .eperm => true
  | _ => false

/-- One entry of a directory, with what `stat` and the file handle call say of it. -/
structure Entry where
  name : Bytes
  stat : Except Errno Stat
  handle : Option Handle

/-- The entries of a directory up to its end, or up to where reading on fails. -/
structure Reading where
  entries : List Entry
  fail : Option Errno

/-- A compiled exclude set. -/
structure GlobSet where
  isEmpty : Bool
  isMatch : Bytes → Bool

/-! ## The target -/

inductive ReportMode where
  | tree | leaves
  deriving DecidableEq, Repr

structure Target where
  displayPath : Bytes
  scanPath : Bytes
  exclude : GlobSet
  followSymlinks : Bool
  noCrossFilesystem : Bool
  reportMode : ReportMode
  reportDepth : Nat
  maxDepth : Option Nat
  scanThreads : Nat
  treeMaxDirectories : Nat
  collectHandles : Bool

def isReported (target : Target) (depth : Nat) : Bool :=
  match target.reportMode with
  | .tree => depth ≤ target.reportDepth
  | .leaves => depth = 0 || depth = target.reportDepth

/-- What one scan goes by. `hash` is the standard library's hash of a byte string. -/
structure Walk where
  target : Target
  rootDev : Nat
  hash : Bytes → Nat

/-! ## Jobs and nodes -/

/-- A directory to read. -/
structure Job where
  path : Bytes
  depth : Nat
  /-- The directory's own node when `tracked`, otherwise its nearest tracked ancestor's. -/
  node : Nat
  tracked : Bool
  deriving DecidableEq, Repr

structure TrackedNode where
  name : Bytes
  depth : Nat
  parent : Option Nat
  ino : Nat
  ownBlocks : Nat
  ownApparent : Nat
  mtime : Int
  /-- Not (fully) read: past `maxDepth`, or unreadable. -/
  isSealed : Bool
  /-- Some entries directly inside were excluded. -/
  pruned : Bool
  handle : Option Handle
  deriving DecidableEq, Repr, Inhabited

/-- A subdirectory to track, gathered while its parent is read. -/
structure PendingDir where
  name : Bytes
  stat : Stat
  handle : Option Handle
  descend : Bool

/-- What one node has gathered: entries directly inside it, entries in untracked directories below
it, and the newest modification time of those entries, in seconds. -/
structure NodeTally where
  direct : Tally := {}
  below : Tally := {}
  newest : Int := noTime
  deriving Inhabited

/-- `part(direct)` of a node's tally, changed. -/
def NodeTally.modifyPart (t : NodeTally) (direct : Bool) (f : Tally → Tally) : NodeTally :=
  if direct then { t with direct := f t.direct } else { t with below := f t.below }

structure Counts where
  permissionErrors : Nat := 0
  missingPathRaces : Nat := 0
  skippedCrossDevice : Nat := 0
  skippedExcluded : Nat := 0
  scannedFiles : Nat := 0
  scannedDirectories : Nat := 0
  scannedSymlinks : Nat := 0
  maxObservedDepth : Nat := 0
  depthLimitHits : Nat := 0
  deriving DecidableEq, Repr

def Counts.add (c other : Counts) : Counts where
  permissionErrors := c.permissionErrors + other.permissionErrors
  missingPathRaces := c.missingPathRaces + other.missingPathRaces
  skippedCrossDevice := c.skippedCrossDevice + other.skippedCrossDevice
  skippedExcluded := c.skippedExcluded + other.skippedExcluded
  scannedFiles := c.scannedFiles + other.scannedFiles
  scannedDirectories := c.scannedDirectories + other.scannedDirectories
  scannedSymlinks := c.scannedSymlinks + other.scannedSymlinks
  maxObservedDepth := max c.maxObservedDepth other.maxObservedDepth
  depthLimitHits := c.depthLimitHits + other.depthLimitHits

/-- One link of a multiply linked file, the candidate to carry its allocation. -/
structure Link where
  key : Nat
  node : Nat
  /-- Whether the link is directly inside `node`, rather than deeper. -/
  direct : Bool
  blocks : Nat
  apparent : Nat
  /-- Index into the worker's `entries`, when the link is listed on the status page. -/
  entry : Option Nat
  deriving DecidableEq, Repr

inductive EntryType where
  | file | symlink | other
  deriving DecidableEq, Repr

/-- A non-directory entry; directories are reported as nodes. -/
structure EntryObservation where
  parentPath : Bytes
  path : Bytes
  entryType : EntryType
  depth : Nat
  blocks : Nat
  apparent : Nat
  deriving DecidableEq, Repr

/-- Everything a worker accumulates without sharing; merged after the walk. -/
structure Worker where
  tallies : Nat → NodeTally := fun _ => {}
  counts : Counts := {}
  entries : List EntryObservation := []
  links : Table Inode Link := .empty
  /-- Every link of a multiply linked file seen directly in a tracked directory. -/
  linkDirs : List (Inode × Nat) := []
  /-- `(plainKey, node)` per singly linked file, under its directory's node or, in an untracked
  directory, its nearest tracked ancestor's. -/
  plain : List (Nat × Nat) := []

/-- What the workers share: the tracked directories, in discovery order, and the number of
directories offered a node so far. -/
structure Shared where
  nodes : List TrackedNode
  tracked : Nat

/-- Keeps, per inode, the link whose path hashes lowest: the same link in any walk order. -/
def keepLowest {V : Type} (links : Table Inode V) (inode : Inode) (candidate : V) (key : V → Nat) : Table Inode V :=
  match links.get inode with
  | some held => if key candidate < key held then links.put inode candidate else links
  | none => links.put inode candidate

namespace Walk

/-- `/part` appended, as `child_path` does. -/
def childPath (parent name : Bytes) : Bytes := pushComponent parent name

/-- A stable key for one link of a file: the hash of its full path. -/
def linkKey (w : Walk) (dir name : Bytes) : Nat := w.hash (dir ++ [slash] ++ name)

/-- Where a directory's path relative to the scan root starts in its scan path. -/
def relStart (w : Walk) : Nat :=
  w.target.scanPath.length + if w.target.scanPath.getLast? = some slash then 0 else 1

/-- The display path of the directory a job reads. -/
def displayDir (w : Walk) (job : Job) : Bytes :=
  if 0 < job.depth then pushComponent w.target.displayPath (job.path.drop w.relStart) else w.target.displayPath

/-- Whether a directory found at `depth` under a tracked one gets a node of its own, when
`reserved` directories were offered one before. -/
def keeps (w : Walk) (depth reserved : Nat) : Bool :=
  depth ≤ w.target.reportDepth || reserved < w.target.treeMaxDirectories

/-! ## Reading a directory -/

/-- A directory being read: what is left of it, and what was gathered so far. -/
structure InDir where
  job : Job
  left : List Entry
  fail : Option Errno
  sums : Tally := {}
  newest : Int := noTime
  pruned : Bool := false
  pending : List PendingDir := []
  children : List Job := []

inductive Progress where
  /-- About to open the directory. -/
  | opening (job : Job)
  | reading (dir : InDir)

def isDot (name : Bytes) : Bool := name = [46] || name = [46, 46]

/-- Whether an entry is excluded. -/
def excludes (w : Walk) (job : Job) (name : Bytes) : Bool :=
  !w.target.exclude.isEmpty && w.target.exclude.isMatch (pushComponent (w.displayDir job) name)

/-- Whether directories at `depth` are read. -/
def descends (w : Walk) (depth : Nat) : Bool :=
  match w.target.maxDepth with
  | none => true
  | some maxDepth => depth < maxDepth

/-- The directory's part of the loop body. -/
def readSubdir (w : Walk) (e : Entry) (stat : Stat) (p : InDir) (d : Worker) (tracked : Nat) : InDir × Worker × Nat :=
  let depth := p.job.depth + 1
  let sums := { p.sums with dirs := p.sums.dirs + 1 }.addSize stat.blocks stat.size
  let descend := w.descends depth
  let d := { d with counts := { d.counts with
    scannedDirectories := d.counts.scannedDirectories + 1
    depthLimitHits := d.counts.depthLimitHits + if descend then 0 else 1 } }
  let p := { p with sums := sums }
  let child : Job := { path := childPath p.job.path e.name, depth := depth, node := p.job.node, tracked := false }
  let dir : PendingDir :=
    { name := e.name, stat := stat, handle := if w.target.collectHandles then e.handle else none, descend := descend }
  -- a slot is reserved as the answer is given
  if p.job.tracked then
    if w.keeps depth tracked then ({ p with pending := p.pending ++ [dir] }, d, tracked + 1)
    else if descend then ({ p with children := p.children ++ [child] }, d, tracked + 1)
    else (p, d, tracked + 1)
  else if descend then ({ p with children := p.children ++ [child] }, d, tracked)
  else (p, d, tracked)

/-- What an entry that is no directory is reported as. -/
def entryType : Kind → EntryType
  | .file => .file
  | .symlink => .symlink
  | _ => .other

/-- The part of the loop body for everything but directories. A multiply linked file's allocation
is added after the walk, at one link. -/
def readFile (w : Walk) (e : Entry) (stat : Stat) (p : InDir) (d : Worker) : InDir × Worker :=
  let depth := p.job.depth + 1
  let isShared := 1 < stat.nlink
  let blocks := if isShared then 0 else stat.blocks
  let apparent := if isShared then 0 else stat.size
  let sums := match stat.kind with
    | .symlink => { p.sums with symlinks := p.sums.symlinks + 1 }
    | _ => { p.sums with files := p.sums.files + 1 }
  let counts := match stat.kind with
    | .file => { d.counts with scannedFiles := d.counts.scannedFiles + 1 }
    | .symlink => { d.counts with scannedSymlinks := d.counts.scannedSymlinks + 1 }
    | _ => d.counts
  let reported := p.job.tracked && isReported w.target p.job.depth
  let display := w.displayDir p.job
  let observation : EntryObservation :=
    { parentPath := Utf8.lossy display, path := Utf8.lossy (pushComponent display e.name), entryType := entryType stat.kind
      depth := depth, blocks := blocks, apparent := apparent }
  let link : Link :=
    { key := w.linkKey p.job.path e.name, node := p.job.node, direct := p.job.tracked, blocks := stat.blocks
      apparent := stat.size, entry := if reported then some d.entries.length else none }
  ({ p with sums := sums.addSize blocks apparent },
    { d with
      counts := counts
      entries := if reported then d.entries ++ [observation] else d.entries
      links := if isShared then keepLowest d.links (stat.dev, stat.ino) link Link.key else d.links
      linkDirs := if isShared && p.job.tracked then d.linkDirs ++ [((stat.dev, stat.ino), p.job.node)] else d.linkDirs
      plain := if !isShared && w.target.collectHandles && stat.kind = .file then
          d.plain ++ [(plainKey stat.dev stat.ino, p.job.node)] else d.plain })

/-- One entry of the loop, after the check for an interruption. -/
def readEntry (w : Walk) (e : Entry) (p : InDir) (d : Worker) (tracked : Nat) : InDir × Worker × Nat :=
  if isDot e.name then (p, d, tracked)
  else if w.excludes p.job e.name then
    ({ p with pruned := true },
      { d with counts := { d.counts with skippedExcluded := d.counts.skippedExcluded + 1 } }, tracked)
  else match e.stat with
    | .error err =>
      if err.isPermissionDenied then
        (p, { d with counts := { d.counts with permissionErrors := d.counts.permissionErrors + 1 } }, tracked)
      else (p, { d with counts := { d.counts with missingPathRaces := d.counts.missingPathRaces + 1 } }, tracked)
    | .ok stat =>
      if w.target.noCrossFilesystem && stat.dev ≠ w.rootDev then
        (p, { d with counts := { d.counts with skippedCrossDevice := d.counts.skippedCrossDevice + 1 } }, tracked)
      else
        let p := { p with newest := max p.newest stat.mtime }
        let d := { d with counts := { d.counts with maxObservedDepth := max d.counts.maxObservedDepth (p.job.depth + 1) } }
        match stat.kind with
        | .directory => w.readSubdir e stat p d tracked
        | _ =>
          let (p, d) := w.readFile e stat p d
          (p, d, tracked)

/-- Marks a tracked directory whose contents could not all be read. -/
def sealNode (job : Job) (nodes : List TrackedNode) : List TrackedNode :=
  if job.tracked then nodes.modify job.node fun n => { n with isSealed := true } else nodes

/-- The node registered for a subdirectory. -/
def register (job : Job) (dir : PendingDir) : TrackedNode where
  name := dir.name
  depth := job.depth + 1
  parent := some job.node
  ino := dir.stat.ino
  ownBlocks := dir.stat.blocks
  ownApparent := dir.stat.size
  mtime := dir.stat.mtime
  isSealed := !dir.descend
  pruned := false
  handle := dir.handle

/-- The jobs of the tracked subdirectories, whose nodes start at `first`. -/
def trackedJobs (job : Job) : Nat → List PendingDir → List Job
  | _, [] => []
  | first, dir :: rest =>
    if dir.descend then
      { path := childPath job.path dir.name, depth := job.depth + 1, node := first, tracked := true } :: trackedJobs job (first + 1) rest
    else trackedJobs job (first + 1) rest

/-- The nodes after the end of a directory: its mark for exclusions, and its subdirectories. -/
def InDir.registered (p : InDir) (nodes : List TrackedNode) : List TrackedNode :=
  (if p.pruned && p.job.tracked then nodes.modify p.job.node fun n => { n with pruned := true } else nodes) ++
    p.pending.map (register p.job)

/-- The subdirectories to read next. -/
def InDir.jobs (p : InDir) (nodes : List TrackedNode) : List Job := p.children ++ trackedJobs p.job nodes.length p.pending

/-- The worker's data after the end of a directory. -/
def InDir.tallied (p : InDir) (d : Worker) : Worker :=
  let tally := d.tallies p.job.node
  let tally := { tally.modifyPart p.job.tracked fun part => part.add p.sums with
    newest := max tally.newest (toSeconds p.newest) }
  { d with tallies := Function.update d.tallies p.job.node tally }

/-- Counts an expected failure (a path that vanished, one we may not read, or one too long to
open); anything else fails the scan. -/
def tolerate (counts : Counts) (error : Errno) : Option Counts :=
  if error.isPermissionDenied then some { counts with permissionErrors := counts.permissionErrors + 1 }
  else match error with
    | .enoent | .enotdir | .eloop | .enametoolong => some { counts with missingPathRaces := counts.missingPathRaces + 1 }
    | _ => none

/-- What a scan fails with: the error, and what it came from. -/
inductive Failure where
  /-- "failed to read \x7bpath\x7d" -/
  | open (path : Bytes) (error : Errno)
  /-- "failed to read entry in \x7bpath\x7d" -/
  | entry (path : Bytes) (error : Errno)
  deriving DecidableEq, Repr

/-! ## The task -/

/-- What opening and listing the directory at a path may answer. -/
abbrev Kernel := Bytes → Except Errno Reading → Prop

/-- One step of `read_dir`. The locks it takes one after the other at a directory's end touch only
that directory's node, or append, and are one step. -/
inductive ReadStep (w : Walk) (kernel : Kernel) (interrupted : Bool) :
    Progress → Worker → Shared → WorkPool.Outcome Job Progress Worker Shared Failure → Prop
  | opened {job : Job} {reading : Reading} {d : Worker} {s : Shared} (h : kernel job.path (.ok reading)) :
      ReadStep w kernel interrupted (.opening job) d s
        (.more (.reading { job := job, left := reading.entries, fail := reading.fail }) d s)
  | unopened {job : Job} {error : Errno} {d : Worker} {s : Shared} {counts : Counts} (h : kernel job.path (.error error))
      (ht : tolerate d.counts error = some counts) :
      ReadStep w kernel interrupted (.opening job) d s
        (.done [] { d with counts := counts } { s with nodes := sealNode job s.nodes })
  | openFailed {job : Job} {error : Errno} {d : Worker} {s : Shared} (h : kernel job.path (.error error))
      (ht : tolerate d.counts error = none) :
      ReadStep w kernel interrupted (.opening job) d s
        (.failed (.open job.path error) d { s with nodes := sealNode job s.nodes })
  | cancelled {p : InDir} {e : Entry} {rest : List Entry} {d : Worker} {s : Shared} (hl : p.left = e :: rest)
      (hi : interrupted = true) : ReadStep w kernel interrupted (.reading p) d s (.cancelled d s)
  | entry {p : InDir} {e : Entry} {rest : List Entry} {d : Worker} {s : Shared} (hl : p.left = e :: rest)
      (hi : interrupted = false) :
      ReadStep w kernel interrupted (.reading p) d s
        (.more (.reading (w.readEntry e { p with left := rest } d s.tracked).1)
          (w.readEntry e { p with left := rest } d s.tracked).2.1
          { s with tracked := (w.readEntry e { p with left := rest } d s.tracked).2.2 })
  | closed {p : InDir} {d : Worker} {s : Shared} (hl : p.left = []) (hf : p.fail = none) :
      ReadStep w kernel interrupted (.reading p) d s
        (.done (p.jobs s.nodes) (p.tallied d) { s with nodes := p.registered s.nodes })
  | closedEarly {p : InDir} {d : Worker} {s : Shared} {error : Errno} {counts : Counts} (hl : p.left = [])
      (hf : p.fail = some error) (ht : tolerate d.counts error = some counts) :
      ReadStep w kernel interrupted (.reading p) d s
        (.done (p.jobs s.nodes) (p.tallied { d with counts := counts })
          { s with nodes := p.registered (sealNode p.job s.nodes) })
  | readFailed {p : InDir} {d : Worker} {s : Shared} {error : Errno} (hl : p.left = []) (hf : p.fail = some error)
      (ht : tolerate d.counts error = none) :
      ReadStep w kernel interrupted (.reading p) d s
        (.failed (.entry p.job.path error) d { s with nodes := sealNode p.job s.nodes })

/-- `read_dir` as the pool's task, on a kernel that answers every request. -/
def readDir (w : Walk) (kernel : Kernel) (hk : ∀ path, ∃ answer, kernel path answer) :
    WorkPool.Task Job Progress Worker Shared Failure where
  start := .opening
  step := ReadStep w kernel
  total interrupted p d s := by
    cases p with
    | opening job =>
      obtain ⟨answer, h⟩ := hk job.path
      cases answer with
      | ok reading => exact ⟨_, .opened h⟩
      | error error =>
        cases ht : tolerate d.counts error with
        | none => exact ⟨_, .openFailed h ht⟩
        | some counts => exact ⟨_, .unopened h ht⟩
    | reading p =>
      cases hl : p.left with
      | cons e rest =>
        cases interrupted with
        | true => exact ⟨_, .cancelled hl rfl⟩
        | false => exact ⟨_, .entry hl rfl⟩
      | nil =>
        cases hf : p.fail with
        | none => exact ⟨_, .closed hl hf⟩
        | some error =>
          cases ht : tolerate d.counts error with
          | none => exact ⟨_, .readFailed hl hf ht⟩
          | some counts => exact ⟨_, .closedEarly hl hf ht⟩
  cancelled interrupted p d s d' s' h := by
    cases h with
    | cancelled hl hi => exact hi

end Walk

end StorageHarvester
