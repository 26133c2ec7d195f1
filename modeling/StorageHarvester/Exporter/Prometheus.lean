/-
The metrics exposition (`render` in `src/exporter/prometheus.rs`) over the snapshots of the targets
(`src/cache.rs`): every sample with its metric and its labels, as they are written. What a value is
printed as is left open.
-/
import StorageHarvester.Config.Resolve
import StorageHarvester.Scan.Finish

namespace StorageHarvester

/-! ## Snapshots -/

/-- A successful scan, with what the scanner says of itself. Times are in nanoseconds. -/
structure Success where
  result : ScanResult
  backend : Bytes
  duration : Nat
  timestamp : Nat

structure TargetSnapshot where
  targetName : Bytes
  targetType : Bytes
  path : Bytes
  labels : List (Bytes × Bytes)
  sizeModes : List SizeMode
  lastSuccess : Option Success := none
  lastError : Option Bytes := none
  scanRunning : Bool := false
  scanStarted : Option Nat := none
  scanCount : Nat := 0
  failureCount : Nat := 0
  interval : Nat

namespace TargetSnapshot

def fromTarget (t : Config.Target) : TargetSnapshot where
  targetName := t.name
  targetType := t.targetType
  path := Utf8.lossy t.displayPath
  labels := t.labels
  sizeModes := t.sizeModes
  interval := t.baselineInterval * 1000000

def recordStart (now : Nat) (s : TargetSnapshot) : TargetSnapshot := { s with scanRunning := true, scanStarted := some now }

def recordSuccess (r : Success) (s : TargetSnapshot) : TargetSnapshot :=
  { s with lastSuccess := some r, lastError := none, scanRunning := false, scanStarted := none, scanCount := s.scanCount + 1 }

def recordFailure (error : Bytes) (s : TargetSnapshot) : TargetSnapshot :=
  { s with
    lastError := some error, scanRunning := false, scanStarted := none, scanCount := s.scanCount + 1
    failureCount := s.failureCount + 1 }

/-- What of a snapshot comes from its target. -/
def identity (s : TargetSnapshot) : Bytes × Bytes × Bytes × List (Bytes × Bytes) × List SizeMode :=
  (s.targetName, s.targetType, s.path, s.labels, s.sizeModes)

end TargetSnapshot

/-- The snapshots of all targets, by name. -/
abbrev SnapshotStore := List TargetSnapshot

namespace SnapshotStore

def new (targets : List Config.Target) : SnapshotStore :=
  (targets.map TargetSnapshot.fromTarget).insertionSort fun a b => compare a.targetName b.targetName ≠ .gt

def update (store : SnapshotStore) (name : Bytes) (f : TargetSnapshot → TargetSnapshot) : SnapshotStore :=
  store.map fun s => if s.targetName = name then f s else s

/-- A store as the scheduler keeps it. -/
inductive Reachable (targets : List Config.Target) : SnapshotStore → Prop
  | new : Reachable targets (.new targets)
  | start {store : SnapshotStore} (h : Reachable targets store) (name : Bytes) (now : Nat) :
      Reachable targets (store.update name (.recordStart now))
  | success {store : SnapshotStore} (h : Reachable targets store) (name : Bytes) (r : Success) :
      Reachable targets (store.update name (.recordSuccess r))
  | failure {store : SnapshotStore} (h : Reachable targets store) (name error : Bytes) :
      Reachable targets (store.update name (.recordFailure error))

end SnapshotStore

namespace Exporter

/-! ## Samples -/

inductive Metric where
  | buildInfo
  | filesystemSize | filesystemUsed | filesystemAvail | thinMetadataSize | thinMetadataUsed | thinProvisioned
  | blockRead | blockWritten
  | liveRelists | liveChanges | liveRescansRequested
  | targetDisk | sharingDuration | sharingTimestamp
  | targetInfo | targetInterval | scanCount | scanErrors | scanRunning | scanRunningSeconds
  | ownSize | childrenSize | ownEntries | childrenEntries | exclusiveSize
  | scanSuccess | scanDuration | scanTimestamp | targetStale | scanIssueCount
  | reportedNodes | scannedDirectories | scannedFiles | scannedSymlinks | maxObservedDepth | depthLimitHits
  | liveSignals | liveOverflows
  deriving DecidableEq, Repr

/-- A metric's name after `storage_harvester_`. -/
def Metric.suffix : Metric → String
  | buildInfo => "build_info"
  | filesystemSize => "filesystem_size_bytes"
  | filesystemUsed => "filesystem_used_bytes"
  | filesystemAvail => "filesystem_avail_bytes"
  | thinMetadataSize => "thin_metadata_size_bytes"
  | thinMetadataUsed => "thin_metadata_used_bytes"
  | thinProvisioned => "thin_provisioned_bytes"
  | blockRead => "block_read_bytes_total"
  | blockWritten => "block_written_bytes_total"
  | liveRelists => "live_relists_total"
  | liveChanges => "live_changes_total"
  | liveRescansRequested => "live_rescans_requested_total"
  | targetDisk => "target_disk_bytes"
  | sharingDuration => "sharing_duration_seconds"
  | sharingTimestamp => "sharing_timestamp_seconds"
  | targetInfo => "target_info"
  | targetInterval => "target_interval_seconds"
  | scanCount => "scan_count_total"
  | scanErrors => "scan_errors_total"
  | scanRunning => "scan_running"
  | scanRunningSeconds => "scan_running_seconds"
  | ownSize => "own_size_bytes"
  | childrenSize => "children_size_bytes"
  | ownEntries => "own_entries"
  | childrenEntries => "children_entries"
  | exclusiveSize => "exclusive_size_bytes"
  | scanSuccess => "scan_success"
  | scanDuration => "scan_duration_seconds"
  | scanTimestamp => "scan_timestamp_seconds"
  | targetStale => "target_stale_seconds"
  | scanIssueCount => "scan_issue_count"
  | reportedNodes => "reported_nodes"
  | scannedDirectories => "scanned_directories"
  | scannedFiles => "scanned_files"
  | scannedSymlinks => "scanned_symlinks"
  | maxObservedDepth => "max_observed_depth"
  | depthLimitHits => "depth_limit_hits"
  | liveSignals => "live_signals_total"
  | liveOverflows => "live_overflows_total"

def Metric.name (m : Metric) : Bytes := ascii "storage_harvester_" ++ ascii m.suffix

inductive Value where
  | count (n : Nat)
  | seconds (nanos : Nat)
  | infinite
  deriving DecidableEq, Repr

/-- A sample; the label values are as they are written, escaped. -/
structure Sample where
  metric : Metric
  labels : List (Bytes × Bytes)
  value : Value
  deriving DecidableEq, Repr

/-! ## Labels -/

def underscore : UInt8 := 95

/-- Each character that a label name may not hold becomes an underscore; the bytes 128 to 191 only go on
with a character. -/
def sanitizeLabelName (name : Bytes) : Bytes :=
  (name.filter fun b => !(128 ≤ b && b ≤ 191)).map fun b => if Bytes.isAsciiAlphanumeric b || b = underscore then b else underscore

/-- `str::replace`, of one byte. -/
def replace (b : UInt8) (with_ : Bytes) (s : Bytes) : Bytes := s.flatMap fun c => if c = b then with_ else [c]

def backslash : UInt8 := 92
def newline : UInt8 := 10
def quote : UInt8 := 34

def escapeLabelValue (value : Bytes) : Bytes :=
  replace quote [backslash, quote] (replace newline [backslash, 110] (replace backslash [backslash, backslash] value))

def labelsFromPairs (pairs : List (Bytes × Bytes)) : List (Bytes × Bytes) :=
  pairs.map fun p => (sanitizeLabelName p.1, escapeLabelValue p.2)

def pair (key : String) (value : Bytes) : Bytes × Bytes := (ascii key, value)

/-- The target's labels with `path` set to `path`. -/
def labelsAt (s : TargetSnapshot) (path : Bytes) (extra : List (Bytes × Bytes)) : List (Bytes × Bytes) :=
  labelsFromPairs ([pair "target" s.targetName, pair "target_type" s.targetType, pair "path" path] ++ s.labels ++ extra)

def labels (s : TargetSnapshot) (extra : List (Bytes × Bytes)) : List (Bytes × Bytes) := labelsAt s s.path extra

def nodeLabels (s : TargetSnapshot) (node : NodeObservation) (extra : List (Bytes × Bytes)) : List (Bytes × Bytes) :=
  labelsFromPairs
    ([pair "target" s.targetName, pair "target_type" s.targetType, pair "path" node.path, pair "parent" node.parent,
      pair "node" node.node, pair "depth" (decimal node.depth)] ++ s.labels ++ extra)

/-! ## What lives -/

structure Usage where
  size : Nat
  used : Nat
  avail : Nat

/-- A thin pool's disk, its path as it is shown. -/
structure PoolDisk where
  path : Bytes
  read : Nat
  written : Nat

structure PoolUsage where
  size : Nat
  used : Nat
  metaSize : Nat
  metaUsed : Nat
  provisioned : Nat
  disks : List PoolDisk

/-- The last btrfs sharing pass. -/
structure SharingReport where
  disk : Nat
  duration : Nat
  finished : Nat
  byIno : Nat → Option Nat

structure LiveTarget where
  lvm : Bool
  /-- The pool of the installed tree, if it has one. -/
  pool : Option PoolUsage
  usage : Option Usage
  relists : Nat
  changes : Nat
  rescansRequested : Nat
  sharing : Option SharingReport

structure LiveStore where
  target : Bytes → Option LiveTarget
  signals : Nat
  overflows : Nat

/-! ## Rendering -/

/-- Samples of one set of labels. -/
def samples (labels : List (Bytes × Bytes)) (values : List (Metric × Value)) : List Sample :=
  values.map fun v => ⟨v.1, labels, v.2⟩

def writeDisk (s : TargetSnapshot) (d : PoolDisk) : List Sample :=
  samples (labelsAt s d.path []) [(.blockRead, .count d.read), (.blockWritten, .count d.written)]

/-- A thin pool: its usage as the target's filesystem, its metadata, and each disk's I/O. -/
def writePool (s : TargetSnapshot) (lt : LiveTarget) : List Sample :=
  match lt.pool with
  | none => []
  | some pool =>
    samples (labels s [])
      [(.filesystemSize, .count pool.size), (.filesystemUsed, .count pool.used), (.filesystemAvail, .count (pool.size - pool.used)),
        (.thinMetadataSize, .count pool.metaSize), (.thinMetadataUsed, .count pool.metaUsed),
        (.thinProvisioned, .count pool.provisioned)] ++
      pool.disks.flatMap (writeDisk s)

def writeUsage (s : TargetSnapshot) (lt : LiveTarget) : List Sample :=
  match lt.usage with
  | none => []
  | some usage =>
    samples (labels s [])
      [(.filesystemSize, .count usage.size), (.filesystemUsed, .count usage.used), (.filesystemAvail, .count usage.avail)]

def writeLive (s : TargetSnapshot) (lt : LiveTarget) : List Sample :=
  samples (labels s [])
    [(.liveRelists, .count lt.relists), (.liveChanges, .count lt.changes), (.liveRescansRequested, .count lt.rescansRequested)]

def writeSharing (s : TargetSnapshot) : Option SharingReport → List Sample
  | none => []
  | some report =>
    samples (labels s [])
      [(.targetDisk, .count report.disk), (.sharingDuration, .seconds report.duration),
        (.sharingTimestamp, .count (report.finished / 1000000000))]

def writeTarget (s : TargetSnapshot) (now : Nat) : List Sample :=
  samples (labels s [])
    [(.targetInfo, .count 1), (.targetInterval, .seconds s.interval), (.scanCount, .count s.scanCount),
      (.scanErrors, .count s.failureCount), (.scanRunning, .count s.scanRunning.toNat),
      (.scanRunningSeconds, .seconds (s.scanStarted.elim 0 fun started => now - started))]

def sizeModeName : SizeMode → String
  | .blocks => "blocks"
  | .apparent => "apparent"

inductive SizeComponent where
  | own | children
  deriving DecidableEq, Repr

def nodeValue (node : NodeObservation) : SizeComponent → SizeMode → Nat
  | .own, .blocks => node.ownBlocks
  | .children, .blocks => node.childrenBlocks
  | .own, .apparent => node.ownApparent
  | .children, .apparent => node.childrenApparent

def writeNodeSizes (s : TargetSnapshot) (backend : Bytes) (node : NodeObservation) : List Sample :=
  s.sizeModes.flatMap fun mode =>
    samples (nodeLabels s node [pair "size_mode" (ascii (sizeModeName mode)), pair "backend" backend])
      [(.ownSize, .count (nodeValue node .own mode)), (.childrenSize, .count (nodeValue node .children mode))]

/-- The entries of one kind, for each kind. -/
def writeEntryCounts (s : TargetSnapshot) (node : NodeObservation) (m : Metric) (files directories symlinks : Nat) : List Sample :=
  [("file", files), ("directory", directories), ("symlink", symlinks)].map fun e =>
    ⟨m, nodeLabels s node [pair "entry_type" (ascii e.1)], .count e.2⟩

def writeNodeEntries (s : TargetSnapshot) (node : NodeObservation) : List Sample :=
  writeEntryCounts s node .ownEntries node.fileCount node.directoryCount node.symlinkCount ++
    writeEntryCounts s node .childrenEntries node.childrenFileCount node.childrenDirectoryCount node.childrenSymlinkCount

def writeExclusive (s : TargetSnapshot) (sharing : Option SharingReport) (node : NodeObservation) : List Sample :=
  match sharing.bind fun report => report.byIno node.ino with
  | none => []
  | some bytes => [⟨.exclusiveSize, nodeLabels s node [], .count bytes⟩]

def writeNode (s : TargetSnapshot) (backend : Bytes) (sharing : Option SharingReport) (node : NodeObservation) : List Sample :=
  writeNodeSizes s backend node ++ (writeNodeEntries s node ++ writeExclusive s sharing node)

def writeIssue (s : TargetSnapshot) (issue : String) (n : Nat) : Sample :=
  ⟨.scanIssueCount, labels s [pair "issue" (ascii issue)], .count n⟩

/-- The sizes of the last good scan; whether the latest attempt succeeded is said apart. -/
def writeSuccess (s : TargetSnapshot) (now : Nat) (r : Success) : List Sample :=
  samples (labels s []) [(.scanSuccess, .count s.lastError.isNone.toNat)] ++
    (⟨.scanDuration, labels s [] ++ [(ascii "backend", escapeLabelValue r.backend)], .seconds r.duration⟩ ::
      (samples (labels s []) [(.scanTimestamp, .count (r.timestamp / 1000000000)), (.targetStale, .seconds (now - r.timestamp))] ++
        ([writeIssue s "permission_errors" r.result.counts.permissionErrors,
          writeIssue s "missing_path_races" r.result.counts.missingPathRaces,
          writeIssue s "skipped_cross_device" r.result.counts.skippedCrossDevice,
          writeIssue s "skipped_excluded" r.result.counts.skippedExcluded] ++
        samples (labels s [])
          [(.reportedNodes, .count r.result.observations.length), (.scannedDirectories, .count r.result.counts.scannedDirectories),
            (.scannedFiles, .count r.result.counts.scannedFiles), (.scannedSymlinks, .count r.result.counts.scannedSymlinks),
            (.maxObservedDepth, .count r.result.counts.maxObservedDepth), (.depthLimitHits, .count r.result.counts.depthLimitHits)])))

def writeScan (s : TargetSnapshot) (now : Nat) (sharing : Option SharingReport) : List Sample :=
  match s.lastSuccess with
  | some r => r.result.observations.flatMap (writeNode s r.backend sharing) ++ writeSuccess s now r
  | none => samples (labels s []) [(.scanSuccess, .count 0), (.targetStale, .infinite)]

def writeLiveTarget (s : TargetSnapshot) : Option LiveTarget → List Sample
  | none => []
  | some lt => (if lt.lvm then writePool s lt else writeUsage s lt) ++ writeLive s lt

/-- One target's samples. -/
def writeSnapshot (live : Option LiveStore) (now : Nat) (s : TargetSnapshot) : List Sample :=
  let liveTarget := live.bind fun live => live.target s.targetName
  let sharing := liveTarget.bind LiveTarget.sharing
  writeLiveTarget s liveTarget ++ (writeSharing s sharing ++ (writeTarget s now ++ writeScan s now sharing))

def writeSignals : Option LiveStore → List Sample
  | none => []
  | some live => samples [] [(.liveSignals, .count live.signals), (.liveOverflows, .count live.overflows)]

def render (version : Bytes) (snapshots : List TargetSnapshot) (live : Option LiveStore) (now : Nat) : List Sample :=
  ⟨.buildInfo, [(ascii "version", escapeLabelValue version)], .count 1⟩ ::
    (snapshots.flatMap (writeSnapshot live now) ++ writeSignals live)

/-! ## Well-formedness -/

/-- The same metric name and the same set of labels. -/
def Sample.Same (a b : Sample) : Prop := a.metric.name = b.metric.name ∧ ∀ l, l ∈ a.labels ↔ l ∈ b.labels

/-- No two samples are the same series, and none repeats a label name. -/
structure WellFormed (l : List Sample) : Prop where
  series : l.Pairwise fun a b => ¬ a.Same b
  names : ∀ s ∈ l, (s.labels.map Prod.fst).Nodup

end Exporter

end StorageHarvester
