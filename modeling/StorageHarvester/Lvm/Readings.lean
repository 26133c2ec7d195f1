/-
What changes a pool's tree (`src/lvm.rs`): a container's walk put in place of its disk
(`graft_walk`), a disk moved to another allocation (`set_allocated`), a poll's sample applied
(`apply`), and a scan's tree that takes the newer readings of the one it replaces
(`keep_newer_readings`). The rates of a disk's I/O, and what the poller keeps for them, are left out.
-/
import StorageHarvester.Lvm.Pool

namespace StorageHarvester.Lvm

/-! ## One disk -/

/-- A size's signed counterpart (`as i64`). -/
def sizeDelta (blocks apparent : Nat) : Delta := Delta.size (wrapI64 blocks) (wrapI64 apparent)

/-- The walked tree as it is grafted: named after the disk, with the blocks no file accounts for. -/
def asDisk (walked : DirTree) (key : Bytes) (remainder : Nat) : DirTree :=
  walked.modifyNode 0 fun root =>
    { root with
      name := key
      direct := root.direct.addSize remainder remainder
      sub := root.sub.addSize remainder remainder }

/-- Puts a container's walked tree in place of its root disk's node. A walk that found more than the
disk holds is not used. Returns whether it was grafted. -/
def graftWalk (t : DirTree) (disk : Disk) (walked : DirTree) : DirTree × Disk × Bool :=
  let allocated := disk.allocated.getD 0
  if allocated < (walked.node 0).totalBlocks then (t, disk, false)
  else
    match (t.node disk.node).parent with
    -- a disk is below its guest: the source panics
    | none => (t, disk, false)
    | some guest =>
      let gone := (Delta.ofTally (t.node disk.node).sub).negate
      let t₁ := (t.detach disk.node).1.propagate guest gone
      let remainder := allocated - (walked.node 0).totalBlocks
      let walked := asDisk walked disk.key remainder
      let root := walked.node 0
      let added := (Delta.ofTally root.sub).plus (sizeDelta root.ownBlocks root.ownApparent)
      let (t₂, node) := t₁.graft guest walked
      (t₂.propagate guest added, { disk with node := node, walked := true, unaccounted := remainder }, true)

/-- What the children of `node`, and everything below them, leave behind. -/
def detachChildren (t : DirTree) (node : Nat) : DirTree :=
  (t.node node).children.foldl (fun t child => (t.detach child).1)
    (t.modifyNode node fun n => { n with children := [] })

/-- A disk's node as its allocation alone: blocks, not files, and no time. -/
def flatNode (allocated : Nat) (n : DirNode) : DirNode :=
  { n with
    direct := { blocks := allocated, apparent := allocated }
    sub := { blocks := allocated, apparent := allocated }
    ownBlocks := 0
    ownApparent := 0
    newest := noTime }

/-- The disk's node alone again, sized by its allocation. -/
def goFlat (t : DirTree) (node allocated : Nat) : DirTree :=
  (detachChildren t node).modifyNode node (flatNode allocated)

/-- The change of the node's total, its own inode included. -/
def flatDelta (n : DirNode) (allocated : Nat) : Delta :=
  (Delta.between n.sub { blocks := allocated, apparent := allocated }).plus (sizeDelta n.ownBlocks n.ownApparent).negate

/-- What `setAllocated` returns. -/
structure SetAllocated where
  tree : DirTree
  disk : Disk
  /-- The change to the node's subtree. -/
  delta : Delta
  /-- The disk went opaque. -/
  flat : Bool

/-- Moves a disk node to `allocated` bytes. For a walked container root, only the part no file
accounts for moves, unless allocation fell below what the walk found: then it goes opaque. -/
def setAllocated (t : DirTree) (disk : Disk) (allocated : Nat) : SetAllocated :=
  let node := t.node disk.node
  let files := node.totalBlocks - disk.unaccounted
  let disk := { disk with allocated := some allocated, estimated := none }
  if disk.walked ∧ allocated < files then
    let delta := flatDelta node allocated
    let t := goFlat t disk.node allocated
    let t := match (t.node disk.node).parent with
      | none => t
      | some parent => t.propagate parent delta
    ⟨t, { disk with walked := false, unaccounted := allocated }, delta, true⟩
  else
    let unaccounted : Nat := if disk.walked then allocated - files else allocated
    let change := wrapI64 (wrapI64 unaccounted - wrapI64 disk.unaccounted)
    let delta := Delta.size change change
    let t := if change ≠ 0 then (t.applyDirect disk.node delta).propagate disk.node delta else t
    ⟨t, { disk with unaccounted := unaccounted }, delta, false⟩

/-! ## All disks -/

section Traverse

variable {σ : Type} (f : σ → Disk → σ × Disk)

def overDisks : σ → List Disk → σ × List Disk
  | s, [] => (s, [])
  | s, d :: rest =>
    let (s, d) := f s d
    let (s, rest) := overDisks s rest
    (s, d :: rest)

/-- `f` on every disk of every guest, in order. -/
def overGuests : σ → List Guest → σ × List Guest
  | s, [] => (s, [])
  | s, g :: rest =>
    let (s, disks) := overDisks f s g.disks
    let (s, rest) := overGuests s rest
    (s, { g with disks := disks } :: rest)

end Traverse

/-! ## A scan's tree -/

/-- The disk of this device. Of two, the last. -/
def seenDisk (older : List Guest) (dm : Bytes) : Option Disk := (disksOf older).reverse.find? fun d => d.dm = dm

/-- A disk takes what was seen of it. The state is the tree, and whether a walked disk went
opaque. -/
def keepSeen (older : List Guest) (s : DirTree × Bool) (disk : Disk) : (DirTree × Bool) × Disk :=
  match seenDisk older disk.dm with
  | none => (s, disk)
  | some seen =>
    let disk := { disk with
      active := seen.active
      read := seen.read
      written := seen.written
      countersAt := seen.countersAt }
    match seen.allocated with
    | none => (s, disk)
    | some allocated =>
      if disk.allocated ≠ some allocated then
        let set := setAllocated s.1 disk allocated
        ((set.tree, s.2 || set.flat), { set.disk with allocatedAt := seen.allocatedAt })
      -- both samples showed it
      else (s, { disk with allocatedAt := max disk.allocatedAt seen.allocatedAt })

/-- A scan's tree replacing one whose pool polls read after the scan did: takes their newer
readings. Returns whether a walked disk went opaque. -/
def keepNewerReadings (t : DirTree) (pool : Option Pool) (older : Pool) : DirTree × Option Pool × Bool :=
  match pool with
  | none => (t, none, false)
  | some pool =>
    if pool.sampled < older.sampled then
      let ((t, flat), guests) := overGuests (keepSeen older.guests) (t, false) pool.guests
      (t, some { pool with sampled := older.sampled, usage := older.usage, guests := guests }, flat)
    else (t, some pool, false)

/-! ## A poll -/

/-- The tree of a target as it is installed, with its pool. -/
structure Installed where
  generation : Nat
  tree : DirTree
  pool : Option Pool

/-- A change that is published: where, by how much, and to what total. -/
structure Change where
  path : Bytes
  delta : Delta
  total : Nat

/-- A disk moves to the allocation a sample shows. The state is the tree, the changes, and whether a
walked disk went opaque. -/
def readMapped (at_ allocated : Nat) (s : DirTree × List Change × Bool) (disk : Disk) :
    (DirTree × List Change × Bool) × Disk :=
  -- a walked disk is checked every time: its files may outgrow the allocation
  if disk.allocated ≠ some allocated ∨ disk.walked = true then
    let set := setAllocated s.1 disk allocated
    let change : Change := {
      path := Utf8.lossy (set.tree.displayPathBytes set.disk.node)
      delta := set.delta
      total := (set.tree.node set.disk.node).totalBlocks }
    ((set.tree, if set.delta.isZero then s.2.1 else s.2.1 ++ [change], s.2.2 || set.flat),
      { set.disk with allocatedAt := at_ })
  else (s, { disk with allocatedAt := at_ })

/-- An active disk takes the counters a sample shows. -/
def readCounters (sample : Sample) (disk : Disk) : Disk :=
  match (if disk.active then sample.devices disk.dm else none) with
  | none => disk
  | some device =>
    { disk with
      read := mul64 device.read sector
      written := mul64 device.written sector
      countersAt := sample.at_ }

/-- A disk takes what the sample says of it. -/
def applyDisk (sample : Sample) (s : DirTree × List Change × Bool) (disk : Disk) :
    (DirTree × List Change × Bool) × Disk :=
  match sample.status disk.dm >>= thinMapped with
  | none => (s, readCounters sample { disk with active := false })
  | some sectors =>
    let (s, disk) := readMapped sample.at_ (mul64 sectors sector) s { disk with active := true }
    (s, readCounters sample disk)

/-- What `apply` leaves: the installed tree, what it publishes, whether it asks for a rescan, and
whether the sample was taken. -/
structure Applied where
  installed : Option Installed
  changes : List Change := []
  rescan : Bool := false
  taken : Bool

/-- Applies a sample to the tree it was taken for. -/
def apply (installed : Option Installed) (generation : Nat) (sample : Sample) : Applied :=
  match installed with
  | none => { installed := none, taken := false }
  | some state =>
    if state.generation ≠ generation then { installed := some state, taken := false }
    else match state.pool with
      | none => { installed := some state, taken := false }
      | some pool =>
        let usage := (sample.status pool.dm >>= fun line => poolUsage line pool.chunk).getD pool.usage
        let ((tree, changes, flat), guests) := overGuests (applyDisk sample) (state.tree, [], false) pool.guests
        let pool := { pool with sampled := sample.at_, usage := usage, guests := guests }
        { installed := some { state with tree := tree, pool := some pool }
          changes := changes
          rescan := flat
          taken := true }

/-- Takes a finished scan's tree. Returns whether a rescan is asked for too. -/
def replace (installed : Option Installed) (tree : DirTree) (pool : Option Pool) : Installed × Bool :=
  match installed with
  | none => (⟨1, tree, pool⟩, false)
  | some old =>
    match old.pool with
    | none => (⟨old.generation + 1, tree, pool⟩, false)
    | some older =>
      let (tree, pool, flat) := keepNewerReadings tree pool older
      (⟨old.generation + 1, tree, pool⟩, flat)

end StorageHarvester.Lvm
