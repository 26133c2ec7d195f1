/-
An LVM thin pool (`src/lvm.rs`): what a scan reads of it, and the tree `build` makes of that, pool →
guests → disks. A status line is the list of its fields. Instants are `Nat`. What only the API shows
of a pool, a guest or a disk (filesystems, rates, the index by node) is left out.
-/
import StorageHarvester.Config.Resolve
import StorageHarvester.Scan.Finish

namespace StorageHarvester.Lvm

open Config (LvmTarget)

/-! ## Status lines -/

/-- The fields of a line, as `split_whitespace` gives them. -/
abbrev Line := List Bytes

def sector : Nat := 512
/-- dm-thin metadata blocks are 4 KiB. -/
def metaBlock : Nat := 4096

/-- `u64` multiplication. -/
def mul64 (a b : Nat) : Nat := a * b % 2 ^ 64

def parseDigits : Nat → Bytes → Option Nat
  | n, [] => some n
  | n, b :: rest =>
    if 48 ≤ b ∧ b ≤ 57 then
      let n := n * 10 + (b.toNat - 48)
      if n ≤ u64Max then parseDigits n rest else none
    else none

/-- `u64::from_str`, which takes a plus sign. -/
def parseU64 : Bytes → Option Nat
  | [] => none
  | b :: rest => if b = 43 then (if rest.isEmpty then none else parseDigits 0 rest) else parseDigits 0 (b :: rest)

/-- A thin volume's status (`0 <len> thin <mapped> <highest>`): mapped sectors. -/
def thinMapped (fields : Line) : Option Nat :=
  if fields[2]? = some (ascii "thin") then fields[3]? >>= parseU64 else none

/-- A thin pool's table (`0 <len> thin-pool <meta> <data> <block sectors> ...`): its chunk size in
bytes. -/
def poolChunk (fields : Line) : Option Nat :=
  if fields[2]? = some (ascii "thin-pool") then (fields[5]? >>= parseU64).map fun n => mul64 n sector else none

/-- `<used>/<total>`. -/
def fraction (field : Bytes) : Option (Nat × Nat) := do
  let (used, total) ← Bytes.splitOnce field
  return (← parseU64 used, ← parseU64 total)

/-- What the pool holds, and could hold. -/
structure Usage where
  used : Nat
  size : Nat
  metaUsed : Nat
  metaSize : Nat
  deriving DecidableEq, Repr

/-- A thin pool's status (`0 <len> thin-pool <transaction> <meta used>/<meta total>
<data used>/<data total> ...`), in bytes. -/
def poolUsage (fields : Line) (chunk : Nat) : Option Usage :=
  if fields[2]? = some (ascii "thin-pool") then do
    let (metaUsed, metaTotal) ← fields[4]? >>= fraction
    let (dataUsed, dataTotal) ← fields[5]? >>= fraction
    return ⟨mul64 dataUsed chunk, mul64 dataTotal chunk, mul64 metaUsed metaBlock, mul64 metaTotal metaBlock⟩
  else none

/-! ## What a scan reads -/

/-- One volume `lvs` lists in the pool. -/
structure ThinVolume where
  lv : Bytes
  size : Nat
  active : Bool
  /-- A snapshot's origin: it shares that volume's blocks. -/
  origin : Option Bytes

/-- An active device, from sysfs: sectors read and written since it was activated. -/
structure Device where
  read : Nat := 0
  written : Nat := 0

/-- One reading of device-mapper: each device's status line, and its sysfs entry. -/
structure Sample where
  status : Bytes → Option Line
  devices : Bytes → Option Device
  at_ : Nat

/-- A Proxmox storage. -/
structure Storage where
  id : Bytes
  kind : Bytes
  vg : Option Bytes
  thinpool : Option Bytes

inductive GuestKind where
  | qemu | lxc
  /-- Volumes in the pool that no guest's configuration refers to. -/
  | unattached
  deriving DecidableEq, Repr

/-- A volume a guest's configuration names. -/
structure ConfigVolume where
  key : Bytes
  storage : Bytes
  volume : Bytes
  discard : Bool

structure GuestConfig where
  name : Option Bytes
  volumes : List ConfigVolume
  /-- A container's mount points: key → where it mounts. -/
  mounts : List (Bytes × Bytes)

structure Inputs where
  volumes : List ThinVolume
  tables : Bytes → Option Line
  sample : Sample
  storages : List Storage
  guests : List (Nat × GuestKind × GuestConfig)

/-! ## The pool -/

structure Disk where
  key : Bytes
  lv : Bytes
  /-- Its device-mapper name, whether or not it is active now. -/
  dm : Bytes
  active : Bool
  /-- Provisioned size. -/
  size : Nat
  /-- Mapped thin blocks, as last seen. `none` until the volume has been active once. -/
  allocated : Option Nat
  /-- For a volume never seen active: its share of the pool's use no active volume accounts for. -/
  estimated : Option Nat := none
  mount : Option Bytes := none
  discard : Bool
  /-- Its node holds the container's walked directories. -/
  walked : Bool := false
  node : Nat := 0
  /-- Of the node's direct bytes, allocated blocks that no walked file accounts for. -/
  unaccounted : Nat := 0
  /-- Bytes read and written since boot. -/
  read : Nat
  written : Nat
  /-- Not fields of the source: the instants of the samples that `allocated` and the counters were
  last read in. -/
  allocatedAt : Nat
  countersAt : Nat
  deriving DecidableEq, Repr

structure Guest where
  vmid : Option Nat
  name : Bytes
  kind : GuestKind
  node : Nat := 0
  disks : List Disk
  deriving DecidableEq, Repr

structure Pool where
  /-- The Proxmox storage's name, or `vg/lv` when no storage names the pool. -/
  storage : Bytes
  /-- Device-mapper name of the pool device. -/
  dm : Bytes
  chunk : Nat
  usage : Usage
  /-- Sum of the thin volumes' virtual sizes. -/
  provisioned : Nat
  /-- When the device-mapper reading behind these numbers was taken. -/
  sampled : Nat
  guests : List Guest
  deriving DecidableEq, Repr

/-- All disks of all guests. -/
def disksOf (guests : List Guest) : List Disk := guests.flatMap Guest.disks

/-- Each `-` doubled. -/
def doubled (name : Bytes) : Bytes := name.flatMap fun b => if b = 45 then [45, 45] else [b]

/-- Device-mapper name of `vg/lv`. -/
def dmName (vg lv : Bytes) : Bytes := doubled vg ++ 45 :: doubled lv

section Build

variable (lvm : LvmTarget) (inputs : Inputs)

/-- A volume as the disk `key`. -/
def diskOf (key : Bytes) (volume : ThinVolume) (discard : Bool) : Disk :=
  let dm := dmName lvm.vg volume.lv
  let mapped := inputs.sample.status dm >>= thinMapped
  -- counters as of now, so a scan never publishes a disk at zero
  let device := (inputs.sample.devices dm).getD {}
  { key := key
    lv := volume.lv
    dm := dm
    active := mapped.isSome
    size := volume.size
    allocated := mapped.map fun sectors => mul64 sectors sector
    discard := discard
    read := mul64 device.read sector
    written := mul64 device.written sector
    allocatedAt := inputs.sample.at_
    countersAt := inputs.sample.at_ }

/-- The volume of this name. Of two, the last. -/
def volumeNamed (lv : Bytes) : Option ThinVolume := inputs.volumes.reverse.find? fun v => v.lv = lv

/-- The disk a guest's configuration claims in the pool, which `storage` names. -/
def claimedDisk (storage : Option Bytes) (config : GuestConfig) (v : ConfigVolume) : Option Disk :=
  if some v.storage = storage then
    (volumeNamed inputs v.volume).map fun volume =>
      { diskOf lvm inputs v.key volume v.discard with
        mount := (config.mounts.find? fun e => e.1 = v.key).map Prod.snd }
  else none

def guestDisks (storage : Option Bytes) (config : GuestConfig) : List Disk :=
  config.volumes.filterMap (claimedDisk lvm inputs storage config)

/-- The guests with disks in the pool. -/
def claimedGuests (storage : Option Bytes) : List Guest :=
  inputs.guests.filterMap fun (vmid, kind, config) =>
    let disks := guestDisks lvm inputs storage config
    if disks.isEmpty then none
    else some { vmid := some vmid, name := config.name.getD (decimal vmid), kind := kind, disks := disks }

/-- The volumes no guest claims. -/
def unattachedDisks (claimed : List Guest) : List Disk :=
  (inputs.volumes.filter fun v => !(disksOf claimed).any fun d => d.lv = v.lv).map fun v => diskOf lvm inputs v.lv v false

def foundGuests (storage : Option Bytes) : List Guest :=
  let claimed := claimedGuests lvm inputs storage
  let unattached := unattachedDisks lvm inputs claimed
  claimed ++
    if unattached.isEmpty then []
    else [{ vmid := none, name := ascii "Unattached", kind := .unattached, disks := unattached }]

end Build

def mapDisks (f : Disk → Disk) (guests : List Guest) : List Guest :=
  guests.map fun g => { g with disks := g.disks.map f }

/-- Gives the volumes never seen active their share of the pool's use that no active volume accounts
for, by provisioned size. Not when the pool holds thin snapshots. -/
def estimateInactive (guests : List Guest) (poolUsed : Nat) (volumes : List ThinVolume) : List Guest :=
  if volumes.any fun v => v.origin.isSome then guests
  else
    let active := ((disksOf guests).filterMap Disk.allocated).sum % 2 ^ 64
    let unknown := (((disksOf guests).filter fun d => d.allocated.isNone).map Disk.size).sum % 2 ^ 64
    let rest := poolUsed - active
    if unknown = 0 ∨ rest = 0 then guests
    else
      mapDisks (fun d =>
        if d.allocated.isNone then { d with estimated := some (min (rest * d.size / unknown % 2 ^ 64) d.size) } else d)
        guests

/-! ## The tree -/

/-- Nothing here is stat'ed: a pool, a guest, or a disk seen from outside. -/
def synthetic (name : Bytes) (parent : Option Nat) (depth : Nat) : DirNode where
  name := name
  parent := parent
  depth := depth
  ino := 0
  ownBlocks := 0
  ownApparent := 0
  mtime := 0
  newest := noTime
  direct := {}
  sub := {}
  children := []
  isSealed := false
  pruned := false
  alive := true

/-- The bytes a disk's node is sized by at first. -/
def Disk.bytes (d : Disk) : Nat := (d.allocated <|> d.estimated).getD 0

/-- Numbers the disks' nodes from `next`, each sized. -/
def placeDisks : Nat → List Disk → List Disk
  | _, [] => []
  | next, d :: rest => { d with node := next, unaccounted := d.bytes } :: placeDisks (next + 1) rest

/-- Numbers the guests' nodes from `next`, each followed by its disks'. -/
def placeGuests : Nat → List Guest → List Guest
  | _, [] => []
  | next, g :: rest =>
    { g with node := next, disks := placeDisks (next + 1) g.disks } :: placeGuests (next + 1 + g.disks.length) rest

def Guest.label (g : Guest) : Bytes :=
  match g.vmid with
  | some vmid => g.name ++ ascii " (" ++ decimal vmid ++ ascii ")"
  | none => g.name

def diskNode (guest : Nat) (d : Disk) : DirNode :=
  { synthetic d.key (some guest) 2 with direct := ({} : Tally).addSize d.bytes d.bytes }

def guestNode (g : Guest) : DirNode := { synthetic g.label (some 0) 1 with direct := { dirs := g.disks.length } }

/-- The nodes before the roll-up. -/
def startNodes (guests : List Guest) : List DirNode :=
  { synthetic [] none 0 with direct := { dirs := guests.length } } ::
    guests.flatMap fun g => guestNode g :: g.disks.map (diskNode g.node)

def startParent (nodes : List DirNode) (i : Nat) : Option Nat := (nodes.getD i default).parent

/-- The children of a node, by name. The backwards pass gathers them last first. -/
def startChildren (nodes : List DirNode) (i : Nat) : List Nat :=
  (((List.range nodes.length).filter fun j => startParent nodes j = some i).reverse).insertionSort
    fun a b => nameLe (nodes.getD a default).name (nodes.getD b default).name = true

/-- Rolls the nodes up, and lists their children. -/
def rollNodes (nodes : List DirNode) : List DirNode :=
  let subs := Forest.rollUp Tally.add (startParent nodes) (nodes.length - 1) fun i => (nodes.getD i default).direct
  nodes.zipIdx.map fun (n, i) => { n with sub := subs i, children := startChildren nodes i }

/-- Why a pool is not scanned. -/
inductive BuildError where
  /-- "no active thin pool \x7bvg\x7d/\x7bpool\x7d" -/
  | noPool (vg pool : Bytes)
  /-- "no status for thin pool \x7bdm\x7d" -/
  | noStatus (dm : Bytes)
  deriving DecidableEq, Repr

/-- The pool's device, with its chunk size. -/
def poolDevice (lvm : LvmTarget) (tables : Bytes → Option Line) : Option (Bytes × Nat) :=
  let base := dmName lvm.vg lvm.pool
  [base ++ ascii "-tpool", base].findSome? fun name => (tables name >>= poolChunk).map fun chunk => (name, chunk)

/-- The Proxmox storage of the pool. -/
def storageOf (lvm : LvmTarget) (storages : List Storage) : Option Bytes :=
  (storages.find? fun s => s.kind = ascii "lvmthin" ∧ s.vg = some lvm.vg ∧ s.thinpool = some lvm.pool).map Storage.id

/-- The pool's tree without container contents. -/
def build (displayPath : Bytes) (lvm : LvmTarget) (inputs : Inputs) : Except BuildError (Pool × DirTree) :=
  match poolDevice lvm inputs.tables with
  | none => .error (.noPool lvm.vg lvm.pool)
  | some (dm, chunk) =>
    match inputs.sample.status dm >>= fun status => poolUsage status chunk with
    | none => .error (.noStatus dm)
    | some usage =>
      let storage := storageOf lvm inputs.storages
      let guests := placeGuests 1 (estimateInactive (foundGuests lvm inputs storage) usage.used inputs.volumes)
      .ok
        ({ storage := storage.getD (lvm.vg ++ slash :: lvm.pool)
           dm := dm
           chunk := chunk
           usage := usage
           provisioned := (inputs.volumes.map ThinVolume.size).sum % 2 ^ 64
           sampled := inputs.sample.at_
           guests := guests },
          { displayRoot := displayPath
            scanRoot := [slash]
            rootDev := 0
            nodes := rollNodes (startNodes guests)
            links := .empty
            handles := []
            plain := []
            untrackedLinks := [] })

/-! ## The disks of a build -/

theorem mem_disksOf {guests : List Guest} {d : Disk} : d ∈ disksOf guests ↔ ∃ g ∈ guests, d ∈ g.disks := List.mem_flatMap

section Disks

variable {lvm : LvmTarget} {inputs : Inputs} {P Q : Disk → Prop}

/-- Every disk found is a volume of the report. -/
theorem foundGuests_disks
    (h : ∀ key volume discard mount, P { diskOf lvm inputs key volume discard with mount := mount }) (storage : Option Bytes) :
    ∀ d ∈ disksOf (foundGuests lvm inputs storage), P d := by
  intro d hd
  obtain ⟨g, hg, hd⟩ := mem_disksOf.1 hd
  rcases List.mem_append.1 hg with hg | hg
  · obtain ⟨⟨vmid, kind, config⟩, -, he⟩ := List.mem_filterMap.1 hg
    dsimp only at he
    split at he
    · cases he
    · cases he
      obtain ⟨v, -, hv⟩ := List.mem_filterMap.1 hd
      unfold claimedDisk at hv
      split at hv
      · obtain ⟨volume, -, rfl⟩ := Option.map_eq_some_iff.1 hv
        exact h _ _ _ _
      · cases hv
  · split at hg
    · cases hg
    · obtain rfl := List.mem_singleton.1 hg
      obtain ⟨v, -, rfl⟩ := List.mem_map.1 hd
      exact h v.lv v false none

theorem estimateInactive_disks {gs : List Guest} (hp : ∀ d ∈ disksOf gs, P d)
    (h : ∀ d share, P d → P { d with estimated := share }) (used : Nat) (volumes : List ThinVolume) :
    ∀ d ∈ disksOf (estimateInactive gs used volumes), P d := by
  unfold estimateInactive
  split
  · exact hp
  · dsimp only
    split
    · exact hp
    · intro d hd
      obtain ⟨g, hg, hd⟩ := mem_disksOf.1 hd
      obtain ⟨g', hg', rfl⟩ := List.mem_map.1 hg
      obtain ⟨d', hd', rfl⟩ := List.mem_map.1 hd
      have := hp d' (mem_disksOf.2 ⟨g', hg', hd'⟩)
      split
      · exact h d' _ this
      · exact this

theorem placeDisks_disks (h : ∀ d next, P d → Q { d with node := next, unaccounted := d.bytes }) :
    ∀ (next : Nat) {disks : List Disk}, (∀ d ∈ disks, P d) → ∀ d ∈ placeDisks next disks, Q d
  | _, [], _, _, hd => absurd hd List.not_mem_nil
  | next, x :: rest, hp, d, hd => by
    rcases List.mem_cons.1 hd with rfl | hd
    · exact h x next (hp x (List.mem_cons_self ..))
    · exact placeDisks_disks h (next + 1) (fun y hy => hp y (List.mem_cons_of_mem _ hy)) d hd

theorem placeGuests_disks (h : ∀ d next, P d → Q { d with node := next, unaccounted := d.bytes }) :
    ∀ (next : Nat) {gs : List Guest}, (∀ d ∈ disksOf gs, P d) → ∀ d ∈ disksOf (placeGuests next gs), Q d
  | _, [], _, _, hd => absurd hd List.not_mem_nil
  | next, g :: rest, hp, d, hd => by
    rw [placeGuests, disksOf, List.flatMap_cons, List.mem_append] at hd
    rcases hd with hd | hd
    · exact placeDisks_disks h (next + 1) (fun x hx => hp x (List.mem_append_left _ hx)) d hd
    · exact placeGuests_disks h _ (fun x hx => hp x (List.mem_append_right _ hx)) d hd

end Disks

/-! ## A sample -/

def sampleLvm : LvmTarget := ⟨ascii "v", ascii "p", []⟩

/-- A pool of 64 KiB chunks, with one active volume of `sectors`. -/
def sampleReading (sectors : Bytes) (at_ : Nat) : Sample where
  status := fun dm =>
    if dm = ascii "v-p-tpool" then some [[48], [57], ascii "thin-pool", [49], ascii "2/3", ascii "4/5"]
    else if dm = ascii "v-a" then some [[48], [57], ascii "thin", sectors, [57]]
    else none
  devices := fun dm => if dm = ascii "v-a" then some ⟨7, 8⟩ else none
  at_ := at_

/-- A container on the active volume, and an inactive volume no guest claims. -/
def sampleInputs (sample : Sample) : Inputs where
  volumes := [⟨ascii "a", 1048576, true, none⟩, ⟨ascii "b", 2097152, false, none⟩]
  tables := fun dm => if dm = ascii "v-p-tpool" then some [[48], [57], ascii "thin-pool", [97], [98], ascii "128"] else none
  sample := sample
  storages := [⟨ascii "s", ascii "lvmthin", some (ascii "v"), some (ascii "p")⟩]
  guests := [(101, .lxc, ⟨some (ascii "ct"), [⟨ascii "rootfs", ascii "s", ascii "a", false⟩], [(ascii "rootfs", [slash])]⟩)]

def sampleBuilt : Pool × DirTree :=
  (build [] sampleLvm (sampleInputs (sampleReading (ascii "100") 5))).toOption.get (by decide)

example : (sampleBuilt.2.node 0).sub.blocks = 51200 + 210944 := by decide

end StorageHarvester.Lvm
