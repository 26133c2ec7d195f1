/-
The btrfs sharing pass (`sharing` in `src/btrfs.rs`, `sharing_pass` in `src/scheduler.rs`): the items
of a subvolume's tree in key order are read into references from directories to extents, cut into
sorted chunks, merged, and every extent is settled at the lowest common ancestor of its references.
-/
import StorageHarvester.Btrfs.Skeleton
import StorageHarvester.Lib.Heap
import StorageHarvester.Lib.LittleEndian

namespace StorageHarvester.Btrfs

open LittleEndian (window)

/-! ## Items -/

structure Key where
  objectid : Nat
  kind : Nat
  offset : Nat
  deriving DecidableEq, Repr

/-- Keys are ordered by object, kind and offset. -/
def Key.le (a b : Key) : Prop :=
  a.objectid < b.objectid ∨ (a.objectid = b.objectid ∧ (a.kind < b.kind ∨ (a.kind = b.kind ∧ a.offset ≤ b.offset)))

instance (a b : Key) : Decidable (a.le b) := inferInstanceAs (Decidable (_ ∨ _))

structure Item where
  key : Key
  data : Bytes
  deriving DecidableEq, Repr

def inodeRef : Nat := 12
def inodeExtref : Nat := 13
def extentData : Nat := 108

def u64At (data : Bytes) (at_ : Nat) : Nat := ((window data at_ 8).map LittleEndian.read).getD 0

def u16At (data : Bytes) (at_ : Nat) : Nat := ((window data at_ 2).map LittleEndian.read).getD 0

/-- The records of an item of names: where each starts, and its name. A record is a header of
`header` bytes, ended by the name's length, and the name. At most `fuel` are read. -/
def records (header : Nat) (data : Bytes) : Nat → Nat → List (Nat × Bytes)
  | 0, _ => []
  | fuel + 1, at_ =>
    if at_ + header ≤ data.length then
      let len := u16At data (at_ + header - 2)
      (at_, (window data (at_ + header) len).getD []) :: records header data fuel (at_ + header + len)
    else []

/-- The links an item lists: parent directory and name. -/
def Item.links (item : Item) : List (Nat × Bytes) :=
  if item.key.kind = inodeRef then (records 10 item.data (item.data.length + 1) 0).map fun r => (item.key.offset, r.2)
  else if item.key.kind = inodeExtref then
    (records 18 item.data (item.data.length + 1) 0).map fun r => (u64At item.data r.1, r.2)
  else []

inductive Extent where
  /-- The data lies in the item. -/
  | inline (bytes : Nat)
  /-- An extent on disk, its size in 4 KiB units. -/
  | onDisk (bytenr pages : Nat)
  deriving DecidableEq, Repr

/-- `u32::MAX`. -/
def u32Max : Nat := 2 ^ 32 - 1

/-- The extent an item refers to, unless it is a hole. -/
def Item.extent (item : Item) : Option Extent :=
  if item.key.kind = extentData ∧ 21 ≤ item.data.length then
    if item.data.getD 20 0 = 0 then some (.inline (item.data.length - 21))
    else if u64At item.data 21 ≠ 0 then
      some (.onDisk (u64At item.data 21) (min ((u64At item.data 29 + 4095) / 4096) u32Max))
    else none
  else none

/-! ## References -/

/-- One reference to an extent: the directory of one link of the referencing inode. -/
structure Ref where
  bytenr : Nat
  node : Option Nat
  pages : Nat
  deriving DecidableEq, Repr

/-- Node numbers in order, `NONE` last. -/
def nodeLt : Option Nat → Option Nat → Bool
  | some a, some b => a < b
  | some _, none => true
  | none, _ => false

/-- `Ord for Ref`, field by field. -/
def Ref.lt (a b : Ref) : Bool :=
  a.bytenr < b.bytenr ||
    (a.bytenr == b.bytenr && (nodeLt a.node b.node || (a.node == b.node && a.pages < b.pages)))

def sortRefs (refs : List Ref) : List Ref := refs.insertionSort fun a b => Ref.lt b a = false

/-- `u64` addition; wraps, as release builds do. -/
def wrapAdd (a b : Nat) : Nat := (a + b) % 2 ^ 64

/-- What is gathered while the items are read. `full` are the chunks that reached their size,
sorted, and `last` the one being filled. -/
structure Collecting where
  items : Nat := 0
  inode : Nat := 2 ^ 64 - 1
  /-- The directories holding the current inode's links. -/
  dirs : List (Option Nat) := []
  alone : Nat → Nat := fun _ => 0
  disk : Nat := 0
  full : List (List Ref) := []
  last : List Ref := []

def Collecting.push (c : Collecting) (chunk : Nat) (ref : Ref) : Collecting :=
  if c.last.length = chunk then { c with full := c.full ++ [sortRefs c.last], last := [ref] }
  else { c with last := c.last ++ [ref] }

/-- Notes a directory holding a link, unless it is noted already. -/
def noteDir (dirs : List (Option Nat)) (node : Option Nat) : List (Option Nat) :=
  if dirs.contains node then dirs else dirs ++ [node]

/-- The lowest common ancestor of directories: none when there are none. -/
def Skeleton.commonOf (s : Skeleton) : List (Option Nat) → Option Nat
  | [] => none
  | d :: dirs => dirs.foldl s.common d

/-- Adds to one node's bytes. -/
def addAt (alone : Nat → Nat) (node : Option Nat) (bytes : Nat) : Nat → Nat :=
  match node with
  | none => alone
  | some i => Function.update alone i (wrapAdd (alone i) bytes)

/-- A new inode holds no link yet. -/
def Collecting.enter (c : Collecting) (inode : Nat) : Collecting :=
  if inode ≠ c.inode then { c with inode := inode, dirs := [] } else c

/-- The links of an item, noted. -/
def Collecting.note (s : Skeleton) (c : Collecting) (item : Item) : Collecting :=
  let c := { c with items := c.items + 1 }.enter item.key.objectid
  { c with dirs := item.links.foldl (fun dirs l => noteDir dirs (s.holder l.1 l.2)) c.dirs }

/-- The extent of an item, counted or referred to. Inline data is its inode's alone. -/
def Collecting.charge (s : Skeleton) (chunk : Nat) (c : Collecting) : Option Extent → Collecting
  | none => c
  | some (.inline bytes) =>
    let holder := s.commonOf c.dirs
    { c with disk := if holder = none then c.disk else wrapAdd c.disk bytes, alone := addAt c.alone holder bytes }
  | some (.onDisk bytenr pages) =>
    let holders := if c.dirs = [] then [none] else c.dirs
    holders.foldl (fun c node => c.push chunk { bytenr := bytenr, node := node, pages := pages }) c

def Collecting.read (s : Skeleton) (chunk : Nat) (c : Collecting) (item : Item) : Collecting :=
  (c.note s item).charge s chunk item.extent

/-- The sorted chunks, once all items are read. -/
def Collecting.chunks (c : Collecting) : List (List Ref) := c.full ++ [sortRefs c.last]

/-! ## Settling -/

structure Merging where
  current : Option Ref := none
  common : Option Nat := none
  /-- Some of the directories referring to the current extent. -/
  group : List (Option Nat) := []
  alone : Nat → Nat
  disk : Nat
  outside : Nat := 0
  pairs : Table (Nat × Nat) Nat := .empty

/-- The pairs `(a, b)` with `a` before `b`. -/
def pairsOf : List Nat → List (Nat × Nat)
  | [] => []
  | a :: rest => rest.map (a, ·) ++ pairsOf rest

/-- The directories of depth `depth` above those of `group`, at most 8 of them. -/
def tops (s : Skeleton) (group : List (Option Nat)) (depth : Nat) : List Nat :=
  let tops := group.filterMap fun node => node.bind fun i => if depth ≤ s.depth i then some (s.ancestorAt i depth) else none
  ((tops.insertionSort (· ≤ ·)).dedup).take 8

/-- Settles the extent `current`, all of whose references have been seen. -/
def Merging.settle (s : Skeleton) (m : Merging) (current : Ref) : Merging :=
  let bytes := current.pages * 4096
  let ours := m.group.any fun node => node ≠ none
  let pairs := if 1 < m.group.length then
      ([1, 2].flatMap fun depth => pairsOf (tops s m.group depth)).foldl
        (fun pairs ab => pairs.put ab (wrapAdd ((pairs.get ab).getD 0) bytes)) m.pairs
    else m.pairs
  { m with
    group := []
    disk := if ours then wrapAdd m.disk bytes else m.disk
    outside := if ours ∧ m.common = none then wrapAdd m.outside bytes else m.outside
    alone := if ours then addAt m.alone m.common bytes else m.alone
    pairs := pairs }

/-- One reference popped from the heap. -/
def Merging.visit (s : Skeleton) (m : Merging) (next : Ref) : Merging :=
  match m.current with
  | some current =>
    if current.bytenr = next.bytenr then
      { m with
        common := s.common m.common next.node
        group := if m.group.length < 16 && !m.group.contains next.node then m.group ++ [next.node] else m.group }
    else
      let m := m.settle s current
      { m with current := some next, common := next.node, group := m.group ++ [next.node] }
  | none => { m with current := some next, common := next.node, group := m.group ++ [next.node] }

/-- Settles the last extent. -/
def Merging.close (s : Skeleton) (m : Merging) : Merging :=
  match m.current with
  | some current => m.settle s current
  | none => m

/-! ## The pass -/

structure Sharing where
  alone : Nat → Nat
  disk : Nat
  outside : Nat
  pairs : List (Nat × Nat × Nat)
  items : Nat

/-- The items read, in chunks of `chunk` references. -/
def collect (s : Skeleton) (chunk : Nat) (items : List Item) : Collecting := items.foldl (Collecting.read s chunk) {}

/-- The chunks merged and every extent settled. -/
def settled (s : Skeleton) (c : Collecting) : Merging :=
  ((Heap.merge Ref.lt c.chunks).foldl (Merging.visit s) { alone := c.alone, disk := c.disk }).close s

def sharing (s : Skeleton) (chunk : Nat) (items : List Item) : Sharing :=
  let c := collect s chunk items
  let m := settled s c
  { alone := m.alone
    disk := m.disk
    outside := m.outside
    pairs := ((m.pairs.entries.map fun e => (e.1.1, e.1.2, e.2)).insertionSort fun x y => y.2.2 ≤ x.2.2).take 50
    items := c.items }

/-- What a subtree holds alone is what its directories hold alone. -/
def freed (s : Skeleton) (alone : Nat → Nat) : Nat → Nat := Forest.rollUp wrapAdd s.parent (s.size - 1) alone

end StorageHarvester.Btrfs
