/-
The state of a live target (`TreeState` in `src/live.rs`): the tree, and the indexes that find a
directory by its inode or file handle and a singly linked file's directories by its key.
-/
import StorageHarvester.Live.Listing

namespace StorageHarvester

/-- A directory's identity that survives a rescan, unlike its node number. -/
inductive StableKey where
  | handle (handle : Handle)
  | ino (ino : Nat)
  deriving DecidableEq, Repr

structure TreeState where
  tree : DirTree
  /-- Bumped by every rescan. -/
  generation : Nat
  handles : Table Handle Nat
  inos : Table Nat Nat
  /-- The scan's `(plainKey, node)` pairs, in order. -/
  plain : List (Nat × Nat)
  /-- What re-reads found since; no pair twice. -/
  plainLive : List (Nat × Nat)
  plainByNode : Table Nat (List Nat)
  /-- Multiply linked files counted in untracked directories. -/
  untracked : List Inode

namespace TreeState

/-- `sort_unstable` and `dedup` of keys. -/
def sortKeys (keys : List Nat) : List Nat := (keys.insertionSort (· ≤ ·)).dedup

/-- `BTreeSet::insert`. -/
def insertPair (pairs : List (Nat × Nat)) (pair : Nat × Nat) : List (Nat × Nat) :=
  if pairs.contains pair then pairs else pairs ++ [pair]

/-- The inodes of the nodes numbered from `start`, indexed. -/
def indexInos (nodes : List DirNode) (start : Nat) (inos : Table Nat Nat) : Table Nat Nat :=
  (nodes.zipIdx.drop start).foldl (fun inos e => inos.put e.1.ino e.2) inos

def new (tree : DirTree) (generation : Nat) : TreeState where
  tree := { tree with handles := [], plain := [], untrackedLinks := [] }
  generation := generation
  handles := Table.ofList (tree.handles.map fun e => (e.2, e.1))
  inos := indexInos tree.nodes 0 .empty
  plain := tree.plain
  plainLive := []
  plainByNode := .empty
  untracked := tree.untrackedLinks.dedup

/-- The grafted files' keys, by directory. -/
def groupPlain (pairs : List (Nat × Nat)) : Table Nat (List Nat) :=
  pairs.foldl (fun grouped e => grouped.put e.2 (((grouped.get e.2).getD []) ++ [e.1])) .empty

/-- Registers handles and inodes of nodes grafted since the last call. -/
def indexNew (st : TreeState) (start : Nat) : TreeState :=
  { st with
    tree := { st.tree with handles := [], plain := [] }
    handles := st.tree.handles.foldl (fun handles e => handles.put e.2 e.1) st.handles
    inos := indexInos st.tree.nodes start st.inos
    plainLive := st.tree.plain.foldl insertPair st.plainLive
    plainByNode := (groupPlain st.tree.plain).entries.foldl (fun byNode e => byNode.put e.1 (sortKeys e.2)) st.plainByNode }

/-- What a re-read of `node` found singly linked in it, in place of what it had. -/
def setPlain (st : TreeState) (node : Nat) (keys : List Nat) : TreeState :=
  let keys := sortKeys keys
  let old := (st.plainByNode.get node).getD []
  let byNode := st.plainByNode.del node
  { st with
    plainLive := ((keys.filter fun key => !old.contains key).map (·, node)).foldl insertPair
      (st.plainLive.filter fun e => !(e.2 = node && old.contains e.1 && !keys.contains e.1))
    plainByNode := if keys = [] then byNode else byNode.put node keys }

/-- Adds singly linked files counted under `node` to what it already holds. -/
def addPlain (st : TreeState) (node : Nat) (keys : List Nat) : TreeState :=
  { st with
    plainLive := (keys.map (·, node)).foldl insertPair st.plainLive
    plainByNode := st.plainByNode.put node (sortKeys ((st.plainByNode.get node).getD [] ++ keys)) }

/-- Directories that held a singly linked file with this inode, at the scan or since. -/
def plainHolders (st : TreeState) (inode : Inode) : List Nat :=
  let key := plainKey inode.1 inode.2
  ((st.plain.dropWhile fun e => e.1 < key).takeWhile fun e => e.1 = key).map Prod.snd ++
    ((st.plainLive.filter fun e => e.1 = key).map Prod.snd).insertionSort (· ≤ ·)

def ownerAlive (tree : DirTree) (inode : Inode) : Bool :=
  match tree.links.get inode with
  | some owner => (tree.node owner.node).alive
  | none => false

/-- Whether the tree already counts this multiply linked file: under a live owner, or in an
untracked directory. -/
def alreadyCounted (st : TreeState) (inode : Inode) : Bool := st.untracked.contains inode || ownerAlive st.tree inode

/-- Whether a link just adopted may already be counted where the tree cannot reach it: as a plain
file under a sealed directory, or as a link in an untracked one. -/
def countedOutOfReach (st : TreeState) (inode : Inode) : Bool :=
  st.untracked.contains inode ||
    (st.plainHolders inode).any fun holder => (st.tree.node holder).alive && (st.tree.node holder).isSealed

def resolve (st : TreeState) (key : StableKey) : Option Nat :=
  match key with
  | .handle handle => (st.handles.get handle).filter fun node => (st.tree.node node).alive
  | .ino ino => (st.inos.get ino).filter fun node => (st.tree.node node).alive

end TreeState

end StorageHarvester
