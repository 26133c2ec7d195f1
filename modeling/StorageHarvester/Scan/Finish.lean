/-
What the native scanner makes of its walk (`finish`, `build_tree`, `observe`, `reported`): the
workers' private data merged, each multiply linked file added at its lowest link, the tracked
directories rolled up into a tree, and the reported ones read off it.
-/
import StorageHarvester.Lib.Forest
import StorageHarvester.Scan.Basic

namespace StorageHarvester

/-! ## The tree -/

/-- Bytewise order of names, as `Ord for [u8]`. -/
def nameLe (a b : Bytes) : Bool := compare a b ≠ .gt

/-- A tracked node and its tally before the roll-up. -/
def treeNode (node : TrackedNode) (tally : NodeTally) : DirNode where
  name := node.name
  parent := node.parent
  depth := node.depth
  ino := node.ino
  ownBlocks := node.ownBlocks
  ownApparent := node.ownApparent
  mtime := node.mtime
  newest := max (toSeconds node.mtime) tally.newest
  direct := tally.direct
  sub := tally.direct.add tally.below
  children := []
  isSealed := node.isSealed || !tally.below.isEmpty
  pruned := node.pruned
  alive := true

/-- What the backwards pass adds to a parent: the totals, and the newest time. -/
def pushUp (parent child : Tally × Int) : Tally × Int := (parent.1.add child.1, max parent.2 child.2)

/-- The parent of tracked node `i`. -/
def parentIn (nodes : List TrackedNode) (i : Nat) : Option Nat := (nodes.getD i default).parent

/-- The children of tracked node `i`, by name. The backwards pass gathers them last first. -/
def childrenOf (nodes : List TrackedNode) (i : Nat) : List Nat :=
  (((List.range nodes.length).filter fun j => parentIn nodes j = some i).reverse).insertionSort
    fun a b => nameLe (nodes.getD a default).name (nodes.getD b default).name = true

/-- Rolls the tracked directories up into a tree. `none` when there is no directory to hold (an
excluded or non-directory root). -/
def buildTree (target : Target) (nodes : List TrackedNode) (tallies : Nat → NodeTally) (links : Table Inode LinkOwner)
    (plain : List (Nat × Nat)) (rootDev : Nat) : Option DirTree :=
  if nodes.isEmpty then none
  else
    let start (i : Nat) : DirNode := treeNode (nodes.getD i default) (tallies i)
    let rolled := Forest.rollUp pushUp (parentIn nodes) (nodes.length - 1) fun i => ((start i).sub, (start i).newest)
    let node (i : Nat) : DirNode :=
      let children := childrenOf nodes i
      { start i with
        sub := (rolled i).1
        newest := (rolled i).2
        -- subdirectories past the cap have no node, so a re-read would mistake them for new
        isSealed := (start i).isSealed || children.length < (start i).direct.dirs
        children := children }
    some
      { displayRoot := target.displayPath
        scanRoot := target.scanPath
        rootDev := rootDev
        nodes := (List.range nodes.length).map node
        links := links
        handles := nodes.zipIdx.filterMap fun (n, i) => n.handle.map fun handle => (i, handle)
        plain := plain
        untrackedLinks := [] }

/-! ## The exported view -/

structure NodeObservation where
  path : Bytes
  parent : Bytes
  node : Bytes
  depth : Nat
  ino : Nat
  ownBlocks : Nat
  childrenBlocks : Nat
  ownApparent : Nat
  childrenApparent : Nat
  fileCount : Nat
  directoryCount : Nat
  symlinkCount : Nat
  childrenFileCount : Nat
  childrenDirectoryCount : Nat
  childrenSymlinkCount : Nat
  deriving DecidableEq, Repr

/-- The exported view of one reported directory. -/
def observe (tree : DirTree) (index : Nat) : NodeObservation :=
  let node := tree.node index
  { path := Utf8.lossy (tree.displayPathBytes index)
    parent := match node.parent with
      | none => []
      | some p => Utf8.lossy (tree.displayPathBytes p)
    node := if index = 0 then [46] else Utf8.lossy node.name
    depth := node.depth
    ino := node.ino
    ownBlocks := node.ownBlocks
    childrenBlocks := node.sub.blocks
    ownApparent := node.ownApparent
    childrenApparent := node.sub.apparent
    fileCount := node.direct.files
    directoryCount := node.direct.dirs
    symlinkCount := node.direct.symlinks
    childrenFileCount := node.sub.files - node.direct.files
    childrenDirectoryCount := node.sub.dirs - node.direct.dirs
    childrenSymlinkCount := node.sub.symlinks - node.direct.symlinks }

/-- The order of paths relative to the root: by components. -/
def componentsLe (a b : List Bytes) : Bool := compare a b ≠ .gt

/-- The reported directories of `tree`, in path order. -/
def reported (target : Target) (tree : DirTree) : List NodeObservation :=
  ((((List.range tree.nodes.length).filter fun index =>
      (tree.node index).alive && isReported target (tree.node index).depth).map
    fun index => (tree.components index, observe tree index)).insertionSort fun a b => componentsLe a.1 b.1 = true).map Prod.snd

/-! ## Merging -/

structure ScanResult where
  observations : List NodeObservation
  entries : List EntryObservation
  counts : Counts
  tree : Option DirTree

namespace Worker

/-- The merged tally of a node. -/
def mergeTally (workers : List Worker) (node : Nat) : NodeTally :=
  workers.foldl (fun t w =>
    { direct := t.direct.add (w.tallies node).direct
      below := t.below.add (w.tallies node).below
      newest := max t.newest (w.tallies node).newest }) {}

def mergeCounts (workers : List Worker) : Counts := workers.foldl (fun c w => c.add w.counts) {}

/-- The lowest link of each multiply linked file, with the place of its worker's entries among
all entries. -/
def mergeLinks : Nat → List Worker → Table Inode (Nat × Link) → Table Inode (Nat × Link)
  | _, [], winners => winners
  | offset, w :: workers, winners =>
    mergeLinks (offset + w.entries.length) workers
      (w.links.entries.foldl (fun winners e => keepLowest winners e.1 (offset, e.2) fun link => link.2.key) winners)

/-- The tracked directories holding a link to `inode`, as the workers met them. -/
def holders (workers : List Worker) (inode : Inode) : List Nat :=
  ((workers.flatMap Worker.linkDirs).filter fun e => e.1 = inode).map Prod.snd

end Worker

/-- The owner of a multiply linked file: its lowest link's directory, and the others holding it. -/
def linkOwner (workers : List Worker) (inode : Inode) (link : Link) : LinkOwner where
  node := link.node
  blocks := link.blocks
  apparent := link.apparent
  others := (((Worker.holders workers inode).insertionSort (· ≤ ·)).dedup).filter (· ≠ link.node)

/-- Adds a winning link's size to its directory's tally. -/
def addWinner (tallies : Nat → NodeTally) (link : Link) : Nat → NodeTally :=
  Function.update tallies link.node
    ((tallies link.node).modifyPart link.direct fun part => part.addSize link.blocks link.apparent)

/-- Shows a winning link's size at its entry on the status page. -/
def showWinner (entries : List EntryObservation) (winner : Nat × Link) : List EntryObservation :=
  match winner.2.entry with
  | none => entries
  | some entry => entries.modify (winner.1 + entry) fun e => { e with blocks := winner.2.blocks, apparent := winner.2.apparent }

/-- The result of a walk that tracked `nodes`. -/
def finish (w : Walk) (nodes : List TrackedNode) (workers : List Worker) : ScanResult :=
  let winners := Worker.mergeLinks 0 workers .empty
  let tallies := winners.entries.foldl (fun tallies e => addWinner tallies e.2.2) (Worker.mergeTally workers)
  let owners := Table.ofList (winners.entries.filterMap fun e =>
    if e.2.2.direct then some (e.1, linkOwner workers e.1 e.2.2) else none)
  let untrackedLinks := winners.entries.filterMap fun e =>
    if !e.2.2.direct && w.target.collectHandles then some e.1 else none
  let entries := winners.entries.foldl (fun entries e => showWinner entries e.2) (workers.flatMap Worker.entries)
  let plain := (workers.flatMap Worker.plain).insertionSort fun a b => a.1 < b.1 ∨ a.1 = b.1 ∧ a.2 ≤ b.2
  let tree := (buildTree w.target nodes tallies owners plain w.rootDev).map fun tree =>
    { tree with untrackedLinks := untrackedLinks }
  { observations := match tree with
      | none => []
      | some tree => reported w.target tree
    entries := entries.insertionSort fun a b => nameLe a.path b.path = true
    counts := Worker.mergeCounts workers
    tree := tree }

end StorageHarvester
