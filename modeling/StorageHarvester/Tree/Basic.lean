/-
The directory tree a scan leaves behind (`src/tree.rs`): the arena of directories with what sits
directly in each and what sits below, the table of multiply linked files, and the operations that
edit the tree in place. Node numbers are `Nat`, and the parent `NONE` is `none`.
-/
import StorageHarvester.Lib.BinarySearch
import StorageHarvester.Lib.Table
import StorageHarvester.Lib.UnixPath
import StorageHarvester.Tree.Tally

namespace StorageHarvester

/-- `(dev, ino)`. -/
abbrev Inode := Nat × Nat
abbrev Handle := Bytes

/-- `NO_TIME`: `newest` where nothing was stat'ed. -/
def noTime : Int := i64Min

/-- A `stat` time in nanoseconds as whole seconds, rounded down. Keeps `noTime`. -/
def toSeconds (nanos : Int) : Int := if nanos = noTime then noTime else nanos / 1000000000

structure DirNode where
  /-- The last path component. Empty for the root. -/
  name : Bytes
  parent : Option Nat
  depth : Nat
  ino : Nat
  /-- The directory's own inode. Also counted in its parent's `direct`. -/
  ownBlocks : Nat
  ownApparent : Nat
  mtime : Int
  /-- The newest modification time in its subtree, in seconds. -/
  newest : Int
  /-- Entries directly inside, subdirectories' own inodes included. -/
  direct : Tally
  /-- Everything below the directory. -/
  sub : Tally
  /-- Tracked subdirectories, sorted by name. -/
  children : List Nat
  /-- Its contents were not all walked. -/
  isSealed : Bool
  /-- Some entries directly inside are excluded from the tree. -/
  pruned : Bool
  alive : Bool
  deriving DecidableEq, Repr, Inhabited

namespace DirNode

def totalBlocks (n : DirNode) : Nat := saturatingAdd n.ownBlocks n.sub.blocks
def totalApparent (n : DirNode) : Nat := saturatingAdd n.ownApparent n.sub.apparent

end DirNode

/-- The directory a multiply linked file is counted in, and the other tracked directories
holding a link to it. -/
structure LinkOwner where
  node : Nat
  blocks : Nat
  apparent : Nat
  others : List Nat
  deriving DecidableEq, Repr, Inhabited

/-- The owner's directories renumbered from `k`. -/
def LinkOwner.offset (k : Nat) (owner : LinkOwner) : LinkOwner :=
  { owner with node := owner.node + k, others := owner.others.map (· + k) }

structure DirTree where
  displayRoot : Bytes
  scanRoot : Bytes
  rootDev : Nat
  nodes : List DirNode
  links : Table Inode LinkOwner
  /-- `(node, file handle)` per tracked directory, when the walk recorded them. -/
  handles : List (Nat × Handle)
  /-- `(plainKey, node)` for every singly linked file, when the walk recorded them. -/
  plain : List (Nat × Nat)
  /-- Multiply linked files counted in an untracked directory. -/
  untrackedLinks : List Inode
  /-- Not a field of the source: whether some `Tally::apply` on this tree clamped at zero. -/
  clamped : Bool := false
  deriving DecidableEq, Inhabited

/-- A singly linked file's key: its inode folded to 32 bits. -/
def plainKey (dev ino : Nat) : Nat :=
  ((ino % 2 ^ 32 ^^^ ino / 2 ^ 32 % 2 ^ 32) + dev % 2 ^ 32 * 0x9E3779B9 % 2 ^ 32) % 2 ^ 32

/-- `apply` would clamp some component at zero. -/
def Tally.clamps (t : Tally) (d : Delta) : Bool :=
  t.files + d.files < 0 || t.dirs + d.dirs < 0 || t.symlinks + d.symlinks < 0 || t.blocks + d.blocks < 0 ||
    t.apparent + d.apparent < 0

namespace DirTree

/-! ## Nodes -/

/-- `self.nodes[i]` (the source panics past the end). -/
def node (t : DirTree) (i : Nat) : DirNode := t.nodes.getD i default

def parentOf (t : DirTree) (i : Nat) : Option Nat := (t.node i).parent

def modifyNode (t : DirTree) (i : Nat) (f : DirNode → DirNode) : DirTree := { t with nodes := t.nodes.modify i f }

/-- `self.nodes[i].direct.apply(&delta)`. -/
def applyDirect (t : DirTree) (i : Nat) (delta : Delta) : DirTree :=
  { t.modifyNode i fun n => { n with direct := n.direct.apply delta } with
    clamped := t.clamped || (t.node i).direct.clamps delta }

/-- `self.nodes[i].sub.apply(&delta)`. -/
def applySub (t : DirTree) (i : Nat) (delta : Delta) : DirTree :=
  { t.modifyNode i fun n => { n with sub := n.sub.apply delta } with
    clamped := t.clamped || (t.node i).sub.clamps delta }

/-! ## Paths -/

/-- The names from `at_` up to below the root, for at most `fuel` nodes. -/
def componentsUp (t : DirTree) : Nat → Nat → List Bytes
  | 0, _ => []
  | fuel + 1, at_ =>
    if at_ = 0 then []
    else (t.node at_).name :: match (t.node at_).parent with
      | none => []
      | some p => componentsUp t fuel p

/-- Path components from the root, root excluded. A parent's number is smaller, so at most
`index` nodes are passed. -/
def components (t : DirTree) (index : Nat) : List Bytes := (t.componentsUp (index + 1) index).reverse

def join (base : Bytes) (parts : List Bytes) : Bytes := parts.foldl pushComponent base

def displayPathBytes (t : DirTree) (index : Nat) : Bytes := join t.displayRoot (t.components index)

def scanPath (t : DirTree) (index : Nat) : Bytes := join t.scanRoot (t.components index)

def childNamed (t : DirTree) (index : Nat) (name : Bytes) : Option Nat :=
  let children := (t.node index).children
  match binarySearchBy children fun child => compare (t.node child).name name with
  | .ok at_ => children[at_]?
  | .err _ => none

/-! ## Totals and times -/

/-- The loop of `propagate`: `sub` of `at_` and of every ancestor, for at most `fuel` nodes. -/
def propagateUp (delta : Delta) : Nat → Nat → DirTree → DirTree
  | 0, _, t => t
  | fuel + 1, at_, t =>
    match (t.node at_).parent with
    | none => t.applySub at_ delta
    | some p => propagateUp delta fuel p (t.applySub at_ delta)

/-- Adds `delta` to the `sub` of `index` and of every ancestor. -/
def propagate (t : DirTree) (index : Nat) (delta : Delta) : DirTree :=
  if delta.isZero then t else propagateUp delta (index + 1) index t

/-- The loop of `touch`, for at most `fuel` nodes. -/
def touchUp (at_ : Int) : Nat → Nat → DirTree → DirTree
  | 0, _, t => t
  | fuel + 1, index, t =>
    if (t.node index).newest = noTime ∨ at_ ≤ (t.node index).newest then t
    else
      let t' := t.modifyNode index fun n => { n with newest := at_ }
      match (t.node index).parent with
      | none => t'
      | some p => touchUp at_ fuel p t'

/-- Raises the newest time of `index` and of every ancestor to at least `at_`. Stops at a node
already that new, and at one without a time. -/
def touch (t : DirTree) (index : Nat) (at_ : Int) : DirTree := touchUp at_ (index + 1) index t

/-! ## Structure -/

/-- Inserts `child` into `parent`'s children, keeping them sorted. -/
def attach (t : DirTree) (parent child : Nat) : DirTree :=
  let name := (t.node child).name
  let position := match binarySearchBy (t.node parent).children fun other => compare (t.node other).name name with
    | .ok at_ => at_
    | .err at_ => at_
  t.modifyNode parent fun n => { n with children := n.children.insertIdx position child }

/-- The loop of `detach`: marks what the stack holds, and everything below, dead. The top of the
stack is the head of the list. -/
def markDead : Nat → List Nat → List DirNode → List DirNode
  | 0, _, nodes => nodes
  | _, [], nodes => nodes
  | fuel + 1, at_ :: stack, nodes =>
    markDead fuel ((nodes.getD at_ default).children.reverse ++ stack)
      (nodes.modify at_ fun n => { n with alive := false })

/-- `owner.others.retain(alive)`. -/
def pruneOthers (t : DirTree) (owner : LinkOwner) : LinkOwner :=
  { owner with others := owner.others.filter fun other => (t.node other).alive }

/-- Unlinks `child` from its parent and marks its whole subtree dead. Returns the links that were
counted in the subtree, with `others` cut to directories still alive. -/
def detach (t : DirTree) (child : Nat) : DirTree × List (Inode × LinkOwner) :=
  let t₁ := match (t.node child).parent with
    | none => t
    | some p => t.modifyNode p fun n => { n with children := n.children.filter (· ≠ child) }
  let t₂ := { t₁ with nodes := markDead t₁.nodes.length [child] t₁.nodes }
  ({ t₂ with
      links := t₂.links.retain fun _ owner =>
        if (t₂.node owner.node).alive then some (t₂.pruneOthers owner) else none },
    t₂.links.entries.filterMap fun e =>
      if (t₂.node e.2.node).alive then none else some (e.1, t₂.pruneOthers e.2))

/-- A grafted node's own fields, renumbered from `offset` and moved `baseDepth` down. -/
def graftNode (under offset baseDepth : Nat) (n : DirNode) : DirNode :=
  { n with
    parent := match n.parent with
      | none => some under
      | some p => some (p + offset)
    depth := n.depth + baseDepth
    children := n.children.map (· + offset) }

/-- Appends `other` (a tree of the directory `under`'s new subdirectory) as a child of `under`.
Returns the new node of `other`'s root too. -/
def graft (t : DirTree) (under : Nat) (other : DirTree) : DirTree × Nat :=
  let offset := t.nodes.length
  let baseDepth := (t.node under).depth + 1
  let newest := (other.node 0).newest
  let t₁ := { t with nodes := t.nodes ++ other.nodes.map (graftNode under offset baseDepth) }
  let t₂ := (t₁.attach under offset).touch under newest
  ({ t₂ with
      links := other.links.entries.foldl (fun links e => links.putNew e.1 (e.2.offset offset)) t₂.links
      handles := t₂.handles ++ other.handles.map fun e => (e.1 + offset, e.2)
      plain := t₂.plain ++ other.plain.map fun e => (e.1, e.2 + offset)
      clamped := t₂.clamped || other.clamped }, offset)

end DirTree

end StorageHarvester
