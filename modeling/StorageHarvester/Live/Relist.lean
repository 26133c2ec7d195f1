/-
`relist` (`src/live.rs`): one directory is read again, and what changed is applied to it and its
ancestors. Multiply linked files are settled first, then the subdirectories that came or went, then
the directory's own totals, and last what changed at the other directories holding its links.
-/
import StorageHarvester.Live.State

namespace StorageHarvester

/-- What the world answers one re-read. -/
structure Answers where
  /-- Whether changes are reported by file handle (the source is fanotify). -/
  byHandle : Bool
  /-- Opening and reading the directory. -/
  opened : Listing.Opened
  dirHandle : Bytes → Option Handle
  /-- The tree of a scan. -/
  walk : Target → Option DirTree

/-- `x as i64`. -/
def asI64 (x : Nat) : Int := wrapI64 x

/-- The difference of two `u64`, each taken as an `i64`. -/
def subI64 (new old : Nat) : Int := wrapI64 (asI64 new - asI64 old)

/-! ## Multiply linked files -/

/-- What settling one directory's multiply linked files has found. -/
structure Settling where
  links : Table Inode LinkOwner
  direct : Tally
  /-- Size changes made through the directory's links to files counted elsewhere. -/
  writes : List (Nat × Delta) := []
  /-- Every multiply linked inode seen. -/
  here : List Inode := []
  /-- Multiply linked inodes the tree did not know, now counted here. -/
  adopted : List Inode := []

/-- One entry listed in `node`, counted once, where it already counts. -/
def Settling.settle (tree : DirTree) (node : Nat) (s : Settling) (link : ListedLink) : Settling :=
  if s.here.contains link.inode then s
  else
    let s := { s with here := s.here ++ [link.inode] }
    match s.links.get link.inode with
    | some owner =>
      if owner.node = node then
        { s with
          links := s.links.put link.inode { owner with blocks := link.blocks, apparent := link.apparent }
          direct := s.direct.addSize link.blocks link.apparent }
      else if (tree.node owner.node).alive then
        let owner := if owner.others.contains node then owner else { owner with others := owner.others ++ [node] }
        let change := Delta.size (subI64 link.blocks owner.blocks) (subI64 link.apparent owner.apparent)
        if change.isZero then { s with links := s.links.put link.inode owner }
        else
          { s with
            links := s.links.put link.inode { owner with blocks := link.blocks, apparent := link.apparent }
            writes := s.writes ++ [(owner.node, change)] }
      else
        let others := owner.others.filter fun other => other ≠ node && (tree.node other).alive
        { s with
          links := s.links.put link.inode { node := node, blocks := link.blocks, apparent := link.apparent, others := others }
          direct := s.direct.addSize link.blocks link.apparent }
    | none =>
      { s with
        links := s.links.put link.inode { node := node, blocks := link.blocks, apparent := link.apparent, others := [] }
        direct := s.direct.addSize link.blocks link.apparent
        adopted := s.adopted ++ [link.inode] }

/-- The listed entries, settled one after the other. -/
def settleListed (tree : DirTree) (node : Nat) (listed : List ListedLink) (direct : Tally) : Settling :=
  listed.foldl (Settling.settle tree node) { links := tree.links, direct := direct }

/-- Links the directory counted but no longer lists. -/
def Settling.handed (s : Settling) (node : Nat) : List (Inode × LinkOwner) :=
  s.links.entries.filter fun e => e.2.node = node && !s.here.contains e.1

/-- The links left when those are handed on; the directory holds none it does not list. -/
def Settling.kept (s : Settling) (node : Nat) : Table Inode LinkOwner :=
  s.links.retain fun inode owner =>
    if s.here.contains inode then some owner
    else if owner.node = node then none
    else some { owner with others := owner.others.filter (· ≠ node) }

/-- What settling one directory's multiply linked files found, with the table it leaves. -/
structure SettledLinks where
  links : Table Inode LinkOwner
  direct : Tally
  /-- Links the directory counted but no longer lists, to hand on. -/
  handed : List (Inode × LinkOwner)
  writes : List (Nat × Delta)
  here : List Inode
  adopted : List Inode

/-- `settle_links`. -/
def settleLinks (tree : DirTree) (node : Nat) (listed : List ListedLink) (direct : Tally) : SettledLinks :=
  let s := settleListed tree node listed direct
  { links := s.kept node
    direct := s.direct
    handed := s.handed node
    writes := s.writes
    here := s.here
    adopted := s.adopted }

/-! ## Subdirectories -/

/-- The target a new subdirectory is walked as. -/
def walkTarget (target : Target) (answers : Answers) (tree : DirTree) (parent : Nat) (name : Bytes) : Target :=
  { target with
    displayPath := pushComponent (tree.displayPathBytes parent) name
    scanPath := pushComponent (tree.scanPath parent) name
    reportMode := .tree
    reportDepth := 0
    scanThreads := 1
    maxDepth := target.maxDepth.map fun cap => cap - ((tree.node parent).depth + 1)
    treeMaxDirectories := target.treeMaxDirectories - tree.nodes.length
    collectHandles := answers.byHandle }

/-- A link of a walked tree that the main tree already counts stays counted there. -/
def untake (sub : DirTree) (taken : Inode × LinkOwner) : DirTree :=
  let delta := Delta.size (wrapI64 (-asI64 taken.2.blocks)) (wrapI64 (-asI64 taken.2.apparent))
  ({ sub with links := sub.links.del taken.1 }.applyDirect taken.2.node delta).propagate taken.2.node delta

/-- The links of `sub` that `tree` already counts. -/
def takenLinks (tree sub : DirTree) : List (Inode × LinkOwner) :=
  sub.links.entries.filter fun e => TreeState.ownerAlive tree e.1

/-- Walks a directory that appeared since the scan, as a tree to graft under `parent`, with the
links in it that `tree` already counts elsewhere and the directories in the new tree holding them. -/
def walkNew (target : Target) (answers : Answers) (tree : DirTree) (parent : Nat) (name : Bytes) :
    Option (DirTree × List (Inode × List Nat)) :=
  match answers.walk (walkTarget target answers tree parent name) with
  | none => none
  | some sub =>
    let sub := sub.modifyNode 0 fun n => { n with name := name }
    let taken := takenLinks tree sub
    some (taken.foldl untake sub, taken.map fun e => (e.1, e.2.others ++ [e.2.node]))

/-- Whether `subdir`, listed under the name of `child`, is another directory: a different inode, or
(where inode numbers are reused) a different file handle. -/
def replaced (answers : Answers) (st : TreeState) (child : Nat) (subdir : Subdir) : Bool :=
  if (st.tree.node child).ino ≠ subdir.ino then true
  else if !answers.byHandle || (st.tree.node child).mtime = subdir.mtime then false
  else match answers.dirHandle (st.tree.scanPath child) with
    | some handle => st.handles.get handle ≠ some child
    | none => false

/-- What merging the listed subdirectories into the tree has done. -/
structure Merge where
  st : TreeState
  /-- What the node's subtree gained and lost. -/
  moved : Delta := {}
  handed : List (Inode × LinkOwner)
  adopted : List Inode
  /-- Directories to re-read next. -/
  requeue : List Nat := []
  /-- A scan is asked for. -/
  rescan : Bool := false

/-- A child the listing confirms. -/
def Merge.keep (m : Merge) (child : Nat) (subdir : Subdir) : Merge :=
  let changed := (m.st.tree.node child).mtime ≠ subdir.mtime
  { m with
    st := { m.st with tree := m.st.tree.modifyNode child fun n =>
      { n with ownBlocks := subdir.blocks, ownApparent := subdir.apparent } }
    requeue := if changed then m.requeue ++ [child] else m.requeue }

/-- A child the listing no longer has. -/
def Merge.drop (m : Merge) (child : Nat) : Merge :=
  let (tree, handed) := m.st.tree.detach child
  { m with
    st := { m.st with tree := tree }
    moved := m.moved.plus (Delta.ofTally (m.st.tree.node child).sub).negate
    handed := m.handed ++ handed }

/-- Another holder of a link noted. -/
def shareLink (from_ : Nat) (tree : DirTree) (shared : Inode × List Nat) : DirTree :=
  match tree.links.get shared.1 with
  | some owner =>
    { tree with links := tree.links.put shared.1 { owner with others := owner.others ++ shared.2.map (· + from_) } }
  | none => tree

/-- A listed subdirectory the tree does not have. -/
def Merge.add (target : Target) (answers : Answers) (node : Nat) (m : Merge) (subdir : Subdir) : Merge :=
  match walkNew target answers m.st.tree node subdir.name with
  | none => m
  | some (sub, shared) =>
    let moved := m.moved.plus (Delta.ofTally (sub.node 0).sub)
    let start := m.st.tree.nodes.length
    let fits := start + sub.nodes.length ≤ target.treeMaxDirectories
    let inodes := sub.links.entries.map Prod.fst
    let unsettled := (sub.untrackedLinks ++ if fits then [] else inodes).any fun inode =>
      !(m.st.plainHolders inode).isEmpty || m.st.alreadyCounted inode
    let rescan := m.rescan || unsettled
    let st := { m.st with untracked := (m.st.untracked ++ sub.untrackedLinks).dedup }
    if fits then
      let tree := (st.tree.graft node sub).1
      let tree := shared.foldl (shareLink start) tree
      { m with
        st := { st with tree := tree }.indexNew start
        moved := moved
        adopted := m.adopted ++ inodes
        rescan := rescan }
    else
      -- past the cap: counted, but without nodes
      let st := { st with tree := st.tree.modifyNode node fun n => { n with isSealed := true } }
      let st := st.addPlain node (sub.plain.map Prod.fst)
      { m with st := { st with untracked := (st.untracked ++ inodes).dedup }, moved := moved, rescan := rescan }

/-- How the next old child and the next listed subdirectory compare. -/
def childOrder (answers : Answers) (st : TreeState) (child : Nat) (subdir : Subdir) : Ordering :=
  match compare (st.tree.node child).name subdir.name with
  | .eq => if replaced answers st child subdir then .lt else .eq
  | order => order

/-- Old children and listed subdirectories merged by name; each step takes one of either. -/
def mergeChildren (target : Target) (answers : Answers) (node : Nat) : Nat → List Nat → List Subdir → Merge → Merge
  | 0, _, _, m => m
  | _, [], [], m => m
  | fuel + 1, child :: children, [], m => mergeChildren target answers node fuel children [] (m.drop child)
  | fuel + 1, [], subdir :: subdirs, m => mergeChildren target answers node fuel [] subdirs (m.add target answers node subdir)
  | fuel + 1, child :: children, subdir :: subdirs, m =>
    match childOrder answers m.st child subdir with
    | .eq => mergeChildren target answers node fuel children subdirs (m.keep child subdir)
    | .lt => mergeChildren target answers node fuel children (subdir :: subdirs) (m.drop child)
    | .gt => mergeChildren target answers node fuel (child :: children) subdirs (m.add target answers node subdir)

/-! ## Totals -/

/-- What a re-read changed. -/
structure Outcome where
  /-- Directories whose subtree total changed, and by how much. -/
  changes : List (Nat × Delta) := []
  /-- Directories to re-read next: a vanished one's parent, a link's new owner. -/
  requeue : List Nat := []
  /-- A scan is asked for. -/
  rescan : Bool := false

/-- A change of what sits directly in a directory, in it and everywhere above. -/
def DirTree.grow (t : DirTree) (node : Nat) (delta : Delta) : DirTree := (t.applyDirect node delta).propagate node delta

/-- The directory's new `direct`, and what its subtree gained and lost. -/
def applyListing (tree : DirTree) (node : Nat) (direct : Tally) (moved : Delta) : DirTree :=
  (tree.modifyNode node fun n => { n with direct := direct }).propagate node
    ((Delta.between (tree.node node).direct direct).plus moved)

/-- The growth of the directory's own inode. -/
def grownBy (tree : DirTree) (node : Nat) (own : Own) : Delta :=
  Delta.size (subI64 own.blocks (tree.node node).ownBlocks) (subI64 own.apparent (tree.node node).ownApparent)

/-- The directory's own inode grows with its entries; its parent counts it. -/
def applyOwn (tree : DirTree) (node : Nat) (own : Own) : DirTree :=
  let grown := grownBy tree node own
  let tree := tree.modifyNode node fun n => { n with ownBlocks := own.blocks, ownApparent := own.apparent, mtime := own.mtime }
  if grown.isZero then tree
  else match (tree.node node).parent with
    | none => tree
    | some parent => tree.grow parent grown

/-- A link written through here changes the size where it is counted. -/
def applyWrites (tree : DirTree) (writes : List (Nat × Delta)) : DirTree :=
  writes.foldl (fun tree w => tree.grow w.1 w.2) tree

/-- What handing links on has done. -/
structure Handing where
  tree : DirTree
  changes : List (Nat × Delta) := []
  requeue : List Nat := []

/-- A counted link that went: another directory holding one takes the file over. `here` are the
inodes `node` lists. -/
def Handing.hand (node : Nat) (here : List Inode) (h : Handing) (link : Inode × LinkOwner) : Handing :=
  let takeOver : Handing :=
    let others := link.2.others.filter fun other => (h.tree.node other).alive && (other ≠ node || here.contains link.1)
    match if others.contains node then some node else others.head? with
    | none => h
    | some next =>
      let size := Delta.size (asI64 link.2.blocks) (asI64 link.2.apparent)
      let tree := h.tree.grow next size
      { tree := { tree with links := tree.links.put link.1 { link.2 with node := next, others := others.filter (· ≠ next) } }
        changes := h.changes ++ [(next, size)]
        requeue := if next ≠ node then h.requeue ++ [next] else h.requeue }
  match h.tree.links.get link.1 with
  | some counted =>
    if (h.tree.node counted.node).alive then
      -- a graft already counts it: it only gains holders
      let others := link.2.others.foldl (fun others other =>
        if other ≠ counted.node && !others.contains other then others ++ [other] else others) counted.others
      { h with tree := { h.tree with links := h.tree.links.put link.1 { counted with others := others } } }
    else takeOver
  | none => takeOver

/-! ## The re-read -/

/-- `plain_live` may hold this many entries more than the scan's index. -/
def plainLiveHeadroom : Nat := 100000

/-- The directories to re-read because they may count an adopted link as a plain file, and whether a
scan has to settle one. -/
def adopt (st : TreeState) (node : Nat) (adopted : List Inode) (out : Outcome) : Outcome :=
  adopted.foldl (fun out inode =>
    (st.plainHolders inode).foldl (fun out holder =>
      if (st.tree.node holder).alive && !(st.tree.node holder).isSealed && holder ≠ node && !out.requeue.contains holder then
        { out with requeue := out.requeue ++ [holder] }
      else out) { out with rescan := out.rescan || st.countedOutOfReach inode }) out

/-- Gone: its parent's re-read drops it. -/
def Errno.isGone : Errno → Bool
  | .enoent | .enotdir | .eloop => true
  | _ => false

/-- The links and subdirectories of a listing, settled and merged into the tree. -/
def mergeListing (target : Target) (answers : Answers) (st : TreeState) (node : Nat) (listing : Listing) : SettledLinks × Merge :=
  let s := settleLinks st.tree node listing.links listing.direct
  let st := { st with tree := { st.tree with links := s.links } }.setPlain node listing.plain
  let children := (st.tree.node node).children
  (s, mergeChildren target answers node (children.length + listing.subdirs.length) children listing.subdirs
    { st := st, handed := s.handed, adopted := s.adopted })

/-- A listing, applied. -/
def applyAll (target : Target) (answers : Answers) (st : TreeState) (node : Nat) (listing : Listing) : TreeState × Outcome :=
  let (s, m) := mergeListing target answers st node listing
  let out := adopt m.st node m.adopted { requeue := m.requeue, rescan := m.rescan }
  let rescan := out.rescan || decide (m.st.plain.length + plainLiveHeadroom < m.st.plainLive.length)
  let old := (m.st.tree.node node).direct
  let grown := grownBy m.st.tree node listing.own
  let delta := (Delta.between old s.direct).plus m.moved
  let delta := if grown.isZero then delta else delta.plus grown
  let tree := applyListing m.st.tree node s.direct m.moved
  let tree := (applyOwn tree node listing.own).touch node (toSeconds listing.newest)
  let tree := applyWrites tree s.writes
  let h := m.handed.foldl (Handing.hand node s.here) { tree := tree, requeue := out.requeue }
  ({ m.st with tree := h.tree },
    { changes := (node, delta) :: s.writes ++ h.changes, requeue := h.requeue, rescan := rescan })

/-- What a re-read of `node` finds, by the answers it is given. -/
def readListing (target : Target) (answers : Answers) (st : TreeState) (node : Nat) : Except Errno Listing :=
  Listing.readDirect target (st.tree.scanPath node) (st.tree.displayPathBytes node) st.tree.rootDev answers.byHandle
    answers.opened

/-- Re-reads one directory and applies what changed to it and its ancestors. -/
def relist (target : Target) (answers : Answers) (st : TreeState) (node : Nat) : TreeState × Outcome :=
  if !(st.tree.node node).alive || (st.tree.node node).isSealed then (st, {})
  else match readListing target answers st node with
    | .error error =>
      if error.isGone then
        match (st.tree.node node).parent with
        | some parent => (st, { requeue := [parent] })
        | none => (st, {})
      else (st, {})
    | .ok listing => applyAll target answers st node listing

end StorageHarvester
