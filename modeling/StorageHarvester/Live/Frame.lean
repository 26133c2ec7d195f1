/-
What a re-read leaves alone once its subdirectories are merged: figures change along some directories'
ancestors, and links change hands. A relation between trees that neither can break holds between
the merged tree and the one the re-read ends with.
-/
import StorageHarvester.Live.Relist

namespace StorageHarvester

/-- All of a node but its sizes, counts and times. -/
def DirNode.lasting (n : DirNode) : DirNode :=
  { n with ownBlocks := 0, ownApparent := 0, mtime := 0, newest := 0, direct := {}, sub := {} }

/-- A relation between trees that new figures and new links keep. -/
structure Frame (R : DirTree → DirTree → Prop) : Prop where
  refl : ∀ t, R t t
  trans : ∀ {t u v}, R t u → R u v → R t v
  figures : ∀ (t : DirTree) (i : Nat) (f : DirNode → DirNode), (∀ n, (f n).lasting = n.lasting) → R t (t.modifyNode i f)
  relinked : ∀ (t : DirTree) (links : Table Inode LinkOwner), R t { t with links := links }
  clamped : ∀ (t : DirTree) (clamped : Bool), R t { t with clamped := clamped }

namespace Frame

variable {R : DirTree → DirTree → Prop}

theorem propagateUp (h : Frame R) (d : Delta) : ∀ (fuel i : Nat) (t : DirTree), R t (DirTree.propagateUp d fuel i t)
  | 0, _, t => h.refl t
  | fuel + 1, i, t => by
    have hsub : R t (t.applySub i d) :=
      h.trans (h.figures t i (fun n => { n with sub := n.sub.apply d }) fun _ => rfl) (h.clamped _ (t.clamped || (t.node i).sub.clamps d))
    rw [DirTree.propagateUp]
    split
    · exact hsub
    · exact h.trans hsub (h.propagateUp d fuel _ _)

theorem propagate (h : Frame R) (t : DirTree) (i : Nat) (d : Delta) : R t (t.propagate i d) := by
  unfold DirTree.propagate
  split
  · exact h.refl t
  · exact h.propagateUp d (i + 1) i t

theorem grow (h : Frame R) (t : DirTree) (i : Nat) (d : Delta) : R t (t.grow i d) := by
  have hdirect : R t (t.applyDirect i d) :=
    h.trans (h.figures t i (fun n => { n with direct := n.direct.apply d }) fun _ => rfl)
      (h.clamped _ (t.clamped || (t.node i).direct.clamps d))
  exact h.trans hdirect (h.propagate _ i d)

theorem touchUp (h : Frame R) (a : Int) : ∀ (fuel i : Nat) (t : DirTree), R t (DirTree.touchUp a fuel i t)
  | 0, _, t => h.refl t
  | fuel + 1, i, t => by
    rw [DirTree.touchUp]
    split
    · exact h.refl t
    · have hraised := h.figures t i (fun n => { n with newest := a }) fun _ => rfl
      dsimp only
      split
      · exact hraised
      · exact h.trans hraised (h.touchUp a fuel _ _)

theorem touch (h : Frame R) (t : DirTree) (i : Nat) (a : Int) : R t (t.touch i a) := h.touchUp a (i + 1) i t

theorem applyListing (h : Frame R) (t : DirTree) (node : Nat) (direct : Tally) (moved : Delta) :
    R t (applyListing t node direct moved) :=
  h.trans (h.figures t node (fun n => { n with direct := direct }) fun _ => rfl) (h.propagate _ node _)

theorem applyOwn (h : Frame R) (t : DirTree) (node : Nat) (own : Own) : R t (applyOwn t node own) := by
  have hown := h.figures t node (fun n =>
    { n with ownBlocks := own.blocks, ownApparent := own.apparent, mtime := own.mtime }) fun _ => rfl
  unfold StorageHarvester.applyOwn
  dsimp only
  split
  · exact hown
  · split
    · exact hown
    · exact h.trans hown (h.grow _ _ _)

theorem applyWrites (h : Frame R) : ∀ (writes : List (Nat × Delta)) (t : DirTree), R t (applyWrites t writes)
  | [], t => h.refl t
  | w :: writes, t => h.trans (h.grow t w.1 w.2) (h.applyWrites writes _)

theorem hand (h : Frame R) (node : Nat) (here : List Inode) (handing : Handing) (link : Inode × LinkOwner) :
    R handing.tree (handing.hand node here link).tree := by
  unfold Handing.hand
  dsimp only
  generalize Delta.size (asI64 link.2.blocks) (asI64 link.2.apparent) = size
  split
  · split
    · exact h.relinked _ _
    · split
      · exact h.refl _
      · exact h.trans (h.grow handing.tree _ size) (h.relinked _ _)
  · split
    · exact h.refl _
    · exact h.trans (h.grow handing.tree _ size) (h.relinked _ _)

theorem hands (h : Frame R) (node : Nat) (here : List Inode) : ∀ (links : List (Inode × LinkOwner)) (handing : Handing),
    R handing.tree (links.foldl (Handing.hand node here) handing).tree
  | [], handing => h.refl handing.tree
  | link :: links, handing => h.trans (h.hand node here handing link) (h.hands node here links _)

theorem untakes (h : Frame R) : ∀ (taken : List (Inode × LinkOwner)) (sub : DirTree), R sub (taken.foldl untake sub)
  | [], sub => h.refl sub
  | e :: taken, sub => by
    have hone : R sub (untake sub e) := by
      unfold untake
      generalize Delta.size (wrapI64 (-asI64 e.2.blocks)) (wrapI64 (-asI64 e.2.apparent)) = size
      exact h.trans (h.relinked sub (sub.links.del e.1)) (h.grow _ e.2.node size)
    rw [List.foldl_cons]
    exact h.trans hone (h.untakes taken _)

/-- What a merged tree is related to, it is related to when the re-read is over. -/
theorem applyAll (h : Frame R) (target : Target) (answers : Answers) (st : TreeState) (node : Nat) (listing : Listing) :
    R (mergeListing target answers st node listing).2.st.tree (applyAll target answers st node listing).1.tree := by
  unfold StorageHarvester.applyAll
  refine h.trans ?_ (h.hands _ _ _ _)
  refine h.trans ?_ (h.applyWrites _ _)
  refine h.trans ?_ (h.touch _ _ _)
  refine h.trans ?_ (h.applyOwn _ _ _)
  exact h.applyListing _ _ _ _

end Frame

end StorageHarvester
