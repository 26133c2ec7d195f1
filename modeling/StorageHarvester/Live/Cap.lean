/-
How many nodes a tree has over re-reads. A subdirectory is grafted only where it fits the cap, dead
directories keep their slots, and nothing else makes a node.
-/
import StorageHarvester.Live.Counted
import StorageHarvester.Live.Frame

namespace StorageHarvester

theorem frame_length : Frame fun t u => u.nodes.length = t.nodes.length where
  refl _ := rfl
  trans h h' := h'.trans h
  figures t i f _ := DirTree.length_modifyNode t i f
  relinked _ _ := rfl
  clamped _ _ := rfl

section Relist

variable {target : Target} {answers : Answers} {node : Nat}

theorem length_add (m : Merge) (subdir : Subdir) :
    (m.add target answers node subdir).st.tree.nodes.length ≤ max m.st.tree.nodes.length target.treeMaxDirectories := by
  unfold Merge.add
  cases hw : walkNew target answers m.st.tree node subdir.name with
  | none => exact le_max_left _ _
  | some p =>
    obtain ⟨sub, shared⟩ := p
    dsimp only
    split
    · rename_i hfits
      have hlen : (shared.foldl (shareLink m.st.tree.nodes.length) (m.st.tree.graft node sub).1).nodes.length =
          m.st.tree.nodes.length + sub.nodes.length := by
        rw [nodes_shareLinks, DirTree.length_graft]
      apply le_max_of_le_right
      exact hlen.trans_le hfits
    · apply le_max_of_le_left
      exact (DirTree.length_modifyNode _ _ _).le

theorem length_mergeChildren (fuel : Nat) (children : List Nat) (subdirs : List Subdir) (m : Merge) :
    (mergeChildren target answers node fuel children subdirs m).st.tree.nodes.length ≤
      max m.st.tree.nodes.length target.treeMaxDirectories := by
  have hdrop : ∀ (m : Merge) (child : Nat), (m.drop child).st.tree.nodes.length = m.st.tree.nodes.length := fun m child =>
    DirTree.length_detach _ _
  have hkeep : ∀ (m : Merge) (child : Nat) (subdir : Subdir), (m.keep child subdir).st.tree.nodes.length = m.st.tree.nodes.length :=
    fun m child subdir => DirTree.length_modifyNode _ _ _
  have hadd : ∀ (m m' : Merge) (subdir : Subdir),
      m'.st.tree.nodes.length ≤ max (m.add target answers node subdir).st.tree.nodes.length target.treeMaxDirectories →
        m'.st.tree.nodes.length ≤ max m.st.tree.nodes.length target.treeMaxDirectories := fun m m' subdir h =>
    h.trans (max_le (length_add m subdir) (le_max_right _ _))
  fun_induction mergeChildren target answers node fuel children subdirs m with
  | case1 => exact le_max_left _ _
  | case2 => exact le_max_left _ _
  | case3 fuel child children m ih => rwa [hdrop] at ih
  | case4 fuel subdir subdirs m ih => exact hadd m _ subdir ih
  | case5 fuel child children subdir subdirs m ho ih => rwa [hkeep] at ih
  | case6 fuel child children subdir subdirs m ho ih => rwa [hdrop] at ih
  | case7 fuel child children subdir subdirs m ho ih => exact hadd m _ subdir ih

/-- A re-read leaves no more nodes than there were, or than the cap. -/
theorem length_relist (target : Target) (answers : Answers) (st : TreeState) (node : Nat) :
    (relist target answers st node).1.tree.nodes.length ≤ max st.tree.nodes.length target.treeMaxDirectories := by
  rcases relist_cases target answers st node with ⟨listing, -, he⟩ | ⟨-, he⟩
  · rw [he, frame_length.applyAll target answers st node listing]
    exact length_mergeChildren _ _ _ (startMerge st node listing)
  · rw [he]
    exact le_max_left _ _

end Relist

/-- The states re-reads of one target lead to, whatever the world answers each. -/
inductive Relisted (target : Target) (st : TreeState) : TreeState → Prop
  | refl : Relisted target st st
  | relist {st' : TreeState} (h : Relisted target st st') (answers : Answers) (node : Nat) :
      Relisted target st (relist target answers st' node).1
  | touch {st' : TreeState} (h : Relisted target st st') (dir : Nat) (at_ : Int) :
      Relisted target st { st' with tree := st'.tree.touch dir at_ }

/-- Over any re-reads the nodes stay within the cap, or within what there was. -/
theorem Relisted.length_le {target : Target} {st st' : TreeState} (h : Relisted target st st') :
    st'.tree.nodes.length ≤ max target.treeMaxDirectories st.tree.nodes.length := by
  induction h with
  | refl => exact le_max_right _ _
  | @relist st' h answers node ih =>
    have hone := length_relist target answers st' node
    omega
  | @touch st' h dir at_ ih =>
    have hsame := (DirTree.sameShape_touch st'.tree dir at_).length
    exact hsame.trans_le ih

end StorageHarvester
