/-
What a re-read does to the times of a tree: it grafts walked trees, which raises what is above them,
and touches the directory it read; all else leaves times, and who is under whom, as they were.
-/
import StorageHarvester.Live.Relist
import StorageHarvester.Tree.Times

namespace StorageHarvester

/-- Every walk comes back with a tree whose times form a heap. -/
def Answers.AgedWalks (answers : Answers) : Prop := ∀ target tree, answers.walk target = some tree → Aged tree

/-- A tree that came after `t`, with a heap of times still. -/
structure Aging (t u : DirTree) : Prop where
  aged : Aged u
  later : Later t u

section Aging

variable {t u v : DirTree}

theorem Aging.refl (h : Aged t) : Aging t t := ⟨h, .refl t⟩

theorem Aging.same (h : Aging t u) (hs : SameTimes u v) : Aging t v := ⟨h.aged.same hs, h.later.trans hs.later⟩

theorem Aging.touch (h : Aging t u) (i : Nat) (a : Int) : Aging t (u.touch i a) :=
  ⟨h.aged.touch i a, h.later.trans (later_touch u i a)⟩

theorem Aging.graft (h : Aging t u) {other : DirTree} {under : Nat} (ho : Aged other) (hu : under < t.nodes.length) :
    Aging t (u.graft under other).1 :=
  ⟨h.aged.graft ho (Nat.lt_of_lt_of_le hu h.later.length), h.later.trans (later_graft u under other)⟩

/-- No time hangs on the links. -/
theorem SameTimes.relinked (h : SameTimes t u) (links : Table Inode LinkOwner) : SameTimes t { u with links := links } :=
  h.trans (.of_nodes rfl)

theorem sameTimes_grow (t : DirTree) (i : Nat) (d : Delta) : SameTimes t (t.grow i d) :=
  (DirTree.sameTimes_applyDirect t i d).trans (DirTree.sameTimes_propagate _ i d)

end Aging

/-! ## Walked trees -/

theorem sameTimes_untakes : ∀ (taken : List (Inode × LinkOwner)) (sub : DirTree), SameTimes sub (taken.foldl untake sub)
  | [], sub => .refl sub
  | e :: taken, sub => by
    rw [List.foldl_cons]
    have h1 : SameTimes sub { sub with links := sub.links.del e.1 } := .of_nodes rfl
    exact (h1.trans (sameTimes_grow _ e.2.node _)).trans (sameTimes_untakes taken _)

theorem aged_walkNew {target : Target} {answers : Answers} {tree sub : DirTree} {parent : Nat} {name : Bytes}
    {shared : List (Inode × List Nat)} (hw : answers.AgedWalks)
    (h : walkNew target answers tree parent name = some (sub, shared)) : Aged sub := by
  unfold walkNew at h
  cases hf : answers.walk (walkTarget target answers tree parent name) with
  | none =>
    rw [hf] at h
    cases h
  | some found =>
    rw [hf] at h
    cases h
    have hroot : SameTimes found (found.modifyNode 0 fun n => { n with name := name }) :=
      .modifyNode found 0 (fun _ => rfl) (fun _ => rfl) fun _ => List.Subset.refl _
    exact (hw _ _ hf).same (hroot.trans (sameTimes_untakes _ _))

/-! ## The merge -/

/-- What each step of the merge keeps, the merge keeps. -/
theorem mergeChildren_keeps {target : Target} {answers : Answers} {node : Nat} (P : Merge → Prop)
    (hkeep : ∀ m child subdir, P m → P (m.keep child subdir)) (hdrop : ∀ m child, P m → P (m.drop child))
    (hadd : ∀ m subdir, P m → P (m.add target answers node subdir)) :
    ∀ (fuel : Nat) (children : List Nat) (subdirs : List Subdir) (m : Merge), P m →
      P (mergeChildren target answers node fuel children subdirs m)
  | 0, _, _, _, h => h
  | _ + 1, [], [], _, h => h
  | fuel + 1, child :: children, [], m, h => mergeChildren_keeps P hkeep hdrop hadd fuel children [] _ (hdrop m child h)
  | fuel + 1, [], subdir :: subdirs, m, h => mergeChildren_keeps P hkeep hdrop hadd fuel [] subdirs _ (hadd m subdir h)
  | fuel + 1, child :: children, subdir :: subdirs, m, h => by
    rw [mergeChildren]
    split
    · exact mergeChildren_keeps P hkeep hdrop hadd fuel children subdirs _ (hkeep m child subdir h)
    · exact mergeChildren_keeps P hkeep hdrop hadd fuel children (subdir :: subdirs) _ (hdrop m child h)
    · exact mergeChildren_keeps P hkeep hdrop hadd fuel (child :: children) subdirs _ (hadd m subdir h)

section Relist

variable {target : Target} {answers : Answers} {st : TreeState} {t : DirTree} {node : Nat}

theorem sameTimes_shareLinks (start : Nat) : ∀ (shared : List (Inode × List Nat)) (t : DirTree),
    SameTimes t (shared.foldl (shareLink start) t)
  | [], t => .refl t
  | e :: shared, t => by
    rw [List.foldl_cons]
    have h1 : SameTimes t (shareLink start t e) := by
      unfold shareLink
      split <;> exact .of_nodes rfl
    exact h1.trans (sameTimes_shareLinks start shared _)

theorem aging_add (hw : answers.AgedWalks) (hn : node < t.nodes.length) (m : Merge) (subdir : Subdir)
    (h : Aging t m.st.tree) : Aging t (m.add target answers node subdir).st.tree := by
  unfold Merge.add
  cases hf : walkNew target answers m.st.tree node subdir.name with
  | none => exact h
  | some p =>
    dsimp only
    split
    · have hg := h.graft (aged_walkNew hw hf) hn
      exact (hg.same (sameTimes_shareLinks m.st.tree.nodes.length p.2 _)).same (.of_nodes rfl)
    · exact h.same (.modifyNode m.st.tree node (fun _ => rfl) (fun _ => rfl) fun _ => List.Subset.refl _)

theorem aging_merge (hw : answers.AgedWalks) (hn : node < t.nodes.length) (fuel : Nat) (children : List Nat)
    (subdirs : List Subdir) (m : Merge) (h : Aging t m.st.tree) :
    Aging t (mergeChildren target answers node fuel children subdirs m).st.tree := by
  refine mergeChildren_keeps (fun m => Aging t m.st.tree) ?_ ?_ (aging_add hw hn) fuel children subdirs m h
  · intro m child subdir h
    exact h.same (.modifyNode m.st.tree child (fun _ => rfl) (fun _ => rfl) fun _ => List.Subset.refl _)
  · intro m child h
    exact h.same (DirTree.sameTimes_detach m.st.tree child)

/-! ## The re-read -/

theorem sameTimes_applyListing (t : DirTree) (node : Nat) (direct : Tally) (moved : Delta) :
    SameTimes t (applyListing t node direct moved) :=
  (SameTimes.modifyNode t node (f := fun n => { n with direct := direct }) (fun _ => rfl) (fun _ => rfl)
    fun _ => List.Subset.refl _).trans (DirTree.sameTimes_propagate _ node _)

theorem sameTimes_applyOwn (t : DirTree) (node : Nat) (own : Own) : SameTimes t (applyOwn t node own) := by
  have h1 := SameTimes.modifyNode t node (f := fun n =>
    { n with ownBlocks := own.blocks, ownApparent := own.apparent, mtime := own.mtime }) (fun _ => rfl) (fun _ => rfl)
    fun _ => List.Subset.refl _
  unfold applyOwn
  dsimp only
  split
  · exact h1
  · split
    · exact h1
    · exact h1.trans (sameTimes_grow _ _ _)

theorem sameTimes_applyWrites (writes : List (Nat × Delta)) (t : DirTree) : SameTimes t (applyWrites t writes) := by
  unfold applyWrites
  induction writes generalizing t with
  | nil => exact .refl t
  | cons e writes ih =>
    rw [List.foldl_cons]
    exact (sameTimes_grow t e.1 e.2).trans (ih _)

theorem sameTimes_hand (node : Nat) (here : List Inode) (h : Handing) (link : Inode × LinkOwner) :
    SameTimes h.tree (h.hand node here link).tree := by
  unfold Handing.hand
  dsimp only
  generalize Delta.size (asI64 link.2.blocks) (asI64 link.2.apparent) = size
  split
  · split
    · exact (SameTimes.refl h.tree).relinked _
    · split
      · exact .refl h.tree
      · exact (sameTimes_grow h.tree _ size).relinked _
  · split
    · exact .refl h.tree
    · exact (sameTimes_grow h.tree _ size).relinked _

theorem sameTimes_hands (node : Nat) (here : List Inode) : ∀ (links : List (Inode × LinkOwner)) (h : Handing),
    SameTimes h.tree (links.foldl (Handing.hand node here) h).tree
  | [], h => .refl h.tree
  | e :: links, h => by
    rw [List.foldl_cons]
    exact (sameTimes_hand node here h e).trans (sameTimes_hands node here links _)

/-- A re-read keeps the heap of times, and lowers no time. -/
theorem aging_relist (hw : answers.AgedWalks) (h : Aged st.tree) : Aging st.tree (relist target answers st node).1.tree := by
  unfold relist
  split
  · exact .refl h
  · rename_i halive
    have hn : node < st.tree.nodes.length := DirTree.lt_of_alive (by simp_all)
    split
    · split
      · split <;> exact .refl h
      · exact .refl h
    · rename_i listing _
      unfold applyAll mergeListing
      dsimp only
      refine Aging.same ?_ (sameTimes_hands node _ _ _)
      refine Aging.same ?_ (sameTimes_applyWrites _ _)
      refine Aging.touch ?_ _ _
      refine Aging.same ?_ (sameTimes_applyOwn _ _ _)
      refine Aging.same ?_ (sameTimes_applyListing _ _ _ _)
      exact aging_merge hw hn _ _ _ _ ((Aging.refl h).same (.of_nodes rfl))

end Relist

end StorageHarvester
