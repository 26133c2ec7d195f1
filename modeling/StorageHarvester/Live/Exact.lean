/-
The arithmetic of differences. Within the range of `i64` a difference, its negation and what they
are applied to are exact, and past it a difference stops at the limit. While the totals are below
`2^63` that is never met: in `diff`, in `propagate`, and in a re-read, whose subtree gains and loses
what the merge brings and drops.
-/
import StorageHarvester.Live.Owners
import StorageHarvester.Live.Pruned
import StorageHarvester.Tree.Diff

namespace StorageHarvester

open Forest

/-! ## What a merge moves -/

/-- What a listed subdirectory the tree does not have brings along. -/
def Merge.brings (target : Target) (answers : Answers) (node : Nat) (m : Merge) (subdir : Subdir) : Tally :=
  match walkNew target answers m.st.tree node subdir.name with
  | none => {}
  | some (sub, _) => (sub.node 0).sub

/-- The subtrees a merge drops and the subtrees it brings in, with or without nodes. -/
structure Moves where
  went : List Tally := []
  came : List Tally := []

def mergeMoves (target : Target) (answers : Answers) (node : Nat) : Nat → List Nat → List Subdir → Merge → Moves
  | 0, _, _, _ => {}
  | _, [], [], _ => {}
  | fuel + 1, child :: children, [], m =>
    let moves := mergeMoves target answers node fuel children [] (m.drop child)
    { moves with went := (m.st.tree.node child).sub :: moves.went }
  | fuel + 1, [], subdir :: subdirs, m =>
    let moves := mergeMoves target answers node fuel [] subdirs (m.add target answers node subdir)
    { moves with came := m.brings target answers node subdir :: moves.came }
  | fuel + 1, child :: children, subdir :: subdirs, m =>
    match childOrder answers m.st child subdir with
    | .eq => mergeMoves target answers node fuel children subdirs (m.keep child subdir)
    | .lt =>
      let moves := mergeMoves target answers node fuel children (subdir :: subdirs) (m.drop child)
      { moves with went := (m.st.tree.node child).sub :: moves.went }
    | .gt =>
      let moves := mergeMoves target answers node fuel (child :: children) subdirs (m.add target answers node subdir)
      { moves with came := m.brings target answers node subdir :: moves.came }

/-- The sum of a component over tallies. -/
def tallySum (c : Component) (l : List Tally) : Int := (l.map fun t => (t.get c : Int)).sum

theorem tallySum_nonneg (c : Component) (l : List Tally) : 0 ≤ tallySum c l :=
  List.sum_nonneg fun x hx => by
    obtain ⟨t, -, rfl⟩ := List.mem_map.1 hx
    exact Int.natCast_nonneg _

@[simp] theorem tallySum_cons (c : Component) (t : Tally) (l : List Tally) : tallySum c (t :: l) = t.get c + tallySum c l := by
  simp [tallySum]

/-- A tree that holds the same figures in the directories there were. -/
structure KeepsTallies (t u : DirTree) : Prop where
  length : t.nodes.length ≤ u.nodes.length
  sub : ∀ i < t.nodes.length, (u.node i).sub = (t.node i).sub
  direct : ∀ i < t.nodes.length, (u.node i).direct = (t.node i).direct
  parent : ∀ i < t.nodes.length, (u.node i).parent = (t.node i).parent

theorem KeepsTallies.refl (t : DirTree) : KeepsTallies t t := ⟨le_rfl, fun _ _ => rfl, fun _ _ => rfl, fun _ _ => rfl⟩

theorem KeepsTallies.trans {t u v : DirTree} (h : KeepsTallies t u) (h' : KeepsTallies u v) : KeepsTallies t v :=
  ⟨h.length.trans h'.length, fun i hi => (h'.sub i (hi.trans_le h.length)).trans (h.sub i hi),
    fun i hi => (h'.direct i (hi.trans_le h.length)).trans (h.direct i hi),
    fun i hi => (h'.parent i (hi.trans_le h.length)).trans (h.parent i hi)⟩

theorem KeepsTallies.modifyNode (t : DirTree) (i : Nat) {f : DirNode → DirNode}
    (hf : ∀ n, (f n).sub = n.sub ∧ (f n).direct = n.direct ∧ (f n).parent = n.parent) : KeepsTallies t (t.modifyNode i f) := by
  refine ⟨(DirTree.length_modifyNode t i f).ge, fun j _ => ?_, fun j _ => ?_, fun j _ => ?_⟩ <;>
  · rw [DirTree.node_modifyNode]
    split
    · simp [hf]
    · rfl

section Steps

variable {target : Target} {answers : Answers} {node : Nat} {all subdirs subdirs' : List Subdir}
  {children children' : List Nat} {m m' : Merge}

theorem keepsTallies_keep (m : Merge) (child : Nat) (subdir : Subdir) : KeepsTallies m.st.tree (m.keep child subdir).st.tree :=
  .modifyNode _ _ fun _ => ⟨rfl, rfl, rfl⟩

theorem keepsTallies_drop {child : Nat} (h : Merging node all (child :: children) subdirs m) :
    KeepsTallies m.st.tree (m.drop child).st.tree := by
  obtain ⟨ha, hp, -, -⟩ := h.child
  have hnode := h.shape.node_detach ha hp
  rw [tree_drop]
  exact ⟨(DirTree.length_detach _ _).ge, fun i _ => by rw [hnode], fun i _ => by rw [hnode], fun i _ => by rw [hnode]⟩

theorem keepsTallies_add (hw : answers.FreshWalks) {subdir : Subdir} (h : Merging node all children (subdir :: subdirs) m)
    (ho : ∀ child ∈ children.head?, childOrder answers m.st child subdir = .gt) :
    KeepsTallies m.st.tree (m.add target answers node subdir).st.tree := by
  rcases add_cases target answers node m subdir with he | ⟨sub, shared, hsub, -, -, he | ⟨t, rfl, he⟩⟩
  · rw [he]; exact .refl _
  · rw [he]; exact .modifyNode _ _ fun _ => ⟨rfl, rfl, rfl⟩
  · have hwk := walkNew_walked hw hsub
    have hfresh := h.fresh (h.ahead ho)
    rw [← hwk.root] at hfresh
    have g := h.shape.graft_spec h.alive hwk.shape.pos hfresh
    have hnodes : (m.add target answers node subdir).st.tree.nodes = (m.st.tree.graft node sub).1.nodes := by
      rw [he]; exact nodes_shareLinks _ _ _
    have hnode : ∀ i, (m.add target answers node subdir).st.tree.node i = (m.st.tree.graft node sub).1.node i := fun i => by
      unfold DirTree.node; rw [hnodes]
    refine ⟨by rw [hnodes, g.length]; omega, fun i hi => ?_, fun i hi => ?_, fun i hi => ?_⟩ <;> rw [hnode, g.old_eq hi]

theorem moved_add (target : Target) (answers : Answers) (node : Nat) (m : Merge) (subdir : Subdir) :
    (m.add target answers node subdir).moved = m.moved ∧ m.brings target answers node subdir = {} ∨
      (m.add target answers node subdir).moved = m.moved.plus (Delta.ofTally (m.brings target answers node subdir)) := by
  unfold Merge.add Merge.brings
  cases hw : walkNew target answers m.st.tree node subdir.name with
  | none => exact .inl ⟨rfl, rfl⟩
  | some p =>
    refine .inr ?_
    dsimp only
    split <;> rfl

/-- The sum of a component of `sub` over children. -/
def childSum (c : Component) (t : DirTree) (children : List Nat) : Int :=
  (children.map fun child => ((t.node child).sub.get c : Int)).sum

theorem childSum_congr {c : Component} {t u : DirTree} (h : KeepsTallies t u) {children : List Nat}
    (hl : ∀ child ∈ children, child < t.nodes.length) : childSum c u children = childSum c t children :=
  congrArg List.sum (List.map_congr_left fun child hc => by rw [h.sub child (hl child hc)])

/-- From `m` to the end of its merge, what is moved is what came less what went, while neither is
past the limit; `u` went and `v` came before. -/
def MovesExactly (c : Component) (children : List Nat) (m : Merge) (moves : Moves) (mEnd : Merge) : Prop :=
  ∀ u v : Int, m.moved.get c = v - u → 0 ≤ u → 0 ≤ v → u + childSum c m.st.tree children < 2 ^ 63 →
    v + tallySum c moves.came < 2 ^ 63 →
    mEnd.moved.get c = v + tallySum c moves.came - (u + tallySum c moves.went) ∧
      tallySum c moves.went ≤ childSum c m.st.tree children ∧ KeepsTallies m.st.tree mEnd.st.tree

theorem Merging.lt (h : Merging node all children subdirs m) : ∀ child ∈ children, child < m.st.tree.nodes.length :=
  fun child hc => DirTree.lt_of_alive (h.shape.child node h.alive child (h.left.subset hc)).1

theorem MovesExactly.refl (c : Component) (m : Merge) : MovesExactly c [] m {} m := by
  intro u v hm _ _ _ _
  exact ⟨by simp [hm, tallySum], by simp [tallySum, childSum], .refl _⟩

theorem childSum_nonneg (c : Component) (t : DirTree) (children : List Nat) : 0 ≤ childSum c t children :=
  List.sum_nonneg fun x hx => by
    obtain ⟨child, -, rfl⟩ := List.mem_map.1 hx
    exact Int.natCast_nonneg _

theorem childSum_cons (c : Component) (t : DirTree) (child : Nat) (children : List Nat) :
    childSum c t (child :: children) = (t.node child).sub.get c + childSum c t children := by
  simp [childSum]

variable {c : Component} {moves : Moves} {mEnd : Merge}

theorem MovesExactly.keep {child : Nat} {subdir : Subdir} (hm : Merging node all (child :: children) (subdir :: subdirs) m)
    (h : MovesExactly c children (m.keep child subdir) moves mEnd) : MovesExactly c (child :: children) m moves mEnd := by
  intro u v hmoved hu hv hchildren hcame
  have hkeep := keepsTallies_keep m child subdir
  have hsum : childSum c (m.keep child subdir).st.tree children = childSum c m.st.tree children :=
    childSum_congr hkeep fun i hi => hm.lt i (List.mem_cons_of_mem _ hi)
  rw [childSum_cons] at hchildren ⊢
  obtain ⟨h1, h2, h3⟩ := h u v hmoved hu hv (by omega) hcame
  exact ⟨h1, by omega, hkeep.trans h3⟩

theorem MovesExactly.drop {child : Nat} (hm : Merging node all (child :: children) subdirs m)
    (h : MovesExactly c children (m.drop child) moves mEnd) :
    MovesExactly c (child :: children) m { moves with went := (m.st.tree.node child).sub :: moves.went } mEnd := by
  intro u v hmoved hu hv hchildren hcame
  have hdrop := keepsTallies_drop hm
  have hsum : childSum c (m.drop child).st.tree children = childSum c m.st.tree children :=
    childSum_congr hdrop fun i hi => hm.lt i (List.mem_cons_of_mem _ hi)
  have hrest := childSum_nonneg c m.st.tree children
  have hbrought := tallySum_nonneg c moves.came
  rw [childSum_cons] at hchildren ⊢
  have hof : (Delta.ofTally (m.st.tree.node child).sub).get c = (m.st.tree.node child).sub.get c := Delta.get_ofTally (by omega)
  have hneg : (Delta.ofTally (m.st.tree.node child).sub).negate.get c = -((m.st.tree.node child).sub.get c : Int) := by
    rw [Delta.get_negate_eq (by omega) (by omega), hof]
  have hstep : (m.drop child).moved.get c = v - (u + (m.st.tree.node child).sub.get c) := by
    show (m.moved.plus _).get c = _
    simp only at hcame
    rw [Delta.get_plus_eq (by omega) (by omega)]; omega
  obtain ⟨h1, h2, h3⟩ := h _ v hstep (by omega) hv (by omega) hcame
  simp only [tallySum_cons]
  exact ⟨by omega, by omega, hdrop.trans h3⟩

theorem MovesExactly.add (hw : answers.FreshWalks) {subdir : Subdir} (hm : Merging node all children (subdir :: subdirs) m)
    (ho : ∀ child ∈ children.head?, childOrder answers m.st child subdir = .gt)
    (h : MovesExactly c children (m.add target answers node subdir) moves mEnd) :
    MovesExactly c children m { moves with came := m.brings target answers node subdir :: moves.came } mEnd := by
  intro u v hmoved hu hv hchildren hcame
  have hadd : KeepsTallies m.st.tree (m.add target answers node subdir).st.tree := keepsTallies_add hw hm ho
  have hsum : childSum c (m.add target answers node subdir).st.tree children = childSum c m.st.tree children :=
    childSum_congr hadd hm.lt
  have hrest := childSum_nonneg c m.st.tree children
  have hbrought := tallySum_nonneg c moves.came
  simp only [tallySum_cons] at hcame ⊢
  have hstep : (m.add target answers node subdir).moved.get c = v + (m.brings target answers node subdir).get c - u := by
    rcases moved_add target answers node m subdir with ⟨he, hb⟩ | he
    · rw [he, hb, Tally.get_default, hmoved]; omega
    · have hof := Delta.get_ofTally (t := m.brings target answers node subdir) (c := c) (by omega)
      rw [he, Delta.get_plus_eq (by omega) (by omega)]; omega
  obtain ⟨h1, h2, h3⟩ := h u _ hstep hu (by omega) (by omega) (by omega)
  exact ⟨by omega, by omega, hadd.trans h3⟩

theorem movesExactly_mergeChildren (hw : answers.FreshWalks) (c : Component) (fuel : Nat) (children : List Nat)
    (subdirs : List Subdir) (m : Merge) (hl : children.length + subdirs.length ≤ fuel)
    (hm : Merging node all children subdirs m) :
    MovesExactly c children m (mergeMoves target answers node fuel children subdirs m)
      (mergeChildren target answers node fuel children subdirs m) := by
  fun_induction mergeMoves target answers node fuel children subdirs m with
  | case1 children subdirs m =>
    obtain ⟨rfl, rfl⟩ := MergeJoin.eq_nil_of_length hl
    exact .refl c m
  | case2 fuel m => cases fuel <;> exact .refl c m
  | case3 fuel child children m moves ih =>
    rw [mergeChildren]
    exact .drop hm (ih (by simp only [List.length_cons] at hl ⊢; omega) hm.drop)
  | case4 fuel subdir subdirs m moves ih =>
    have ho : ∀ child ∈ ([] : List Nat).head?, childOrder answers m.st child subdir = .gt := fun _ h => by cases h
    rw [mergeChildren]
    exact .add hw hm ho (ih (by simp only [List.length_cons] at hl ⊢; omega) (hm.add hw (hm.ahead ho)))
  | case5 fuel child children subdir subdirs m ho ih =>
    rw [mergeChildren, ho]
    exact .keep hm (ih (by simp only [List.length_cons] at hl; omega) (hm.keep (childOrder_eq ho).1))
  | case6 fuel child children subdir subdirs m ho moves ih =>
    rw [mergeChildren, ho]
    exact .drop hm (ih (by simp only [List.length_cons] at hl ⊢; omega) hm.drop)
  | case7 fuel child children subdir subdirs m ho moves ih =>
    have ho' : ∀ c ∈ (child :: children).head?, childOrder answers m.st c subdir = .gt := fun c hc => by cases hc; exact ho
    rw [mergeChildren, ho]
    exact .add hw hm ho' (ih (by simp only [List.length_cons] at hl ⊢; omega) (hm.add hw (hm.ahead ho')))

/-- The size of the directory's own inode. -/
def DirNode.ownSize (n : DirNode) : Nat × Nat := (n.ownBlocks, n.ownApparent)

/-- The merge does not touch the own size of the directory, nor of one before it: only a child's. -/
theorem ownSize_step (hw : answers.FreshWalks) {dir : Nat} (hd : dir ≤ node) {n : Nat × Nat} (h : Merging node all children subdirs m)
    (hs : MergeStep target answers node all children subdirs m children' subdirs' m')
    (hp : (m.st.tree.node dir).ownSize = n) : (m'.st.tree.node dir).ownSize = n := by
  have hnl := DirTree.lt_of_alive h.alive
  cases hs with
  | @keep child _ subdir _ _ hname hsame =>
    have hlt := h.shape.lt_of_child h.alive h.child.2.2.1
    show ((m.st.tree.modifyNode child _).node dir).ownSize = n
    rw [DirTree.node_modifyNode_of_ne (by omega)]
    exact hp
  | drop hgone =>
    obtain ⟨ha, hpar, -, -⟩ := h.child
    rw [tree_drop, h.shape.node_detach ha hpar]
    exact hp
  | @add _ subdir _ _ hfresh =>
    rcases add_cases target answers node m subdir with he | ⟨sub, shared, hsub, -, -, he | ⟨t, rfl, he⟩⟩
    · rw [he]; exact hp
    · rw [he, DirTree.node_modifyNode]
      split <;> exact hp
    · have hwk := walkNew_walked hw hsub
      rw [← hwk.root] at hfresh
      have g := h.shape.graft_spec h.alive hwk.shape.pos hfresh
      have hnode : (m.add target answers node subdir).st.tree.node dir = (m.st.tree.graft node sub).1.node dir := by
        rw [he]
        unfold DirTree.node
        rw [nodes_shareLinks]
      rw [hnode, g.old_eq (hd.trans_lt hnl)]
      exact hp

end Steps

/-! ## A re-read -/

section Relist

variable {target : Target} {answers : Answers} {st : TreeState} {node : Nat} {listing : Listing}

/-- The subtrees a listing drops and brings in. -/
def relistMoves (target : Target) (answers : Answers) (st : TreeState) (node : Nat) (listing : Listing) : Moves :=
  mergeMoves target answers node ((st.tree.node node).children.length + listing.subdirs.length) (st.tree.node node).children
    listing.subdirs (startMerge st node listing)

/-- What is directly in a directory, with its links settled. -/
def settledDirect (st : TreeState) (node : Nat) (listing : Listing) : Tally :=
  (settleListed st.tree node listing.links listing.direct).direct

/-- What sits in the directory as listed, and in the subtrees that came. -/
def heldAfter (target : Target) (answers : Answers) (st : TreeState) (node : Nat) (listing : Listing) (c : Component) : Int :=
  (settledDirect st node listing).get c + tallySum c (relistMoves target answers st node listing).came

/-- What sat in the directory, and in the subtrees that went. -/
def heldBefore (target : Target) (answers : Answers) (st : TreeState) (node : Nat) (listing : Listing) (c : Component) : Int :=
  (st.tree.node node).direct.get c + tallySum c (relistMoves target answers st node listing).went

/-- Totals below the limit before the re-read and after it, the directory's own inode included. -/
structure WithinLimit (target : Target) (answers : Answers) (st : TreeState) (node : Nat) (listing : Listing) : Prop where
  surplus : ∀ i, (st.tree.node i).alive = true → ∀ c, 0 ≤ st.tree.surplus i c
  sub : ∀ i, (st.tree.node i).alive = true → ∀ c, (st.tree.node i).sub.get c < 2 ^ 63
  before : ∀ c, (st.tree.node node).sub.get c + sizeAt (st.tree.node node).ownBlocks (st.tree.node node).ownApparent c < 2 ^ 63
  after : ∀ c, heldAfter target answers st node listing c + sizeAt listing.own.blocks listing.own.apparent c < 2 ^ 63

/-- The merge of a listing within the limit moves exactly what came less what went. -/
theorem moved_merged (hw : answers.FreshWalks) (ho : answers.ProperEntries) (h : Shape st.tree) (hn : st.tree.ProperNames)
    (ha : (st.tree.node node).alive = true) (hl : readListing target answers st node = .ok listing)
    (hk : WithinLimit target answers st node listing) (c : Component) :
    (merged target answers st node listing).moved.get c =
        tallySum c (relistMoves target answers st node listing).came - tallySum c (relistMoves target answers st node listing).went ∧
      heldBefore target answers st node listing c ≤ (st.tree.node node).sub.get c ∧
      KeepsTallies st.tree (merged target answers st node listing).st.tree := by
  have hstart := merging_start ho h hn ha hl
  have hmoves : MovesExactly c (st.tree.node node).children (startMerge st node listing)
      (relistMoves target answers st node listing) (merged target answers st node listing) :=
    movesExactly_mergeChildren hw c _ _ _ _ le_rfl hstart
  have hsurplus := hk.surplus node ha c
  have hsub := hk.sub node ha c
  have hafter := hk.after c
  unfold DirTree.surplus at hsurplus
  have hsum : childSum c (startMerge st node listing).st.tree (st.tree.node node).children =
      st.tree.overChildren node fun n => n.sub.get c := rfl
  obtain ⟨h1, h2, h3⟩ := hmoves 0 0 (Delta.get_default c) le_rfl le_rfl (by rw [hsum]; omega) (by
    unfold heldAfter at hafter
    omega)
  rw [hsum] at h2
  refine ⟨by simpa using h1, ?_, h3.length, h3.sub, h3.direct, h3.parent⟩
  unfold heldBefore
  omega

theorem ownSize_merged (hw : answers.FreshWalks) (ho : answers.ProperEntries) (h : Shape st.tree) (hn : st.tree.ProperNames)
    (ha : (st.tree.node node).alive = true) (hl : readListing target answers st node = .ok listing) {dir : Nat} (hd : dir ≤ node) :
    ((merged target answers st node listing).st.tree.node dir).ownSize = (st.tree.node dir).ownSize :=
  (mergeRun_rule hw (fun _ _ m => (m.st.tree.node dir).ownSize = (st.tree.node dir).ownSize) (ownSize_step hw hd)
    (mergeRun_merged target answers st node listing) (merging_start ho h hn ha hl) rfl).2

theorem asI64_eq {x : Nat} (h : x < 2 ^ 63) : asI64 x = x := wrapI64_eq (by omega) (by omega)

theorem subI64_eq {new old : Nat} (hn : new < 2 ^ 63) (ho : old < 2 ^ 63) : subI64 new old = (new : Int) - old := by
  unfold subI64
  rw [asI64_eq hn, asI64_eq ho, wrapI64_eq (by omega) (by omega)]

theorem get_size_blocks (blocks apparent : Int) : (Delta.size blocks apparent).get .blocks = blocks := rfl

theorem get_size_apparent (blocks apparent : Int) : (Delta.size blocks apparent).get .apparent = apparent := rfl

/-- The growth of the directory's own inode, as published. -/
theorem get_grownBy {t : DirTree} {own : Own}
    (hn : ∀ c, sizeAt own.blocks own.apparent c < 2 ^ 63)
    (ho : ∀ c, sizeAt (t.node node).ownBlocks (t.node node).ownApparent c < 2 ^ 63) (c : Component) :
    (grownBy t node own).get c =
      (sizeAt own.blocks own.apparent c : Int) - sizeAt (t.node node).ownBlocks (t.node node).ownApparent c := by
  cases c with
  | blocks => exact (get_size_blocks _ _).trans (subI64_eq (hn .blocks) (ho .blocks))
  | apparent => exact (get_size_apparent _ _).trans (subI64_eq (hn .apparent) (ho .apparent))
  | files | dirs | symlinks => rfl

/-- The change of the subtree is exact. -/
theorem delta_merged (hw : answers.FreshWalks) (ho : answers.ProperEntries) (h : Shape st.tree) (hn : st.tree.ProperNames)
    (ha : (st.tree.node node).alive = true) (hl : readListing target answers st node = .ok listing)
    (hk : WithinLimit target answers st node listing) (c : Component) :
    ((Delta.between ((merged target answers st node listing).st.tree.node node).direct (settledDirect st node listing)).plus
        (merged target answers st node listing).moved).get c =
      heldAfter target answers st node listing c - heldBefore target answers st node listing c := by
  obtain ⟨h1, h2, hkeeps⟩ := moved_merged hw ho h hn ha hl hk c
  have hafter := hk.after c
  have hsub := hk.sub node ha c
  have hcame := tallySum_nonneg c (relistMoves target answers st node listing).came
  have hwent := tallySum_nonneg c (relistMoves target answers st node listing).went
  unfold heldAfter heldBefore at *
  have hb : (Delta.between ((merged target answers st node listing).st.tree.node node).direct (settledDirect st node listing)).get c =
      ((settledDirect st node listing).get c : Int) - (st.tree.node node).direct.get c := by
    rw [hkeeps.direct node (DirTree.lt_of_alive ha)]
    exact Delta.get_between_eq (by omega) (by omega)
  rw [Delta.get_plus_eq (by omega) (by omega)]
  omega

/-- The tree with the listing applied, before the directory's own growth is. -/
def appliedTree (target : Target) (answers : Answers) (st : TreeState) (node : Nat) (listing : Listing) : DirTree :=
  applyListing (merged target answers st node listing).st.tree node (settledDirect st node listing)
    (merged target answers st node listing).moved

/-- What a re-read changes in a directory and below it, its own inode aside. -/
def heldChange (target : Target) (answers : Answers) (st : TreeState) (node : Nat) (listing : Listing) (c : Component) : Int :=
  heldAfter target answers st node listing c - heldBefore target answers st node listing c

/-- What the directory's own inode grows by. -/
def ownGrowth (st : TreeState) (node : Nat) (own : Own) (c : Component) : Int :=
  sizeAt own.blocks own.apparent c - sizeAt (st.tree.node node).ownBlocks (st.tree.node node).ownApparent c

/-- What sits directly in the parent covers what the directory's own inode loses. -/
def OwnFits (st : TreeState) (node : Nat) (own : Own) : Prop :=
  ∀ p, (st.tree.node node).parent = some p → ∀ c, 0 ≤ ((st.tree.node p).direct.get c : Int) + ownGrowth st node own c

/-- A re-read that publishes and adds exactly what changed. -/
structure RelistExact (target : Target) (answers : Answers) (st : TreeState) (node : Nat) (listing : Listing) : Prop where
  /-- Published of the directory: what is in it and below it, and its own inode. -/
  published : (applyAll target answers st node listing).2.changes.head? =
    some (node, .of fun c => heldChange target answers st node listing c + ownGrowth st node listing.own c)
  /-- The listing changes the total of the directory and of everything above it. -/
  applied : ∀ j, Above st.tree.parentOf j node → ∀ c,
    (((appliedTree target answers st node listing).node j).sub.get c : Int) =
      (st.tree.node j).sub.get c + heldChange target answers st node listing c
  /-- Then its own inode's growth those above it. -/
  grown : OwnFits st node listing.own → ∀ j, Above st.tree.parentOf j node → ∀ c,
    (((applyOwn (appliedTree target answers st node listing) node listing.own).node j).sub.get c : Int) =
      (st.tree.node j).sub.get c + heldChange target answers st node listing c +
        if j = node then 0 else ownGrowth st node listing.own c

/-- What is held before and after, with the own inode, is below the limit. -/
theorem WithinLimit.held (hk : WithinLimit target answers st node listing)
    (hb : ∀ c, heldBefore target answers st node listing c ≤ (st.tree.node node).sub.get c) (c : Component) :
    (0 ≤ heldBefore target answers st node listing c ∧ 0 ≤ heldAfter target answers st node listing c) ∧
      heldBefore target answers st node listing c + sizeAt (st.tree.node node).ownBlocks (st.tree.node node).ownApparent c < 2 ^ 63 ∧
      heldAfter target answers st node listing c + sizeAt listing.own.blocks listing.own.apparent c < 2 ^ 63 := by
  have hcame := tallySum_nonneg c (relistMoves target answers st node listing).came
  have hwent := tallySum_nonneg c (relistMoves target answers st node listing).went
  have hbefore := hk.before c
  have hle := hb c
  refine ⟨⟨?_, ?_⟩, by omega, hk.after c⟩
  · unfold heldBefore
    omega
  · unfold heldAfter
    omega

/-- The own inode's growth, as read off a tree that has its old size. -/
theorem get_grownBy_of_ownSize (hk : WithinLimit target answers st node listing) {t : DirTree}
    (ht : (t.node node).ownSize = (st.tree.node node).ownSize) (c : Component) :
    (grownBy t node listing.own).get c = ownGrowth st node listing.own c := by
  obtain ⟨hblocks, happarent⟩ := Prod.mk.inj ht
  have hsame : ∀ c, sizeAt (t.node node).ownBlocks (t.node node).ownApparent c =
      sizeAt (st.tree.node node).ownBlocks (st.tree.node node).ownApparent c := fun c => by rw [hblocks, happarent]
  have hnew : ∀ c, sizeAt listing.own.blocks listing.own.apparent c < 2 ^ 63 := fun c => by
    have h1 := hk.after c
    have h2 := tallySum_nonneg c (relistMoves target answers st node listing).came
    unfold heldAfter at h1
    omega
  have hold : ∀ c, sizeAt (t.node node).ownBlocks (t.node node).ownApparent c < 2 ^ 63 := fun c => by
    have := hk.before c
    rw [hsame c]
    omega
  rw [get_grownBy hnew hold c, hsame c]
  rfl

theorem node_applyListing (t : DirTree) (node : Nat) (direct : Tally) (moved : Delta) (j : Nat) :
    (applyListing t node direct moved).node j = { (t.modifyNode node fun n => { n with direct := direct }).node j with
      sub := ((applyListing t node direct moved).node j).sub } := DirTree.node_propagate _ node _ j

theorem own_applyListing (t : DirTree) (node : Nat) (direct : Tally) (moved : Delta) :
    ((applyListing t node direct moved).node node).ownSize = (t.node node).ownSize := by
  rw [node_applyListing, DirTree.node_modifyNode]
  split <;> rfl

/-- What the directory's own inode grows by goes to the totals above it, where it fits them. -/
theorem sub_applyOwn {t : DirTree} (hd : Down t.parentOf) (hl : node < t.nodes.length) {own : Own}
    (hfits : ∀ p, t.parentOf node = some p → t.Fits p (grownBy t node own).get) (j : Nat) (hj : Above t.parentOf j node)
    (c : Component) :
    (((applyOwn t node own).node j).sub.get c : Int) =
      (t.node j).sub.get c + if j = node then 0 else (grownBy t node own).get c := by
  unfold applyOwn
  dsimp only
  have hset : ∀ i, ((t.modifyNode node fun n => { n with ownBlocks := own.blocks, ownApparent := own.apparent, mtime := own.mtime }).node i).sub =
      (t.node i).sub := fun i => by
    rw [DirTree.node_modifyNode]
    split <;> rfl
  have hsame := DirTree.sameShape_modifyNode t node
    (f := fun n => { n with ownBlocks := own.blocks, ownApparent := own.apparent, mtime := own.mtime }) fun _ => rfl
  generalize t.modifyNode node (fun n => { n with ownBlocks := own.blocks, ownApparent := own.apparent, mtime := own.mtime }) = u at *
  split
  · rename_i hz
    rw [hset, Delta.isZero_iff.1 hz c, ite_self, add_zero]
  · rw [hsame.parent node]
    cases hp : (t.node node).parent with
    | none =>
      -- nothing is above a root
      have hroot : j = node := (above_iff.1 hj).resolve_right fun ⟨p, hpar, _⟩ => by
        rw [DirTree.parentOf, hp] at hpar
        cases hpar
      rw [hset, if_pos hroot, add_zero]
    | some p =>
      have hlt := hd node p hp
      have hput := DirTree.sameShape_applyDirect u p (grownBy t node own)
      have hsub : ∀ i, ((u.applyDirect p (grownBy t node own)).node i).sub = (t.node i).sub := fun i => by
        rw [← hset i, DirTree.node_applyDirect]
        split <;> rfl
      have hpar : (u.applyDirect p (grownBy t node own)).parentOf = t.parentOf := hput.parentOf.trans hsame.parentOf
      have hspec : DirTree.Propagated (u.applyDirect p (grownBy t node own)) p (grownBy t node own).get
          (u.grow p (grownBy t node own)) :=
        DirTree.propagate_spec (by rw [hpar]; exact hd) (by rw [hput.length, hsame.length]; omega) fun i hi c => by
          rw [hpar] at hi
          rw [hsub]
          exact hfits p hp i hi c
      rcases above_iff.1 hj with rfl | ⟨q, hq, hjq⟩
      · have hoff := hspec.off j fun habove => by
          rw [hpar] at habove
          have := habove.le hd
          omega
        rw [if_pos rfl, add_zero, hoff, hsub]
      · obtain rfl : p = q := Option.some.inj (hp.symm.trans hq)
        have hle := hjq.le hd
        rw [if_neg (by omega), hspec.at_ j c (by rw [hpar]; exact hjq), hsub]

section Within

variable (hw : answers.FreshWalks) (ho : answers.ProperEntries) (h : Shape st.tree) (hn : st.tree.ProperNames)
  (ha : (st.tree.node node).alive = true) (hl : readListing target answers st node = .ok listing)
  (hk : WithinLimit target answers st node listing)

include hw ho h hn ha hl hk

/-- A re-read within the limit publishes the exact change of its directory. -/
theorem published_exact : (applyAll target answers st node listing).2.changes.head? =
    some (node, .of fun c => heldChange target answers st node listing c + ownGrowth st node listing.own c) := by
  have hmoved := moved_merged hw ho h hn ha hl hk
  have hdelta := delta_merged hw ho h hn ha hl hk
  have hgrown := get_grownBy_of_ownSize hk (ownSize_merged hw ho h hn ha hl le_rfl)
  have hheld := hk.held fun c => (hmoved c).2.1
  have hhead : (applyAll target answers st node listing).2.changes.head? = some (node,
      if (grownBy (merged target answers st node listing).st.tree node listing.own).isZero then
        (Delta.between ((merged target answers st node listing).st.tree.node node).direct (settledDirect st node listing)).plus
          (merged target answers st node listing).moved
      else ((Delta.between ((merged target answers st node listing).st.tree.node node).direct (settledDirect st node listing)).plus
          (merged target answers st node listing).moved).plus
        (grownBy (merged target answers st node listing).st.tree node listing.own)) := rfl
  rw [hhead]
  refine congrArg some (congrArg (Prod.mk node) (Delta.eq_of fun c => ?_))
  have h1 := hdelta c
  have h2 := hgrown c
  split
  · rename_i hz
    have hzero := Delta.isZero_iff.1 hz c
    rw [h1]
    unfold heldChange
    omega
  · have h3 := hheld c
    unfold heldChange ownGrowth at *
    rw [Delta.get_plus_eq (by omega) (by omega)]
    omega

/-- The change of a listing fits everywhere at and above its directory. -/
theorem heldChange_fits (j : Nat) (hj : Above st.tree.parentOf j node) (c : Component) :
    heldBefore target answers st node listing c ≤ (st.tree.node j).sub.get c ∧
      ((st.tree.node j).sub.get c : Int) + heldAfter target answers st node listing c +
        sizeAt listing.own.blocks listing.own.apparent c < 2 ^ 64 := by
  obtain ⟨-, hbefore, -⟩ := moved_merged hw ho h hn ha hl hk c
  have hle := sub_le_above h (fun k hka => hk.surplus k hka c) hj ha
  have hlimit := hk.sub j (h.alive_of_above hj ha) c
  have hafter := hk.after c
  exact ⟨by omega, by omega⟩

/-- The chain above the directory is the one it had. -/
theorem parent_applied (i : Nat) (hi : i ≤ node) :
    (appliedTree target answers st node listing).parentOf i = st.tree.parentOf i := by
  have hkeeps := (moved_merged hw ho h hn ha hl hk .files).2.2
  have hnl := DirTree.lt_of_alive ha
  exact (congrFun (sameLinks_applyListing (merged target answers st node listing).st.tree node (settledDirect st node listing)
    (merged target answers st node listing).moved).shape.parentOf i).trans (hkeeps.parent i (by omega))

/-- And applies what it lists exactly there and above. -/
theorem applied_exact (j : Nat) (hj : Above st.tree.parentOf j node) (c : Component) :
    (((appliedTree target answers st node listing).node j).sub.get c : Int) =
      (st.tree.node j).sub.get c + heldChange target answers st node listing c := by
  have hdelta := delta_merged hw ho h hn ha hl hk
  have hfit := heldChange_fits hw ho h hn ha hl hk
  have hheld := hk.held fun c => (moved_merged hw ho h hn ha hl hk c).2.1
  have hkeeps := (moved_merged hw ho h hn ha hl hk .files).2.2
  obtain ⟨hmerging, -⟩ := mergeRun_rule hw (fun _ _ _ => True) (fun _ _ _ => trivial) (mergeRun_merged target answers st node listing)
    (merging_start ho h hn ha hl) trivial
  have hnl := DirTree.lt_of_alive ha
  unfold appliedTree
  generalize merged target answers st node listing = m at *
  have hsame := DirTree.sameShape_modifyNode m.st.tree node (f := fun n => { n with direct := settledDirect st node listing })
    fun _ => rfl
  have hsub : ∀ i < st.tree.nodes.length, ((m.st.tree.modifyNode node fun n =>
      { n with direct := settledDirect st node listing }).node i).sub = (st.tree.node i).sub := by
    intro i hi
    rw [← hkeeps.sub i hi, DirTree.node_modifyNode]
    split <;> rfl
  have hpar : ∀ i ≤ node, (m.st.tree.modifyNode node fun n =>
      { n with direct := settledDirect st node listing }).parentOf i = st.tree.parentOf i := by
    intro i hi
    rw [hsame.parentOf]
    exact hkeeps.parent i (by omega)
  have hlt : ∀ i, Above st.tree.parentOf i node → i < st.tree.nodes.length := fun i hi => by
    have := hi.le h.down
    omega
  have hdown : Down (m.st.tree.modifyNode node fun n => { n with direct := settledDirect st node listing }).parentOf := by
    rw [hsame.parentOf]
    exact hmerging.shape.down
  have hfits : (m.st.tree.modifyNode node fun n => { n with direct := settledDirect st node listing }).Fits node
      ((Delta.between (m.st.tree.node node).direct (settledDirect st node listing)).plus m.moved).get := by
    intro i hi c
    have hi' : Above st.tree.parentOf i node := hi.congr hdown fun k hk => (hpar k hk).symm
    have h1 := hfit i hi' c
    have h2 := hheld c
    rw [hsub i (hlt i hi'), hdelta]
    omega
  have hspec := DirTree.propagate_spec hdown (by rw [hsame.length]; exact hnl.trans_le hkeeps.length) hfits
  have hat := hspec.at_ j c (hj.congr h.down hpar)
  rw [hsub j (hlt j hj), hdelta] at hat
  exact hat

/-- Its own inode's growth is applied exactly above it, where the parent covers what it loses. -/
theorem grown_exact (hf : OwnFits st node listing.own) (j : Nat) (hj : Above st.tree.parentOf j node) (c : Component) :
    (((applyOwn (appliedTree target answers st node listing) node listing.own).node j).sub.get c : Int) =
      (st.tree.node j).sub.get c + heldChange target answers st node listing c +
        if j = node then 0 else ownGrowth st node listing.own c := by
  have hsize := (own_applyListing (merged target answers st node listing).st.tree node (settledDirect st node listing)
    (merged target answers st node listing).moved).trans (ownSize_merged hw ho h hn ha hl le_rfl)
  have hgrown : ∀ c, (grownBy (appliedTree target answers st node listing) node listing.own).get c = _ :=
    get_grownBy_of_ownSize hk hsize
  have happlied := applied_exact hw ho h hn ha hl hk
  have hpar := parent_applied hw ho h hn ha hl hk
  have hlen := (moved_merged hw ho h hn ha hl hk .files).2.2.length
  have hshape : Shape (appliedTree target answers st node listing) := by
    obtain ⟨hmerging, -⟩ := mergeRun_rule hw (fun _ _ _ => True) (fun _ _ _ => trivial)
      (mergeRun_merged target answers st node listing) (merging_start ho h hn ha hl) trivial
    exact hmerging.shape.congr (sameLinks_applyListing _ _ _ _).shape
  have hsame : SameShape (merged target answers st node listing).st.tree (appliedTree target answers st node listing) :=
    (sameLinks_applyListing _ _ _ _).shape
  have hnl := DirTree.lt_of_alive ha
  have hfits : ∀ p, (appliedTree target answers st node listing).parentOf node = some p →
      (appliedTree target answers st node listing).Fits p
        (grownBy (appliedTree target answers st node listing) node listing.own).get := by
    intro p hp i hi c
    rw [hpar node le_rfl] at hp
    have hlt := h.down node p hp
    have hi' : Above st.tree.parentOf i p := hi.congr hshape.down fun k hk => (hpar k (by omega)).symm
    have hin : Above st.tree.parentOf i node := hi'.step hp
    have hpa := (h.listed node p ha hp).1
    obtain ⟨-, hbefore, -⟩ := moved_merged hw ho h hn ha hl hk c
    -- the parent holds its own entries and the directory's total
    have hsurplus := hk.surplus p hpa c
    have hkid := DirTree.le_overChildren (t := st.tree) (i := p) (f := fun n => (n.sub.get c : Int))
      (fun n => Int.natCast_nonneg _) (h.listed node p ha hp).2
    have habove := sub_le_above h (fun k hka => hk.surplus k hka c) hi' hpa
    have hfit := heldChange_fits hw ho h hn ha hl hk i hin c
    have hcover := hf p hp c
    have hheld := hk.held (fun c => (moved_merged hw ho h hn ha hl hk c).2.1) c
    rw [happlied i hin c, hgrown]
    unfold DirTree.surplus at hsurplus
    unfold heldChange ownGrowth at *
    omega
  rw [sub_applyOwn hshape.down (by rw [hsame.length]; omega) hfits j (hj.congr h.down hpar) c, happlied j hj c, hgrown]

/-- A re-read within the limit publishes and adds exactly what changed. -/
theorem applyAll_exact : RelistExact target answers st node listing where
  published := published_exact hw ho h hn ha hl hk
  applied := applied_exact hw ho h hn ha hl hk
  grown := grown_exact hw ho h hn ha hl hk

end Within

end Relist

/-- A file of eight blocks is listed in a directory that held nothing. -/
def fileListing : Listing where
  direct := { files := 1, blocks := 4096, apparent := 10 }
  own := { blocks := 4096, apparent := 4096, mtime := 0 }
  newest := 0

theorem withinLimit_file :
    WithinLimit Walk.emptyWalk.target dropAnswers (TreeState.new (listedTree false) 1) 0 fileListing where
  surplus := fun i hi c => by
    have hlt : i < 1 := DirTree.lt_of_alive hi
    obtain rfl : i = 0 := by omega
    cases c <;> decide
  sub := fun i hi c => by
    have hlt : i < 1 := DirTree.lt_of_alive hi
    obtain rfl : i = 0 := by omega
    cases c <;> decide
  before := fun c => by cases c <;> decide
  after := fun c => by cases c <;> decide

/-- `/d` with `/d/x`, and a re-read of `/d/x` that finds the file, and its own inode grown. -/
def nestedTree : DirTree where
  displayRoot := [slash, 100]
  scanRoot := [slash, 100]
  rootDev := 1
  nodes := [
    { name := [], parent := none, depth := 0, ino := 2, ownBlocks := 4096, ownApparent := 4096, mtime := 0, newest := 0
      direct := { dirs := 1, blocks := 4096, apparent := 4096 }, sub := { dirs := 1, blocks := 4096, apparent := 4096 }
      children := [1], isSealed := false, pruned := false, alive := true },
    { name := [120], parent := some 0, depth := 1, ino := 4, ownBlocks := 4096, ownApparent := 4096, mtime := 0, newest := 0
      direct := {}, sub := {}, children := [], isSealed := false, pruned := false, alive := true }]
  links := .empty
  handles := []
  plain := []
  untrackedLinks := []

def swollenAnswers : Answers where
  byHandle := false
  opened := .ok ({ listedStat with ino := 4, blocks := 8192, size := 8192 }, { entries := [droppedEntry], fail := none })
  dirHandle _ := none
  walk _ := none

def swollenListing : Listing := { fileListing with own := { blocks := 8192, apparent := 8192, mtime := 0 } }

theorem withinLimit_swollen : WithinLimit Walk.emptyWalk.target swollenAnswers (TreeState.new nestedTree 1) 1 swollenListing where
  surplus := fun i hi c => by
    have hlt : i < 2 := DirTree.lt_of_alive hi
    rcases (show i = 0 ∨ i = 1 by omega) with rfl | rfl <;> cases c <;> decide
  sub := fun i hi c => by
    have hlt : i < 2 := DirTree.lt_of_alive hi
    rcases (show i = 0 ∨ i = 1 by omega) with rfl | rfl <;> cases c <;> decide
  before := fun c => by cases c <;> decide
  after := fun c => by cases c <;> decide

/-! ## Differences -/

/-- Differences are exact within their range. -/
structure ExactDifferences : Prop where
  /-- Applying a difference leads to the newer tally exactly when it is one of `i64`. -/
  apply : ∀ (a b : Tally) (c : Component), a.get c < 2 ^ 64 → b.get c < 2 ^ 64 →
    ((a.apply (Delta.between a b)).get c = b.get c ↔ -2 ^ 63 ≤ (b.get c : Int) - a.get c ∧ (b.get c : Int) - a.get c < 2 ^ 63)
  /-- Its negation leads back, where it is not the least. -/
  undo : ∀ (a b : Tally) (c : Component), a.get c < 2 ^ 64 → b.get c < 2 ^ 64 →
    -2 ^ 63 < (b.get c : Int) - a.get c → (b.get c : Int) - a.get c < 2 ^ 63 →
    (b.apply (Delta.between a b).negate).get c = a.get c
  /-- Of trees with totals below the limit, every delta reported is exact. -/
  diff : ∀ self newer : DirTree, Shape self → Shape newer → self.Summed → newer.Summed →
    (self.diffChanges newer).Perm ((pairsBelow self newer (0, 0)).flatMap (pairReport self newer))
  /-- `propagate` adds exactly, while the sums are `u64`s. -/
  propagate : ∀ (t : DirTree) (i : Nat) (d : Delta), Shape t → i < t.nodes.length → t.Fits i d.get →
    DirTree.Propagated t i d.get (t.propagate i d)
  /-- A re-read with totals below the limit publishes the exact change of its directory, and adds
  exactly what changed there and above. -/
  relist : ∀ (target : Target) (answers : Answers) (st : TreeState) (node : Nat) (listing : Listing),
    answers.FreshWalks → answers.ProperEntries → Shape st.tree → st.tree.ProperNames → (st.tree.node node).alive = true →
    readListing target answers st node = .ok listing → WithinLimit target answers st node listing →
    RelistExact target answers st node listing

/-- Differences are exact where they fit `i64`, and with totals below `2^63` they do. -/
theorem differences_exact : ExactDifferences where
  apply := fun _ _ _ _ hb => Tally.apply_between_iff hb
  undo := fun _ _ _ ha _ h1 h2 => Tally.apply_negate_between ha h1 h2
  diff := fun _ _ ho hn hso hsn => diffChanges_perm ho hn hso hsn
  propagate := fun _ _ _ h hi hf => DirTree.propagate_spec h.down hi hf
  relist := fun _ _ _ _ _ hw ho h hn ha hl hk => applyAll_exact hw ho h hn ha hl hk

/-- A file appears in a directory that held nothing; in one below it, whose inode grows with it. -/
theorem differences_exact_grown :
    RelistExact Walk.emptyWalk.target dropAnswers (TreeState.new (listedTree false) 1) 0 fileListing ∧
      RelistExact Walk.emptyWalk.target swollenAnswers (TreeState.new nestedTree 1) 1 swollenListing ∧
      ((applyOwn (appliedTree Walk.emptyWalk.target swollenAnswers (TreeState.new nestedTree 1) 1 swollenListing) 1
        swollenListing.own).node 0).sub = { files := 1, dirs := 1, blocks := 12288, apparent := 8202 } := by
  have hentries : ∀ own, Answers.ProperEntries { dropAnswers with opened := .ok (own, { entries := [droppedEntry], fail := none }) } := by
    intro own own' reading he
    cases he
    exact ⟨by decide, by decide⟩
  have hfile := differences_exact.relist _ _ _ _ _ (fun _ _ he => by cases he) (hentries listedStat)
    (Shape.of_at rfl rfl (by decide))
    (fun i hi hpos => by
      have hlt : i < 1 := DirTree.lt_of_alive hi
      omega) rfl rfl withinLimit_file
  have hswollen := differences_exact.relist _ _ _ _ _ (fun _ _ he => by cases he) (hentries _) (Shape.of_at rfl rfl (by decide))
    (fun i hi hpos => by
      have hlt : i < 2 := DirTree.lt_of_alive hi
      obtain rfl : i = 1 := by omega
      decide) rfl rfl withinLimit_swollen
  have hfits : OwnFits (TreeState.new nestedTree 1) 1 swollenListing.own := fun p hp c => by
    cases hp
    cases c <;> decide
  have habove : Above (TreeState.new nestedTree 1).tree.parentOf 0 1 := .step rfl .refl
  have hgrown := hswollen.grown hfits 0 habove
  refine ⟨hfile, hswollen, Tally.ext_get fun c => ?_⟩
  have hsum : ((nestedTree.node 0).sub.get c : Int) +
      heldChange Walk.emptyWalk.target swollenAnswers (TreeState.new nestedTree 1) 1 swollenListing c +
      (if 0 = 1 then 0 else ownGrowth (TreeState.new nestedTree 1) 1 swollenListing.own c) =
      (({ files := 1, dirs := 1, blocks := 12288, apparent := 8202 } : Tally).get c : Int) := by cases c <;> decide
  exact Int.ofNat.inj ((hgrown c).trans hsum)

/-- A file of `2^63` bytes appears: its size is past what a difference holds. -/
theorem sparse_difference_clamped : ¬∀ a b : Tally, (∀ c, a.get c < 2 ^ 64) → (∀ c, b.get c < 2 ^ 64) →
    a.apply (Delta.between a b) = b ∧ b.apply (Delta.between a b).negate = a := by
  intro h
  have := (h {} { apparent := 2 ^ 63 } (fun c => by cases c <;> decide) (fun c => by cases c <;> decide)).1
  exact absurd this (by decide)

end StorageHarvester
