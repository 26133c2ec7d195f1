/-
New subdirectories past the target's directory budget. Such a one is counted without nodes, and
whether the tree counts a file in it already is judged when the merge comes to it. The file is counted
once in the end iff it is taken out of the subdirectory's bytes just when something the re-read leaves
in the tree goes on counting it.
-/
import StorageHarvester.Live.Owners

namespace StorageHarvester

open Forest

/-! ## What directories are known by -/

/-- Two states whose directories go by the same names, inodes and handles. -/
structure SameKeys (st st' : TreeState) : Prop where
  handles : st'.handles = st.handles
  scanRoot : st'.tree.scanRoot = st.tree.scanRoot
  name : ∀ i, (st'.tree.node i).name = (st.tree.node i).name
  parent : ∀ i, (st'.tree.node i).parent = (st.tree.node i).parent
  ino : ∀ i, (st'.tree.node i).ino = (st.tree.node i).ino
  mtime : ∀ i, (st'.tree.node i).mtime = (st.tree.node i).mtime

section SameKeys

variable {st st' : TreeState} {answers : Answers}

theorem SameKeys.scanPath (h : SameKeys st st') (i : Nat) : st'.tree.scanPath i = st.tree.scanPath i := by
  have hup : ∀ (fuel i : Nat), st'.tree.componentsUp fuel i = st.tree.componentsUp fuel i := by
    intro fuel
    induction fuel with
    | zero => intro i; rfl
    | succ fuel ih =>
      intro i
      rw [DirTree.componentsUp, DirTree.componentsUp, h.name, h.parent]
      split
      · rfl
      · cases (st.tree.node i).parent with
        | none => rfl
        | some p => exact congrArg _ (ih p)
  unfold DirTree.scanPath DirTree.components
  rw [h.scanRoot, hup]

theorem SameKeys.parentOf (h : SameKeys st st') : st'.tree.parentOf = st.tree.parentOf := funext h.parent

theorem SameKeys.replaced (h : SameKeys st st') (child : Nat) (subdir : Subdir) :
    replaced answers st' child subdir = replaced answers st child subdir := by
  unfold StorageHarvester.replaced
  rw [h.ino, h.mtime, h.handles, h.scanPath]

end SameKeys

/-! ## Directories that outlast a re-read -/

/-- An old child that the listing does not have, or has replaced. -/
def Gone (answers : Answers) (all : List Subdir) (st : TreeState) (child : Nat) : Prop :=
  ∀ subdir ∈ all, subdir.name = (st.tree.node child).name → replaced answers st child subdir = true

/-- A directory below none of the old children left to drop. -/
def Outlasts (answers : Answers) (all : List Subdir) (children : List Nat) (st : TreeState) (i : Nat) : Prop :=
  (st.tree.node i).alive = true ∧ ∀ c ∈ children, Gone answers all st c → ¬Above st.tree.parentOf c i

/-- One of a link's other holders outlasts the re-read and may take the file over; the directory read,
`node`, only if it lists the file itself. -/
def TakenOver (answers : Answers) (all : List Subdir) (node : Nat) (here : List Inode) (children : List Nat) (st : TreeState)
    (inode : Inode) (owner : LinkOwner) : Prop :=
  ∃ other ∈ owner.others, Outlasts answers all children st other ∧ (other ≠ node ∨ inode ∈ here)

/-- After the re-read the tree still counts the file: its owner outlasts it, or another holder does; a
link freed so far is taken over as well. -/
def Retained (answers : Answers) (all : List Subdir) (node : Nat) (here : List Inode) (children : List Nat) (m : Merge)
    (inode : Inode) : Prop :=
  (∃ owner, m.st.tree.links.get inode = some owner ∧
      (Outlasts answers all children m.st owner.node ∨ TakenOver answers all node here children m.st inode owner)) ∨
    ∃ owner, (inode, owner) ∈ m.handed ∧ TakenOver answers all node here children m.st inode owner

section Steps

variable {target : Target} {answers : Answers} {node : Nat} {all subdirs subdirs' : List Subdir} {children children' : List Nat}
  {m m' : Merge} {here : List Inode} {inode : Inode}

theorem SameKeys.gone {st st' : TreeState} (h : SameKeys st st') (child : Nat) : Gone answers all st' child ↔ Gone answers all st child := by
  unfold Gone
  simp only [h.name, h.replaced]

theorem sameKeys_keep (m : Merge) (child : Nat) (subdir : Subdir) : SameKeys m.st (m.keep child subdir).st := by
  have hnode : ∀ {α : Type} (f : DirNode → α),
      (∀ n : DirNode, f { n with ownBlocks := subdir.blocks, ownApparent := subdir.apparent } = f n) →
      ∀ i, f ((m.keep child subdir).st.tree.node i) = f (m.st.tree.node i) := by
    intro α f hf i
    show f ((m.st.tree.modifyNode child _).node i) = _
    rw [DirTree.node_modifyNode]
    split
    · exact hf _
    · rfl
  exact ⟨rfl, rfl, hnode DirNode.name fun _ => rfl, hnode DirNode.parent fun _ => rfl, hnode DirNode.ino fun _ => rfl,
    hnode DirNode.mtime fun _ => rfl⟩

theorem sameKeys_drop {child : Nat} (h : Merging node all (child :: children) subdirs m) : SameKeys m.st (m.drop child).st := by
  obtain ⟨ha, hp, -, -⟩ := h.child
  have hnode := h.shape.node_detach ha hp
  refine ⟨rfl, ?_, fun i => ?_, fun i => ?_, fun i => ?_, fun i => ?_⟩
  · rw [tree_drop]
    simp only [DirTree.detach, hp]
    rfl
  all_goals rw [tree_drop, hnode]

/-- Where there is no room a subdirectory is counted without nodes, if it is counted. -/
theorem add_full (hs : answers.Sound) (hroom : target.treeMaxDirectories ≤ m.st.tree.nodes.length) (node : Nat)
    (subdir : Subdir) :
    (m.add target answers node subdir).handed = m.handed ∧ (m.add target answers node subdir).st.handles = m.st.handles ∧
      ((m.add target answers node subdir).st.tree = m.st.tree ∨
        (m.add target answers node subdir).st.tree = m.st.tree.modifyNode node fun n => { n with isSealed := true }) := by
  unfold Merge.add
  cases hw : walkNew target answers m.st.tree node subdir.name with
  | none => exact ⟨rfl, rfl, .inl rfl⟩
  | some p =>
    obtain ⟨sub, shared⟩ := p
    have hpos := (walkNew_walked hs.walks hw).shape.pos
    dsimp only
    rw [if_neg (show ¬m.st.tree.nodes.length + sub.nodes.length ≤ target.treeMaxDirectories by omega)]
    exact ⟨rfl, rfl, .inr rfl⟩

theorem sameKeys_add (hs : answers.Sound) (hroom : target.treeMaxDirectories ≤ m.st.tree.nodes.length) (node : Nat)
    (subdir : Subdir) :
    SameKeys m.st (m.add target answers node subdir).st ∧ SameLinks m.st.tree (m.add target answers node subdir).st.tree := by
  obtain ⟨-, hh, ht | ht⟩ := add_full hs hroom node subdir
  · refine ⟨⟨hh, by rw [ht], ?_, ?_, ?_, ?_⟩, by rw [ht]; exact .refl _⟩ <;> exact fun i => by rw [ht]
  · have hnode : ∀ {α : Type} (f : DirNode → α), (∀ n : DirNode, f { n with isSealed := true } = f n) →
        ∀ i, f ((m.add target answers node subdir).st.tree.node i) = f (m.st.tree.node i) := by
      intro α f hf i
      rw [ht, DirTree.node_modifyNode]
      split
      · exact hf _
      · rfl
    refine ⟨⟨hh, by rw [ht]; rfl, hnode DirNode.name fun _ => rfl, hnode DirNode.parent fun _ => rfl, hnode DirNode.ino fun _ => rfl,
      hnode DirNode.mtime fun _ => rfl⟩, ?_⟩
    rw [ht]
    exact .modifyNode m.st.tree node (f := fun n => { n with isSealed := true }) fun _ => rfl

/-- Where there is no room a step changes no directory's fate. -/
theorem outlasts_step (hs : answers.Sound) (hroom : target.treeMaxDirectories ≤ m.st.tree.nodes.length)
    (h : Merging node all children subdirs m)
    (hstep : MergeStep target answers node all children subdirs m children' subdirs' m') (i : Nat) :
    Outlasts answers all children' m'.st i ↔ Outlasts answers all children m.st i := by
  unfold Outlasts
  cases hstep with
  | @keep child children subdir subdirs _ hname hsame =>
    have hk := sameKeys_keep m child subdir
    have hstays : ¬Gone answers all m.st child := by
      intro hg
      obtain ⟨done, hall, -⟩ := h.taken
      have hmem : subdir ∈ all := by rw [hall]; simp
      exact Bool.false_ne_true (hsame.symm.trans (hg subdir hmem hname.symm))
    simp only [hk.gone, hk.parentOf, (sameShape_keep m child subdir).alive, List.mem_cons]
    exact and_congr_right fun _ => ⟨fun ho c hc hg => by
      rcases hc with rfl | hc
      · exact absurd hg hstays
      · exact ho c hc hg, fun ho c hc => ho c (.inr hc)⟩
  | @drop child children subdirs _ hgone =>
    have hk := sameKeys_drop h
    obtain ⟨ha, hp, -, -⟩ := h.child
    simp only [hk.gone, hk.parentOf, List.mem_cons]
    rw [tree_drop, h.shape.alive_detach ha hp, and_assoc]
    exact and_congr_right fun _ => ⟨fun ho c hc hg => by
      rcases hc with rfl | hc
      · exact ho.1
      · exact ho.2 c hc hg, fun ho => ⟨ho child (.inl rfl) hgone, fun c hc => ho c (.inr hc)⟩⟩
  | @add _ subdir _ _ hfresh =>
    obtain ⟨hk, hl⟩ := sameKeys_add hs hroom node subdir
    simp only [hk.gone, hk.parentOf, hl.shape.alive]

/-- Where there is no room a step changes no file's fate: the links a dropped child takes along are
freed with the holders that outlast it. -/
theorem retained_step (hs : answers.Sound) (hroom : target.treeMaxDirectories ≤ m.st.tree.nodes.length)
    (h : Merging node all children subdirs m)
    (hstep : MergeStep target answers node all children subdirs m children' subdirs' m') :
    Retained answers all node here children' m' inode ↔ Retained answers all node here children m inode := by
  have hout := outlasts_step hs hroom h hstep
  have htaken : ∀ owner, TakenOver answers all node here children' m'.st inode owner ↔
      TakenOver answers all node here children m.st inode owner := by
    intro owner
    unfold TakenOver
    simp only [hout]
  unfold Retained
  simp only [htaken, hout]
  cases hstep with
  | @keep child _ subdir _ _ hname hsame => rfl
  | @add _ subdir _ _ hfresh =>
    rw [(add_full hs hroom node subdir).1, (sameKeys_add hs hroom node subdir).2.links]
  | @drop child _ _ _ hgone =>
    obtain ⟨ha, hp, -, -⟩ := h.child
    have hlinks := DirTree.links_detach hp
    have hhanded := DirTree.handed_detach hp
    -- a holder that outlasts the re-read is none the detached subtree had
    have hpruned : ∀ owner, TakenOver answers all node here (child :: children') m.st inode ((m.drop child).st.tree.pruneOthers owner) ↔
        TakenOver answers all node here (child :: children') m.st inode owner := by
      intro owner
      unfold TakenOver DirTree.pruneOthers
      refine exists_congr fun other => ?_
      rw [List.mem_filter]
      exact ⟨fun ho => ⟨ho.1.1, ho.2⟩, fun ho => ⟨⟨ho.1, ((hout other).2 ho.2.1).1⟩, ho.2⟩⟩
    have hget : ∀ owner', (m.drop child).st.tree.links.get inode = some owner' ↔ ∃ owner, m.st.tree.links.get inode = some owner ∧
        ((m.drop child).st.tree.node owner.node).alive = true ∧ owner' = (m.drop child).st.tree.pruneOthers owner := by
      intro owner'
      rw [tree_drop, hlinks, Table.get_retain, Option.bind_eq_some_iff]
      refine exists_congr fun owner => and_congr_right fun _ => ?_
      split
      · rename_i halive
        rw [Option.some.injEq, eq_comm]
        exact ⟨fun he => ⟨halive, he⟩, fun he => he.2⟩
      · rename_i hdead
        exact ⟨fun he => (by cases he), fun he => absurd he.1 hdead⟩
    have hmem : ∀ owner', (inode, owner') ∈ (m.drop child).handed ↔ (inode, owner') ∈ m.handed ∨
        ∃ owner, m.st.tree.links.get inode = some owner ∧
          ((m.drop child).st.tree.node owner.node).alive = false ∧ owner' = (m.drop child).st.tree.pruneOthers owner := by
      intro owner'
      show (inode, owner') ∈ m.handed ++ (m.st.tree.detach child).2 ↔ _
      rw [List.mem_append, hhanded, List.mem_filterMap]
      refine or_congr_right ⟨?_, ?_⟩
      · rintro ⟨e, he, heq⟩
        split at heq
        · cases heq
        · rename_i hdead
          cases heq
          exact ⟨e.2, Table.get_eq_some.2 he, Bool.eq_false_of_not_eq_true hdead, rfl⟩
      · rintro ⟨owner, ho, hdead, rfl⟩
        refine ⟨(inode, owner), Table.get_eq_some.1 ho, ?_⟩
        rw [if_neg (Bool.not_eq_true _ ▸ hdead)]
        rfl
    constructor
    · rintro (⟨owner', ho', hcase⟩ | ⟨owner', ho', htake⟩)
      · obtain ⟨owner, ho, -, rfl⟩ := (hget owner').1 ho'
        exact .inl ⟨owner, ho, hcase.imp id (hpruned owner).1⟩
      · rcases (hmem owner').1 ho' with ho' | ⟨owner, ho, -, rfl⟩
        · exact .inr ⟨owner', ho', htake⟩
        · exact .inl ⟨owner, ho, .inr ((hpruned owner).1 htake)⟩
    · rintro (⟨owner, ho, hcase⟩ | ⟨owner, ho, htake⟩)
      · cases halive : ((m.drop child).st.tree.node owner.node).alive with
        | true => exact .inl ⟨_, (hget _).2 ⟨owner, ho, halive, rfl⟩, hcase.imp id (hpruned owner).2⟩
        | false =>
          have htake := hcase.resolve_left fun hlast => by
            have := ((hout owner.node).2 hlast).1
            rw [halive] at this
            cases this
          exact .inr ⟨_, (hmem _).2 (.inr ⟨owner, ho, halive, rfl⟩), (hpruned owner).2 htake⟩
      · exact .inr ⟨owner, (hmem owner).2 (.inl ho), htake⟩

/-- Once there is no room, a file's fate is settled. -/
theorem retained_run (hs : answers.Sound) (hroom : target.treeMaxDirectories ≤ m.st.tree.nodes.length)
    (h : Merging node all children subdirs m) (hr : MergeRun target answers node children subdirs m children' subdirs' m') :
    Retained answers all node here children' m' inode ↔ Retained answers all node here children m inode := by
  have hrun := mergeRun_rule hs.walks (fun children' _ m' => target.treeMaxDirectories ≤ m'.st.tree.nodes.length ∧
    (Retained answers all node here children' m' inode ↔ Retained answers all node here children m inode)) ?_ hr h
    ⟨hroom, Iff.rfl⟩
  · exact hrun.2.2
  · intro children₁ subdirs₁ m₁ children₂ subdirs₂ m₂ h₁ hstep ⟨hroom₁, hsame⟩
    refine ⟨?_, (retained_step hs hroom₁ h₁ hstep).trans hsame⟩
    cases hstep with
    | @keep child _ subdir _ _ hname hkept => rw [(sameShape_keep m₁ child subdir).length]; exact hroom₁
    | drop hgone => rw [tree_drop, DirTree.length_detach]; exact hroom₁
    | @add _ subdir _ _ hfresh => rw [(sameKeys_add hs hroom₁ node subdir).2.shape.length]; exact hroom₁

end Steps

/-! ## A file counted once -/

section Relist

variable {target : Target} {answers : Answers} {st : TreeState} {node : Nat} {listing : Listing} {children : List Nat}
  {subdirs : List Subdir} {m : Merge} {inode : Inode}

theorem mem_listedLinks (st : TreeState) (node : Nat) (listing : Listing) (inode : Inode) :
    inode ∈ listedLinks st node listing ↔ inode ∈ listing.links.map ListedLink.inode := by
  have hsettle : ∀ (s : Settling) (link : ListedLink), (s.settle st.tree node link).here =
      if s.here.contains link.inode then s.here else s.here ++ [link.inode] := by
    intro s link
    unfold Settling.settle
    dsimp only
    split
    · rfl
    · split
      · split
        · rfl
        · split
          · split <;> split <;> rfl
          · rfl
      · rfl
  have hfold : ∀ (links : List ListedLink) (s : Settling), inode ∈ (links.foldl (Settling.settle st.tree node) s).here ↔
      inode ∈ s.here ∨ inode ∈ links.map ListedLink.inode := by
    intro links
    induction links with
    | nil => simp
    | cons link links ih =>
      intro s
      rw [List.foldl_cons, ih, hsettle, List.map_cons, List.mem_cons, ← or_assoc]
      refine or_congr_left ?_
      split
      · rename_i hc
        exact ⟨.inl, fun h => h.elim id fun he => he ▸ List.contains_iff_mem.1 hc⟩
      · rw [List.mem_append, List.mem_singleton]
  unfold listedLinks settleListed
  rw [hfold]
  simp

/-- In the end the tree counts a file iff, when there was no room any more, something retained it. -/
theorem ownerAlive_relist (hs : answers.Sound) (h : Owned st.tree) (ha : (st.tree.node node).alive = true)
    (hu : (st.tree.node node).isSealed = false) (hl : readListing target answers st node = .ok listing)
    (hr : MergeRun target answers node (st.tree.node node).children listing.subdirs (startMerge st node listing) children subdirs m)
    (hroom : target.treeMaxDirectories ≤ m.st.tree.nodes.length) :
    TreeState.ownerAlive (relist target answers st node).1.tree inode = true ↔
      Retained answers listing.subdirs node (listing.links.map ListedLink.inode) children m inode := by
  have hend := hr.through (mergeRun_merged target answers st node listing)
  obtain ⟨hm, -⟩ := owned_mergeRun hs h ha hl hr
  obtain ⟨-, ho⟩ := owned_mergeRun hs h ha hl (mergeRun_merged target answers st node listing)
  obtain ⟨hands, hsame, he⟩ := applyAll_hands target answers st node listing
  have hrelist : relist target answers st node = applyAll target answers st node listing := by
    unfold relist
    rw [ha, hu, hl]
    rfl
  rw [← retained_run hs hroom hm hend, hrelist, he, ownerAlive_hands, hsame.ownerAlive]
  generalize merged target answers st node listing = last at ho hsame
  have htake : ∀ owner : LinkOwner,
      (∃ other ∈ owner.others, takesOver hands.tree node (listedLinks st node listing) inode other = true) ↔
        TakenOver answers listing.subdirs node (listing.links.map ListedLink.inode) [] last.st inode owner := by
    intro owner
    refine exists_congr fun other => and_congr_right fun _ => ?_
    unfold takesOver Outlasts
    rw [hsame.shape.alive, ← mem_listedLinks st node listing, Bool.and_eq_true, Bool.or_eq_true, decide_eq_true_eq,
      List.contains_iff_mem]
    exact and_congr_left fun _ => ⟨fun h => ⟨h, fun _ hc => absurd hc List.not_mem_nil⟩, And.left⟩
  simp only [htake]
  unfold Retained
  refine or_congr_left ?_
  unfold TreeState.ownerAlive
  cases hg : last.st.tree.links.get inode with
  | none => simp
  | some owner =>
    have halive := ho inode owner hg
    exact ⟨fun _ => ⟨owner, rfl, .inl ⟨halive, fun _ hc => absurd hc List.not_mem_nil⟩⟩, fun _ => halive⟩

/-- A new subdirectory that a re-read of `node` counts without nodes. The merge comes to it with the old
children `children` left and `m` done; a walk finds `found`, less what the tree counts already `sub`. -/
structure PastCap (target : Target) (answers : Answers) (st : TreeState) (node : Nat) (listing : Listing) (children : List Nat)
    (subdir : Subdir) (subdirs : List Subdir) (m : Merge) (found sub : DirTree) : Prop where
  alive : (st.tree.node node).alive = true
  unsealed : (st.tree.node node).isSealed = false
  listed : readListing target answers st node = .ok listing
  run : MergeRun target answers node (st.tree.node node).children listing.subdirs (startMerge st node listing) children
    (subdir :: subdirs) m
  /-- It comes next. -/
  next : ∀ child ∈ children.head?, childOrder answers m.st child subdir = .gt
  walk : answers.walk (walkTarget target answers m.st.tree node subdir.name) = some found
  new : ∃ shared, walkNew target answers m.st.tree node subdir.name = some (sub, shared)
  full : ¬m.st.tree.nodes.length + sub.nodes.length ≤ target.treeMaxDirectories

/-- The bytes added for a subdirectory count a file that its walk counted: below all tracked
directories, or in one, and not taken out. -/
def InBytes (sub : DirTree) (inode : Inode) (link : Link) : Prop := link.direct = false ∨ (sub.links.get inode).isSome = true

/-- A file is counted once: in the bytes added for the subdirectory, or under an alive owner. -/
def CountedOnce (sub after : DirTree) (inode : Inode) (link : Link) : Prop :=
  Xor (InBytes sub inode link) (TreeState.ownerAlive after inode = true)

section PastCap

variable {subdir : Subdir} {found sub : DirTree} {host : Host} {hash : Bytes → Nat} {counted : Table Inode (Nat × Link)}
  {offset : Nat} {link : Link}

theorem PastCap.sub_eq (h : PastCap target answers st node listing children subdir subdirs m found sub) :
    sub = (takenLinks m.st.tree (found.renameRoot subdir.name)).foldl untake (found.renameRoot subdir.name) := by
  obtain ⟨shared, hnew⟩ := h.new
  obtain ⟨found', hf, hsub, -⟩ := walkNew_eq_some hnew
  cases h.walk.symm.trans hf
  exact hsub

/-- Past the budget there is no room for anything. -/
theorem PastCap.noRoom (h : PastCap target answers st node listing children subdir subdirs m found sub)
    (hscan : Walk.CountScan host (walkTarget target answers m.st.tree node subdir.name) hash found counted) :
    target.treeMaxDirectories ≤ m.st.tree.nodes.length := by
  have hwithin := hscan.within rfl
  have hlen : sub.nodes.length = found.nodes.length := by
    rw [h.sub_eq, (sameShape_untakes _ _).length]
    exact DirTree.length_modifyNode _ _ _
  have hfull := h.full
  rw [hlen] at hfull
  change found.nodes.length ≤ max 1 (target.treeMaxDirectories - m.st.tree.nodes.length) at hwithin
  omega

/-- The file is taken out of the bytes if the walk counted it in a directory it tracked, and the tree
counts it under an alive owner. -/
theorem PastCap.inBytes (h : PastCap target answers st node listing children subdir subdirs m found sub)
    (hscan : Walk.CountScan host (walkTarget target answers m.st.tree node subdir.name) hash found counted)
    (hc : counted.get inode = some (offset, link)) :
    InBytes sub inode link ↔ ¬(link.direct = true ∧ TreeState.ownerAlive m.st.tree inode = true) := by
  unfold InBytes
  cases hd : link.direct with
  | false => simp
  | true =>
    have howner : (found.links.get inode).isSome = true := (hscan.owner inode).2 ⟨(offset, link), hc, hd⟩
    obtain ⟨owner, ho⟩ := Option.isSome_iff_exists.1 howner
    have htaken : inode ∈ (takenLinks m.st.tree (found.renameRoot subdir.name)).map Prod.fst ↔
        TreeState.ownerAlive m.st.tree inode = true := by
      rw [List.mem_map]
      constructor
      · rintro ⟨e, he, rfl⟩
        exact (List.mem_filter.1 he).2
      · intro halive
        exact ⟨(inode, owner), List.mem_filter.2 ⟨Table.get_eq_some.1 ho, halive⟩, rfl⟩
    have hget : (found.renameRoot subdir.name).links.get inode = some owner := ho
    rw [h.sub_eq, get_links_untakes, hget]
    by_cases halive : TreeState.ownerAlive m.st.tree inode = true
    · rw [if_pos (htaken.2 halive)]
      simp [halive]
    · rw [if_neg (fun hm => halive (htaken.1 hm))]
      simp [halive]

/-- A file in a subdirectory past the budget is counted once iff it is taken out of the subdirectory's
bytes just when the tree goes on counting it. -/
theorem counted_once_iff (hreach : LiveReached st) (hs : answers.Sound)
    (h : PastCap target answers st node listing children subdir subdirs m found sub)
    (hscan : Walk.CountScan host (walkTarget target answers m.st.tree node subdir.name) hash found counted)
    (hc : counted.get inode = some (offset, link)) :
    CountedOnce sub (relist target answers st node).1.tree inode link ↔
      ((link.direct = true ∧ TreeState.ownerAlive m.st.tree inode = true) ↔
        Retained answers listing.subdirs node (listing.links.map ListedLink.inode) children m inode) := by
  unfold CountedOnce
  rw [h.inBytes hscan hc, ownerAlive_relist hs (owned_of_reached hreach) h.alive h.unsealed h.listed h.run (h.noRoom hscan)]
  rw [xor_iff_iff_not, not_iff_not]

end PastCap

end Relist

/-! ## A directory renamed -/

open Walk

/-- A file with two links, one of them elsewhere. -/
def linkedEntry : Entry :=
  { name := [120], stat := .ok { kind := .file, dev := 1, ino := 7, nlink := 2, blocks := 512, size := 10, mtime := 0 }, handle := none }

/-- The directory that holds it. -/
def holdingStat : Stat := { kind := .directory, dev := 1, ino := 3, nlink := 2, blocks := 0, size := 2, mtime := 0 }

def topStat : Stat := { kind := .directory, dev := 1, ino := 2, nlink := 3, blocks := 0, size := 2, mtime := 0 }

/-- A file system with one such directory in `/d`, by this name. -/
def holdingHost (name : Bytes) : Host where
  stat path _ answer := answer = .ok (if path = [slash, 100] then topStat else holdingStat)
  handle _ handle := handle = none
  listing path answer := answer = .ok
    { entries := if path = [slash, 100] then [{ name := name, stat := .ok holdingStat, handle := none }] else [linkedEntry], fail := none }
  answers _ := ⟨_, rfl⟩

/-- A target with room for two directories. -/
def smallTarget : Target := { emptyWalk.target with treeMaxDirectories := 2 }

def holdingNode (name : Bytes) (parent : Option Nat) (depth : Nat) : DirNode where
  name := name
  parent := parent
  depth := depth
  ino := 3
  ownBlocks := 0
  ownApparent := 2
  mtime := 0
  newest := 0
  direct := { blocks := 512, apparent := 10, files := 1 }
  sub := { blocks := 512, apparent := 10, files := 1 }
  children := []
  isSealed := false
  pruned := false
  alive := true

def holdingTree : DirTree where
  displayRoot := [slash, 100]
  scanRoot := [slash, 100]
  rootDev := 1
  nodes := [{ holdingNode [] none 0 with
      ino := 2
      direct := { apparent := 2, dirs := 1 }
      sub := { blocks := 512, apparent := 12, files := 1, dirs := 1 }
      children := [1] }, holdingNode [98] (some 0) 1]
  links := Table.ofList [((1, 7), { node := 1, blocks := 512, apparent := 10, others := [] })]
  handles := []
  plain := []
  untrackedLinks := []

set_option maxRecDepth 10000 in
theorem scan_holding : ∃ counted, CountScan (holdingHost [98]) smallTarget List.length holdingTree counted := by
  have h0 : Walking (holdingHost [98]) (start smallTarget topStat List.length) topStat none (n := 0) _ := .initial false
  have h1 := WorkPool.Reachable.step h0 (.worker (.spawnDone (i := 0) rfl (by decide)))
  have h2 := WorkPool.Reachable.step h1 (.worker (.retire (i := 0) rfl))
  have h3 := WorkPool.Reachable.step h2 (.worker (.more (i := 0) rfl (.opened rfl)))
  have h4 := WorkPool.Reachable.step h3 (.worker (.more (i := 0) rfl (.entry rfl rfl)))
  have h5 := WorkPool.Reachable.step h4 (.worker (.done (i := 0) rfl (.closed rfl rfl)))
  have h6 := WorkPool.Reachable.step h5 (.worker (.keep (i := 0) rfl))
  have h7 := WorkPool.Reachable.step h6 (.worker (.more (i := 0) rfl (.opened rfl)))
  have h8 := WorkPool.Reachable.step h7 (.worker (.more (i := 0) rfl (.entry rfl rfl)))
  have h9 := WorkPool.Reachable.step h8 (.worker (.done (i := 0) rfl (.closed rfl rfl)))
  have h10 := WorkPool.Reachable.step h9 (.worker (.retire (i := 0) rfl))
  exact ⟨_, .walked rfl rfl rfl (by simp [RootHandle, smallTarget, emptyWalk]) (by decide) (by decide) rfl h10 (by decide) rfl rfl⟩

/-- The target `/d/a` is walked as when there is no room. -/
def crampedTarget : Target :=
  { smallTarget with
    displayPath := [slash, 100, slash, 97]
    scanPath := [slash, 100, slash, 97]
    reportDepth := 0
    treeMaxDirectories := 0 }

/-- What a walk of it finds. -/
def movedTree : DirTree where
  displayRoot := [slash, 100, slash, 97]
  scanRoot := [slash, 100, slash, 97]
  rootDev := 1
  nodes := [holdingNode [] none 0]
  links := Table.ofList [((1, 7), { node := 0, blocks := 512, apparent := 10, others := [] })]
  handles := []
  plain := []
  untrackedLinks := []

def movedLink : Link := { key := 6, node := 0, direct := true, blocks := 512, apparent := 10, entry := some 0 }

set_option maxRecDepth 4000 in
theorem scan_moved : ∃ counted, CountScan (holdingHost [97]) crampedTarget List.length movedTree counted ∧
    counted.get (1, 7) = some (0, movedLink) := by
  have h0 : Walking (holdingHost [97]) (start crampedTarget holdingStat List.length) holdingStat none (n := 0) _ := .initial false
  have h1 := WorkPool.Reachable.step h0 (.worker (.spawnDone (i := 0) rfl (by decide)))
  have h2 := WorkPool.Reachable.step h1 (.worker (.retire (i := 0) rfl))
  have h3 := WorkPool.Reachable.step h2 (.worker (.more (i := 0) rfl (.opened rfl)))
  have h4 := WorkPool.Reachable.step h3 (.worker (.more (i := 0) rfl (.entry rfl rfl)))
  have h5 := WorkPool.Reachable.step h4 (.worker (.done (i := 0) rfl (.closed rfl rfl)))
  have h6 := WorkPool.Reachable.step h5 (.worker (.retire (i := 0) rfl))
  exact ⟨_, .walked rfl rfl rfl (by simp [RootHandle, crampedTarget, smallTarget, emptyWalk]) (by decide) (by decide) rfl h6
    (by decide) rfl rfl, rfl⟩

theorem proper_holdingHost {name : Bytes} (h : ProperName name) : (holdingHost name).listing.Proper := by
  intro path reading hr
  cases hr
  refine ⟨by split <;> exact List.nodup_singleton _, fun e he => ?_⟩
  dsimp only at he
  split at he
  · rw [List.mem_singleton.1 he]
    exact .inr h
  · rw [List.mem_singleton.1 he]
    exact .inr (by decide)

/-- A directory that holds the file, as a re-read lists it. -/
def holdingSubdir (name : Bytes) : Subdir := { name := name, ino := 3, blocks := 0, apparent := 2, mtime := 0 }

/-- A re-read of `/d` that lists directories by these names. -/
def holdingAnswers (names : List Bytes) (walk : Target → Option DirTree) : Answers where
  byHandle := false
  opened := .ok (topStat, { entries := names.map fun name => { name := name, stat := .ok holdingStat, handle := none }, fail := none })
  dirHandle _ := none
  walk := walk

open Classical in
/-- The answers when there is no room for `/d/a`. -/
noncomputable def crampedAnswers (names : List Bytes) : Answers :=
  holdingAnswers names fun target => if target = crampedTarget then some movedTree else none

def holdingListing (names : List Bytes) : Listing where
  direct := { apparent := 2 * names.length, dirs := names.length }
  subdirs := names.map holdingSubdir
  own := ⟨0, 2, 0⟩
  newest := 0

/-- The state after the scan, and the start of a merge into it. -/
def holdingState : TreeState := TreeState.new holdingTree 1

def holdingMerge : Merge := startMerge holdingState 0 (holdingListing [[97]])

/-- What is added for `/d/a`. -/
def movedSub : DirTree := (takenLinks holdingMerge.st.tree (movedTree.renameRoot [97])).foldl untake (movedTree.renameRoot [97])

theorem reached_holding : LiveReached holdingState := by
  obtain ⟨counted, h⟩ := scan_holding
  exact .scan h (proper_holdingHost (by decide)) 1

theorem sound_cramped {names : List Bytes} (hn : names.Nodup) (hp : ∀ name ∈ names, ProperName name) : (crampedAnswers names).Sound := by
  refine ⟨fun target tree h => ?_, fun own reading h => ?_⟩
  · obtain ⟨counted, hscan, -⟩ := scan_moved
    unfold crampedAnswers holdingAnswers at h
    dsimp only at h
    split at h
    · rename_i ht
      cases h
      exact ⟨_, _, counted, proper_holdingHost (by decide), ht ▸ hscan⟩
    · cases h
  · cases h
    refine ⟨by rw [List.map_map]; exact (List.map_id names).symm ▸ hn, fun e he => ?_⟩
    obtain ⟨name, hm, rfl⟩ := List.mem_map.1 he
    exact .inr (hp name hm)

theorem walk_cramped (names : List Bytes) :
    (crampedAnswers names).walk (walkTarget smallTarget (crampedAnswers names) holdingMerge.st.tree 0 [97]) = some movedTree :=
  if_pos rfl

/-- `/d/a` comes first, past the budget. -/
theorem pastCap_cramped (names : List Bytes) (hl : readListing smallTarget (crampedAnswers ([97] :: names)) holdingState 0 =
      .ok (holdingListing ([97] :: names))) :
    PastCap smallTarget (crampedAnswers ([97] :: names)) holdingState 0 (holdingListing ([97] :: names)) [1] (holdingSubdir [97])
      (names.map holdingSubdir) holdingMerge movedTree movedSub where
  alive := rfl
  unsealed := rfl
  listed := hl
  run := .refl
  next := fun child hc => by
    cases hc
    rfl
  walk := walk_cramped _
  new := by
    refine ⟨[((1, 7), [0])], ?_⟩
    unfold walkNew
    rw [show (holdingSubdir [97]).name = [97] from rfl, walk_cramped]
    rfl
  full := by decide

theorem relist_cramped : relist smallTarget (crampedAnswers [[97]]) holdingState 0 =
    relist smallTarget (holdingAnswers [[97]] fun _ => some movedTree) holdingState 0 := by
  have hadd : holdingMerge.add smallTarget (crampedAnswers [[97]]) 0 (holdingSubdir [97]) =
      holdingMerge.add smallTarget (holdingAnswers [[97]] fun _ => some movedTree) 0 (holdingSubdir [97]) := by
    unfold Merge.add walkNew
    rw [show (holdingSubdir [97]).name = [97] from rfl, walk_cramped]
    rfl
  have hmerge : mergeListing smallTarget (crampedAnswers [[97]]) holdingState 0 (holdingListing [[97]]) =
      mergeListing smallTarget (holdingAnswers [[97]] fun _ => some movedTree) holdingState 0 (holdingListing [[97]]) :=
    congrArg (fun m : Merge => (settleLinks holdingState.tree 0 [] (holdingListing [[97]]).direct, m.drop 1)) hadd
  show applyAll smallTarget (crampedAnswers [[97]]) holdingState 0 (holdingListing [[97]]) =
    applyAll smallTarget _ holdingState 0 (holdingListing [[97]])
  unfold applyAll
  rw [hmerge]

/-- `/d/b` is renamed to `/d/a`, past the budget: the file is taken out of what is added, and then
counted nowhere. -/
theorem renamed_file_lost : ¬∀ (st : TreeState) (answers : Answers) (target : Target) (node : Nat) (listing : Listing)
    (children : List Nat) (subdir : Subdir) (subdirs : List Subdir) (m : Merge) (found sub : DirTree) (host : Host)
    (hash : Bytes → Nat) (counted : Table Inode (Nat × Link)) (inode : Inode) (offset : Nat) (link : Link),
    LiveReached st → answers.Sound → PastCap target answers st node listing children subdir subdirs m found sub →
    Walk.CountScan host (walkTarget target answers m.st.tree node subdir.name) hash found counted →
    counted.get inode = some (offset, link) → m.st.untracked.contains inode = false →
    (relist target answers st node).2.rescan = false → CountedOnce sub (relist target answers st node).1.tree inode link := by
  intro h
  obtain ⟨counted, hscan, hc⟩ := scan_moved
  have hquiet : (relist smallTarget (crampedAnswers [[97]]) holdingState 0).2.rescan = false := by
    rw [relist_cramped]
    decide
  have hlost : TreeState.ownerAlive (relist smallTarget (crampedAnswers [[97]]) holdingState 0).1.tree (1, 7) = false := by
    rw [relist_cramped]
    decide
  have hbytes : ¬InBytes movedSub (1, 7) movedLink := by
    unfold InBytes
    decide
  have honce := h _ _ _ _ _ _ _ _ _ _ _ _ _ counted (1, 7) 0 movedLink reached_holding
    (sound_cramped (List.nodup_singleton _) (by decide)) (pastCap_cramped [] rfl) hscan hc rfl hquiet
  rcases honce with ⟨hb, -⟩ | ⟨ha, -⟩
  · exact hbytes hb
  · exact Bool.false_ne_true (hlost.symm.trans ha)

/-- `/d/b` is mounted at `/d/a` too: the file stays counted where it was. -/
theorem counted_once_iff_mounted :
    CountedOnce movedSub (relist smallTarget (crampedAnswers [[97], [98]]) holdingState 0).1.tree (1, 7) movedLink := by
  obtain ⟨counted, hscan, hc⟩ := scan_moved
  refine (counted_once_iff reached_holding (sound_cramped (by decide) (by decide)) (pastCap_cramped [[98]] rfl) hscan hc).2
    ⟨fun _ => .inl ⟨_, rfl, .inl ⟨rfl, fun c hcs hg => ?_⟩⟩, fun _ => by decide⟩
  rw [List.mem_singleton.1 hcs] at hg
  exact absurd (hg (holdingSubdir [98]) (by decide) rfl) (by decide)

end StorageHarvester
