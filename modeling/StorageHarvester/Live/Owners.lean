/-
Who counts a multiply linked file through the re-reads of a live tree: every owner stays alive, and a
re-read merges into a well-shaped tree whatever it lists.
-/
import StorageHarvester.Live.Merge
import StorageHarvester.Scan.Counted

namespace StorageHarvester

open Forest

/-! ## What a directory lists -/

namespace Listing

/-- An entry read lists one subdirectory by its name, or none. -/
theorem subdirs_readEntry (target : Target) (displayPath : Bytes) (rootDev : Nat) (recordPlain : Bool) (l : Listing) (e : Entry) :
    (readEntry target displayPath rootDev recordPlain l e).subdirs = l.subdirs ∨
      Walk.isDot e.name = false ∧ ∃ subdir : Subdir, subdir.name = e.name ∧
        (readEntry target displayPath rootDev recordPlain l e).subdirs = l.subdirs ++ [subdir] := by
  unfold readEntry
  split
  · exact .inl rfl
  · rename_i hdot
    split
    · exact .inl rfl
    · split
      · exact .inl rfl
      · split
        · exact .inl rfl
        · dsimp only
          split
          · exact .inr ⟨Bool.eq_false_of_not_eq_true hdot, _, rfl, rfl⟩
          · split <;> exact .inl rfl

/-- Subdirectories are listed by names of entries, each once. -/
theorem subdirs_readEntries (target : Target) (displayPath : Bytes) (rootDev : Nat) (recordPlain : Bool) :
    ∀ (entries : List Entry) (l : Listing),
      ∃ found, (entries.foldl (readEntry target displayPath rootDev recordPlain) l).subdirs = l.subdirs ++ found ∧
        (found.map Subdir.name).Sublist (entries.map Entry.name) ∧
        ∀ subdir ∈ found, ∃ e ∈ entries, Walk.isDot e.name = false ∧ subdir.name = e.name
  | [], l => ⟨[], (List.append_nil _).symm, .slnil, fun _ h => absurd h List.not_mem_nil⟩
  | e :: entries, l => by
    obtain ⟨found, hf, hsub, hmem⟩ := subdirs_readEntries target displayPath rootDev recordPlain entries
      (readEntry target displayPath rootDev recordPlain l e)
    have hlater : ∀ subdir ∈ found, ∃ e' ∈ e :: entries, Walk.isDot e'.name = false ∧ subdir.name = e'.name := by
      intro subdir hs
      obtain ⟨e', he', h⟩ := hmem subdir hs
      exact ⟨e', List.mem_cons_of_mem _ he', h⟩
    rw [List.foldl_cons, hf, List.map_cons]
    rcases subdirs_readEntry target displayPath rootDev recordPlain l e with he | ⟨hdot, subdir, hname, he⟩
    · exact ⟨found, by rw [he], hsub.cons _, hlater⟩
    · refine ⟨subdir :: found, by rw [he, List.append_assoc]; rfl, ?_, fun s hs => ?_⟩
      · rw [List.map_cons, hname]
        exact hsub.cons_cons _
      · rcases List.mem_cons.1 hs with rfl | hs
        · exact ⟨e, List.mem_cons_self .., hdot, hname⟩
        · exact hlater s hs

/-- A directory whose entries have proper names lists its subdirectories in their strict order. -/
theorem subdirs_sorted {target : Target} {scanPath displayPath : Bytes} {rootDev : Nat} {recordPlain : Bool} {opened : Opened}
    {listing : Listing} (h : readDirect target scanPath displayPath rootDev recordPlain opened = .ok listing)
    (hp : ∀ own reading, opened = .ok (own, reading) → reading.Proper) :
    (listing.subdirs.Pairwise fun a b => compare a.name b.name = .lt) ∧ ∀ subdir ∈ listing.subdirs, ProperName subdir.name := by
  unfold readDirect at h
  split at h
  · cases h
  · split at h
    · cases h
    · rename_i own reading
      split at h
      · cases h
      · cases h
        dsimp only
        have hproper := hp own reading rfl
        generalize hl : (⟨{}, [], [], [], ⟨own.blocks, own.size, own.mtime⟩, own.mtime⟩ : Listing) = l
        obtain ⟨found, hf, hsub, hmem⟩ := subdirs_readEntries target displayPath rootDev recordPlain reading.entries l
        have hnil : l.subdirs = [] := by rw [← hl]
        rw [hf, hnil, List.nil_append]
        refine ⟨pairwise_lt_insertionSort Subdir.name (hproper.nodup.sublist hsub), fun subdir hs => ?_⟩
        obtain ⟨e, he, hdot, hname⟩ := hmem subdir ((List.perm_insertionSort _ found).mem_iff.1 hs)
        rw [hname]
        exact (hproper.names e he).resolve_left (by rw [hdot]; exact Bool.false_ne_true)

end Listing

/-! ## The start of the merge -/

section Start

variable {target : Target} {answers : Answers} {st : TreeState} {node : Nat} {listing : Listing}

/-- A directory reads entries with proper names, each once. -/
def Answers.ProperEntries (answers : Answers) : Prop :=
  ∀ own reading, answers.opened = .ok (own, reading) → reading.Proper

theorem sameShape_startMerge (st : TreeState) (node : Nat) (listing : Listing) :
    SameShape st.tree (startMerge st node listing).st.tree := sameShape_of_nodes rfl

theorem merging_start (ho : answers.ProperEntries) (h : Shape st.tree) (hn : st.tree.ProperNames)
    (ha : (st.tree.node node).alive = true) (hl : readListing target answers st node = .ok listing) :
    Merging node listing.subdirs (st.tree.node node).children listing.subdirs (startMerge st node listing) := by
  obtain ⟨hsorted, hproper⟩ := Listing.subdirs_sorted hl ho
  have hs := sameShape_startMerge st node listing
  refine ⟨h.congr hs, hn, ha, List.Sublist.refl _, fun c hc => .inl hc, ⟨[], rfl, ?_⟩, hsorted, hproper⟩
  exact fun _ hs => absurd hs List.not_mem_nil

end Start

/-! ## Owners -/

/-- A tree with the same shape and links. -/
structure SameLinks (t u : DirTree) : Prop where
  shape : SameShape t u
  links : u.links = t.links

section SameLinks

variable {t u v : DirTree}

theorem SameLinks.refl (t : DirTree) : SameLinks t t := ⟨.refl t, rfl⟩

theorem SameLinks.trans (h : SameLinks t u) (h' : SameLinks u v) : SameLinks t v :=
  ⟨h.shape.trans h'.shape, h'.links.trans h.links⟩

theorem SameLinks.modifyNode (t : DirTree) (i : Nat) {f : DirNode → DirNode} (hf : ∀ n, (f n).shape = n.shape) :
    SameLinks t (t.modifyNode i f) := ⟨DirTree.sameShape_modifyNode t i hf, rfl⟩

theorem SameLinks.ownersAlive (h : SameLinks t u) (ho : t.OwnersAlive) : u.OwnersAlive := by
  intro inode owner hi
  rw [h.shape.alive]
  exact ho inode owner (h.links ▸ hi)

theorem SameLinks.ownerAlive (h : SameLinks t u) (inode : Inode) : TreeState.ownerAlive u inode = TreeState.ownerAlive t inode := by
  unfold TreeState.ownerAlive
  rw [h.links]
  cases t.links.get inode with
  | none => rfl
  | some owner => exact h.shape.alive owner.node

theorem sameLinks_propagate (t : DirTree) (i : Nat) (d : Delta) : SameLinks t (t.propagate i d) :=
  ⟨DirTree.sameShape_propagate t i d, links_propagate t i d⟩

theorem sameLinks_grow (t : DirTree) (i : Nat) (d : Delta) : SameLinks t (t.grow i d) :=
  SameLinks.trans ⟨DirTree.sameShape_applyDirect t i d, DirTree.links_applyDirect t i d⟩ (sameLinks_propagate _ i d)

theorem sameLinks_touch (t : DirTree) (i : Nat) (a : Int) : SameLinks t (t.touch i a) :=
  ⟨DirTree.sameShape_touch t i a, DirTree.links_touch t i a⟩

theorem sameLinks_applyListing (t : DirTree) (node : Nat) (direct : Tally) (moved : Delta) :
    SameLinks t (applyListing t node direct moved) :=
  SameLinks.trans (.modifyNode t node (f := fun n => { n with direct := direct }) fun _ => rfl) (sameLinks_propagate _ _ _)

theorem sameLinks_applyOwn (t : DirTree) (node : Nat) (own : Own) : SameLinks t (applyOwn t node own) := by
  have hown := SameLinks.modifyNode t node (f := fun n =>
    { n with ownBlocks := own.blocks, ownApparent := own.apparent, mtime := own.mtime }) fun _ => rfl
  unfold applyOwn
  dsimp only
  split
  · exact hown
  · split
    · exact hown
    · exact hown.trans (sameLinks_grow _ _ _)

theorem sameLinks_applyWrites (writes : List (Nat × Delta)) (t : DirTree) : SameLinks t (applyWrites t writes) := by
  unfold applyWrites
  induction writes generalizing t with
  | nil => exact .refl t
  | cons e writes ih =>
    rw [List.foldl_cons]
    exact (sameLinks_grow t e.1 e.2).trans (ih _)

end SameLinks

section Settle

variable {tree : DirTree} {node : Nat}

/-- All files of a table are counted in alive directories of the tree. -/
def AliveIn (tree : DirTree) (links : Table Inode LinkOwner) : Prop :=
  ∀ inode owner, links.get inode = some owner → (tree.node owner.node).alive = true

theorem AliveIn.put {links : Table Inode LinkOwner} (h : AliveIn tree links) (inode : Inode) {owner : LinkOwner}
    (ho : (tree.node owner.node).alive = true) : AliveIn tree (links.put inode owner) := by
  intro inode' owner' hi
  rw [Table.get_put] at hi
  split at hi
  · cases hi
    exact ho
  · exact h inode' owner' hi

/-- A file settled is counted in the directory read, or where it was. -/
theorem aliveIn_settle (hn : (tree.node node).alive = true) (s : Settling) (link : ListedLink) (h : AliveIn tree s.links) :
    AliveIn tree (s.settle tree node link).links := by
  unfold Settling.settle
  dsimp only
  split
  · exact h
  · split
    · rename_i owner hget
      have halive := h link.inode owner hget
      split
      · exact h.put _ halive
      · have hown : (if owner.others.contains node then owner else { owner with others := owner.others ++ [node] }).node =
            owner.node := by split <;> rfl
        generalize (if owner.others.contains node then owner else { owner with others := owner.others ++ [node] }) = noted at hown ⊢
        generalize Delta.size (subI64 link.blocks noted.blocks) (subI64 link.apparent noted.apparent) = change
        rw [← hown] at halive
        split
        · exact h.put _ halive
        · exact h.put _ halive
    · exact h.put _ hn

theorem aliveIn_settleListed (hn : (tree.node node).alive = true) (h : tree.OwnersAlive) (listed : List ListedLink)
    (direct : Tally) : AliveIn tree (settleListed tree node listed direct).links := by
  unfold settleListed
  generalize hs : ({ links := tree.links, direct := direct } : Settling) = s
  have halive : AliveIn tree s.links := by rw [← hs]; exact h
  clear hs
  induction listed generalizing s with
  | nil => exact halive
  | cons link listed ih =>
    rw [List.foldl_cons]
    exact ih _ (aliveIn_settle hn s link halive)

/-- What is kept of a table was in it. -/
theorem get_kept {s : Settling} {inode : Inode} {owner : LinkOwner} (h : (s.kept node).get inode = some owner) :
    ∃ owner', s.links.get inode = some owner' ∧ owner.node = owner'.node := by
  unfold Settling.kept at h
  rw [Table.get_retain, Option.bind_eq_some_iff] at h
  obtain ⟨owner', hget, ho⟩ := h
  refine ⟨owner', hget, ?_⟩
  split at ho
  · cases ho
    rfl
  · split at ho
    · cases ho
    · cases ho
      rfl

theorem ownersAlive_startMerge {st : TreeState} (listing : Listing) (hn : (st.tree.node node).alive = true)
    (h : st.tree.OwnersAlive) : (startMerge st node listing).st.tree.OwnersAlive := by
  intro inode owner hi
  obtain ⟨owner', hget, hnode⟩ := get_kept hi
  rw [hnode]
  exact aliveIn_settleListed hn h listing.links listing.direct inode owner' hget

end Settle

/-! ## The merge -/

section Merge

variable {target : Target} {answers : Answers} {node : Nat} {all subdirs subdirs' : List Subdir} {children children' : List Nat}
  {m m' : Merge}

/-- The tree after a step that keeps a child. -/
theorem sameLinks_keep (m : Merge) (child : Nat) (subdir : Subdir) : SameLinks m.st.tree (m.keep child subdir).st.tree :=
  .modifyNode m.st.tree child fun _ => rfl

/-- Noting holders moves no file. -/
theorem get_shareLinks (start : Nat) : ∀ (shared : List (Inode × List Nat)) (t : DirTree) (inode : Inode) (owner : LinkOwner),
    (shared.foldl (shareLink start) t).links.get inode = some owner →
      ∃ owner', t.links.get inode = some owner' ∧ owner.node = owner'.node
  | [], _, _, owner, h => ⟨owner, h, rfl⟩
  | e :: shared, t, inode, owner, h => by
    obtain ⟨owner₁, h₁, hn₁⟩ := get_shareLinks start shared _ inode owner h
    unfold shareLink at h₁
    split at h₁
    · rename_i owner₀ hget
      dsimp only at h₁
      rw [Table.get_put] at h₁
      split at h₁
      · rename_i he
        cases h₁
        exact ⟨owner₀, by rw [he]; exact hget, hn₁⟩
      · exact ⟨owner₁, h₁, hn₁⟩
    · exact ⟨owner₁, h₁, hn₁⟩

/-- A graft's owners are the tree's, or the grafted tree's. -/
theorem get_links_graft {t other : DirTree} {under : Nat} {inode : Inode} {owner : LinkOwner}
    (h : (t.graft under other).1.links.get inode = some owner) :
    t.links.get inode = some owner ∨ ∃ owner', other.links.get inode = some owner' ∧ owner = owner'.offset t.nodes.length := by
  rw [DirTree.links_graft, Table.get_foldl_putNew, Option.or_eq_some_iff] at h
  rcases h with h | ⟨-, h⟩
  · exact .inl h
  · obtain ⟨e, he, rfl⟩ := Option.map_eq_some_iff.1 h
    refine .inr ⟨e.2, ?_, rfl⟩
    unfold Table.get
    rw [he]
    rfl

/-- After each step of the merge every file is counted in an alive directory. -/
theorem ownersAlive_step (hw : answers.FreshWalks) (h : Merging node all children subdirs m)
    (hs : MergeStep target answers node all children subdirs m children' subdirs' m') (ho : m.st.tree.OwnersAlive) :
    m'.st.tree.OwnersAlive := by
  cases hs with
  | @keep child _ subdir _ _ hname hsame => exact (sameLinks_keep m child subdir).ownersAlive ho
  | drop hgone =>
    obtain ⟨ha, hp, -, -⟩ := h.child
    exact DirTree.OwnersAlive.detach hp
  | @add _ subdir _ _ hfresh =>
    rcases add_cases target answers node m subdir with he | ⟨sub, shared, hsub, -, -, he | ⟨t, rfl, he⟩⟩
    · rw [he]
      exact ho
    · rw [he]
      exact (SameLinks.modifyNode m.st.tree node (f := fun n => { n with isSealed := true }) fun _ => rfl).ownersAlive ho
    · have hwk := walkNew_walked hw hsub
      have hnames : ∀ c ∈ (m.st.tree.node node).children, (m.st.tree.node c).name ≠ (sub.node 0).name := by
        rw [hwk.root]
        exact hfresh
      have g := h.shape.graft_spec h.alive hwk.shape.pos hnames
      intro inode owner hi
      rw [he] at hi ⊢
      obtain ⟨owner₁, h₁, hn₁⟩ := get_shareLinks _ shared _ inode owner hi
      rw [hn₁]
      show ((shared.foldl (shareLink m.st.tree.nodes.length) (m.st.tree.graft node sub).1).node owner₁.node).alive = true
      rw [(sameShape_of_nodes (nodes_shareLinks _ shared _)).alive]
      rcases get_links_graft h₁ with h₁ | ⟨owner', h', rfl⟩
      · have hold := ho inode owner₁ h₁
        rw [g.alive_old (DirTree.lt_of_alive hold)]
        exact hold
      · have hlt := hwk.owners inode owner' h'
        show ((m.st.tree.graft node sub).1.node (owner'.node + m.st.tree.nodes.length)).alive = true
        rw [Nat.add_comm, g.alive_new hlt]
        exact hwk.alive _ hlt

end Merge

/-! ## Handing on -/

section Hand

variable {node : Nat} {here : List Inode}

/-- Whether a directory may take a file over: it is alive, and lists the file if it is the one read. -/
def takesOver (tree : DirTree) (node : Nat) (here : List Inode) (inode : Inode) (other : Nat) : Bool :=
  (tree.node other).alive && (other ≠ node || here.contains inode)

/-- The directory that takes a link over, if any. -/
def nextOwner (tree : DirTree) (node : Nat) (here : List Inode) (link : Inode × LinkOwner) : Option Nat :=
  let others := link.2.others.filter (takesOver tree node here link.1)
  if others.contains node then some node else others.head?

theorem nextOwner_some {tree : DirTree} {link : Inode × LinkOwner} {next : Nat} (h : nextOwner tree node here link = some next) :
    next ∈ link.2.others ∧ takesOver tree node here link.1 next = true := by
  have hmem : next ∈ link.2.others.filter (takesOver tree node here link.1) := by
    unfold nextOwner at h
    dsimp only at h
    split at h
    · rename_i hc
      cases h
      exact List.contains_iff_mem.1 hc
    · exact List.mem_of_head? h
  exact List.mem_filter.1 hmem

theorem nextOwner_none {tree : DirTree} {link : Inode × LinkOwner} (h : nextOwner tree node here link = none) :
    ∀ other ∈ link.2.others, takesOver tree node here link.1 other = false := by
  unfold nextOwner at h
  dsimp only at h
  split at h
  · cases h
  · intro other ho
    rw [List.head?_eq_none_iff, List.filter_eq_nil_iff] at h
    exact Bool.eq_false_of_not_eq_true (h other ho)

theorem ownerAlive_put (tree : DirTree) (inode inode' : Inode) (owner : LinkOwner) :
    TreeState.ownerAlive { tree with links := tree.links.put inode owner } inode' =
      if inode' = inode then (tree.node owner.node).alive else TreeState.ownerAlive tree inode' := by
  unfold TreeState.ownerAlive
  rw [Table.get_put]
  by_cases hi : inode' = inode
  · rw [if_pos hi, if_pos hi]
    rfl
  · rw [if_neg hi, if_neg hi]
    rfl

/-- A link handed on stays with the graft that counts it, goes to one of its other holders, or finds
none. -/
theorem hand_spec (h : Handing) (link : Inode × LinkOwner) :
    (∃ (counted : LinkOwner) (others : List Nat), h.tree.links.get link.1 = some counted ∧
        (h.tree.node counted.node).alive = true ∧ h.hand node here link =
          { h with tree := { h.tree with links := h.tree.links.put link.1 { counted with others := others } } }) ∨
      TreeState.ownerAlive h.tree link.1 = false ∧
        (nextOwner h.tree node here link = none ∧ h.hand node here link = h ∨
          ∃ (next : Nat) (others : List Nat), nextOwner h.tree node here link = some next ∧ h.hand node here link =
            { tree := { h.tree.grow next (Delta.size (asI64 link.2.blocks) (asI64 link.2.apparent)) with
                links := (h.tree.grow next (Delta.size (asI64 link.2.blocks) (asI64 link.2.apparent))).links.put link.1
                  { link.2 with node := next, others := others } }
              changes := h.changes ++ [(next, Delta.size (asI64 link.2.blocks) (asI64 link.2.apparent))]
              requeue := if next ≠ node then h.requeue ++ [next] else h.requeue }) := by
  unfold Handing.hand TreeState.ownerAlive nextOwner takesOver
  dsimp only
  generalize Delta.size (asI64 link.2.blocks) (asI64 link.2.apparent) = size
  generalize link.2.others.filter (fun other => (h.tree.node other).alive && (other ≠ node || here.contains link.1)) = others
  generalize (if others.contains node then some node else others.head?) = next
  cases hg : h.tree.links.get link.1 with
  | none =>
    refine .inr ⟨rfl, ?_⟩
    cases next with
    | none => exact .inl ⟨rfl, rfl⟩
    | some next => exact .inr ⟨next, others.filter (· ≠ next), rfl, rfl⟩
  | some counted =>
    dsimp only
    cases ha : (h.tree.node counted.node).alive with
    | true =>
      rw [if_pos rfl]
      generalize List.foldl _ counted.others link.2.others = others'
      exact .inl ⟨counted, others', rfl, ha, rfl⟩
    | false =>
      rw [if_neg Bool.false_ne_true]
      refine .inr ⟨rfl, ?_⟩
      cases next with
      | none => exact .inl ⟨rfl, rfl⟩
      | some next => exact .inr ⟨next, others.filter (· ≠ next), rfl, rfl⟩

theorem hand_cases (h : Handing) (link : Inode × LinkOwner) :
    (TreeState.ownerAlive h.tree link.1 = true ∧ ∃ owner : LinkOwner, (h.tree.node owner.node).alive = true ∧
        (h.hand node here link).tree = { h.tree with links := h.tree.links.put link.1 owner }) ∨
      TreeState.ownerAlive h.tree link.1 = false ∧
        ((∃ (next : Nat) (size : Delta) (owner : LinkOwner), nextOwner h.tree node here link = some next ∧ owner.node = next ∧
            (h.hand node here link).tree =
              { h.tree.grow next size with links := (h.tree.grow next size).links.put link.1 owner }) ∨
          nextOwner h.tree node here link = none ∧ (h.hand node here link).tree = h.tree) := by
  rcases @hand_spec node here h link with ⟨counted, others, hg, ha, he⟩ | ⟨hdead, ⟨hn, he⟩ | ⟨next, others, hn, he⟩⟩
  · refine .inl ⟨?_, { counted with others := others }, ha, by rw [he]⟩
    unfold TreeState.ownerAlive
    rw [hg]
    exact ha
  · exact .inr ⟨hdead, .inr ⟨hn, by rw [he]⟩⟩
  · exact .inr ⟨hdead, .inl ⟨next, _, { link.2 with node := next, others := others }, hn, rfl, by rw [he]⟩⟩

theorem takesOver_congr {t u : DirTree} (h : SameShape t u) (inode : Inode) (other : Nat) :
    takesOver u node here inode other = takesOver t node here inode other := by
  unfold takesOver
  rw [h.alive]

theorem sameShape_hand (h : Handing) (link : Inode × LinkOwner) : SameShape h.tree (h.hand node here link).tree := by
  rcases hand_cases h link with ⟨-, owner, -, he⟩ | ⟨-, ⟨next, size, owner, -, -, he⟩ | ⟨-, he⟩⟩
  · rw [he]
    exact sameShape_of_nodes rfl
  · rw [he]
    exact (sameLinks_grow h.tree next size).shape.trans (sameShape_of_nodes rfl)
  · rw [he]
    exact .refl h.tree

/-- After a link is handed on its file is counted if it was before, or if a holder may take it over. -/
theorem ownerAlive_hand (h : Handing) (link : Inode × LinkOwner) (inode : Inode) :
    TreeState.ownerAlive (h.hand node here link).tree inode = true ↔ TreeState.ownerAlive h.tree inode = true ∨
      inode = link.1 ∧ ∃ other ∈ link.2.others, takesOver h.tree node here inode other = true := by
  rcases hand_cases h link with ⟨hl, owner, ha, he⟩ | ⟨hl, ⟨next, size, owner, hn, rfl, he⟩ | ⟨hn, he⟩⟩
  · rw [he, ownerAlive_put]
    by_cases hi : inode = link.1
    · rw [if_pos hi, hi, hl]
      exact ⟨fun _ => .inl rfl, fun _ => ha⟩
    · rw [if_neg hi]
      exact ⟨.inl, fun h => h.resolve_right fun h => hi h.1⟩
  · obtain ⟨hmem, htake⟩ := nextOwner_some hn
    rw [he, ownerAlive_put, (sameLinks_grow h.tree owner.node size).ownerAlive]
    by_cases hi : inode = link.1
    · rw [if_pos hi, (sameLinks_grow h.tree owner.node size).shape.alive, hi]
      exact ⟨fun _ => .inr ⟨rfl, owner.node, hmem, htake⟩, fun _ => (Bool.and_eq_true_iff.1 htake).1⟩
    · rw [if_neg hi]
      exact ⟨.inl, fun h => h.resolve_right fun h => hi h.1⟩
  · rw [he]
    refine ⟨.inl, fun h' => h'.resolve_right ?_⟩
    rintro ⟨rfl, other, ho, ht⟩
    exact Bool.false_ne_true ((nextOwner_none hn other ho).symm.trans ht)

theorem sameShape_hands : ∀ (links : List (Inode × LinkOwner)) (h : Handing),
    SameShape h.tree (links.foldl (Handing.hand node here) h).tree
  | [], h => .refl h.tree
  | link :: links, h => by
    rw [List.foldl_cons]
    exact (sameShape_hand h link).trans (sameShape_hands links _)

/-- In the end a file is counted if it was before, or if a holder of a link handed on may take it over. -/
theorem ownerAlive_hands (inode : Inode) : ∀ (links : List (Inode × LinkOwner)) (h : Handing),
    TreeState.ownerAlive (links.foldl (Handing.hand node here) h).tree inode = true ↔ TreeState.ownerAlive h.tree inode = true ∨
      ∃ owner, (inode, owner) ∈ links ∧ ∃ other ∈ owner.others, takesOver h.tree node here inode other = true
  | [], h => by simp
  | (inode', owner') :: links, h => by
    rw [List.foldl_cons, ownerAlive_hands inode links, ownerAlive_hand]
    simp only [takesOver_congr (sameShape_hand h (inode', owner')), List.mem_cons, Prod.mk.injEq, or_assoc]
    constructor
    · rintro (h1 | ⟨rfl, h2⟩ | ⟨owner, hm, h3⟩)
      · exact .inl h1
      · exact .inr ⟨owner', .inl ⟨rfl, rfl⟩, h2⟩
      · exact .inr ⟨owner, .inr hm, h3⟩
    · rintro (h1 | ⟨owner, ⟨rfl, rfl⟩ | hm, h2⟩)
      · exact .inl h1
      · exact .inr (.inl ⟨rfl, h2⟩)
      · exact .inr (.inr ⟨owner, hm, h2⟩)

theorem ownersAlive_hands : ∀ (links : List (Inode × LinkOwner)) (h : Handing), h.tree.OwnersAlive →
    (links.foldl (Handing.hand node here) h).tree.OwnersAlive
  | [], _, ho => ho
  | link :: links, h, ho => by
    rw [List.foldl_cons]
    refine ownersAlive_hands links _ ?_
    have hput : ∀ (t : DirTree) (owner : LinkOwner), t.OwnersAlive → (t.node owner.node).alive = true →
        { t with links := t.links.put link.1 owner }.OwnersAlive := fun t owner ht ha =>
      AliveIn.put (show AliveIn t t.links from ht) link.1 ha
    rcases hand_cases h link with ⟨-, owner, ha, he⟩ | ⟨-, ⟨next, size, owner, hn, rfl, he⟩ | ⟨-, he⟩⟩
    · rw [he]
      exact hput h.tree owner ho ha
    · rw [he]
      have hs := sameLinks_grow h.tree owner.node size
      refine hput _ owner (hs.ownersAlive ho) ?_
      rw [hs.shape.alive]
      exact (Bool.and_eq_true_iff.1 (nextOwner_some hn).2).1
    · rw [he]
      exact ho

end Hand

/-! ## The re-read -/

section Relist

variable {target : Target} {answers : Answers} {st : TreeState} {node : Nat} {listing : Listing}

/-- What the merge of a listing comes to. -/
def merged (target : Target) (answers : Answers) (st : TreeState) (node : Nat) (listing : Listing) : Merge :=
  (mergeListing target answers st node listing).2

/-- Every multiply linked file a directory lists. -/
def listedLinks (st : TreeState) (node : Nat) (listing : Listing) : List Inode :=
  (settleListed st.tree node listing.links listing.direct).here

theorem mergeRun_merged (target : Target) (answers : Answers) (st : TreeState) (node : Nat) (listing : Listing) :
    MergeRun target answers node (st.tree.node node).children listing.subdirs (startMerge st node listing) [] []
      (merged target answers st node listing) :=
  mergeRun_mergeChildren le_rfl

/-- After the merge only handing links on changes who counts what. -/
theorem applyAll_hands (target : Target) (answers : Answers) (st : TreeState) (node : Nat) (listing : Listing) :
    ∃ h : Handing, SameLinks (merged target answers st node listing).st.tree h.tree ∧
      (applyAll target answers st node listing).1.tree =
        ((merged target answers st node listing).handed.foldl (Handing.hand node (listedLinks st node listing)) h).tree := by
  unfold applyAll
  refine ⟨{ tree := _, requeue := _ }, ?_, rfl⟩
  refine SameLinks.trans ?_ (sameLinks_applyWrites _ _)
  refine SameLinks.trans ?_ (sameLinks_touch _ _ _)
  exact (sameLinks_applyListing _ _ _ _).trans (sameLinks_applyOwn _ _ _)

/-- A well-shaped tree whose files are counted in alive directories. -/
structure Owned (t : DirTree) : Prop where
  shape : Shape t
  names : t.ProperNames
  owners : t.OwnersAlive

theorem Owned.same {t u : DirTree} (h : Owned t) (hs : SameLinks t u) : Owned u := by
  refine ⟨h.shape.congr hs.shape, fun i hi hpos => ?_, hs.ownersAlive h.owners⟩
  rw [hs.shape.alive] at hi
  rw [hs.shape.name]
  exact h.names i hi hpos

/-- Every walk is a scan of its target, and directories have proper entries. -/
structure Answers.Sound (answers : Answers) : Prop where
  scans : ∀ target tree, answers.walk target = some tree → ∃ (host : Host) (hash : Bytes → Nat)
    (counted : Table Inode (Nat × Link)), host.listing.Proper ∧ Walk.CountScan host target hash tree counted
  entries : answers.ProperEntries

theorem Answers.Sound.walks (h : answers.Sound) : answers.FreshWalks := by
  intro target tree he
  obtain ⟨host, hash, counted, hk, hscan⟩ := h.scans target tree he
  exact hscan.fresh hk

/-- The merge of a listing keeps to well-shaped trees with alive owners, wherever it passes. -/
theorem owned_mergeRun (hs : answers.Sound) (h : Owned st.tree) (ha : (st.tree.node node).alive = true)
    (hl : readListing target answers st node = .ok listing) {children : List Nat} {subdirs : List Subdir} {m : Merge}
    (hr : MergeRun target answers node (st.tree.node node).children listing.subdirs (startMerge st node listing) children subdirs m) :
    Merging node listing.subdirs children subdirs m ∧ m.st.tree.OwnersAlive :=
  mergeRun_rule hs.walks (fun _ _ m => m.st.tree.OwnersAlive) (ownersAlive_step hs.walks) hr
    (merging_start hs.entries h.shape h.names ha hl) (ownersAlive_startMerge listing ha h.owners)

theorem owned_relist (hs : answers.Sound) (h : Owned st.tree) (target : Target) (node : Nat) :
    Owned (relist target answers st node).1.tree := by
  unfold relist
  split
  · exact h
  · rename_i hread
    rw [Bool.or_eq_true, Bool.not_eq_true', not_or, Bool.not_eq_false, Bool.not_eq_true] at hread
    cases hl : readListing target answers st node with
    | error error =>
      dsimp only
      split
      · split <;> exact h
      · exact h
    | ok listing =>
      dsimp only
      obtain ⟨hm, ho⟩ := owned_mergeRun hs h hread.1 hl (mergeRun_merged target answers st node listing)
      obtain ⟨hands, hsame, he⟩ := applyAll_hands target answers st node listing
      have hbefore := Owned.same ⟨hm.shape, hm.names, ho⟩ hsame
      have hshape : SameShape hands.tree ((merged target answers st node listing).handed.foldl
          (Handing.hand node (listedLinks st node listing)) hands).tree := sameShape_hands _ hands
      rw [he]
      refine ⟨hbefore.shape.congr hshape, fun i hi hpos => ?_, ownersAlive_hands _ _ hbefore.owners⟩
      rw [hshape.alive] at hi
      rw [hshape.name]
      exact hbefore.names i hi hpos

end Relist

/-! ## Runs -/

/-- The states of a live target whose directories are watched: from a scan's tree, by re-reads, and by
marks of activity. -/
inductive LiveReached : TreeState → Prop
  | scan {host : Host} {target : Target} {hash : Bytes → Nat} {t : DirTree} {counted : Table Inode (Nat × Link)}
      (h : Walk.CountScan host target hash t counted) (hk : host.listing.Proper) (generation : Nat) :
      LiveReached (TreeState.new t generation)
  | relist {st : TreeState} (h : LiveReached st) (target : Target) (answers : Answers) (node : Nat) (hs : answers.Sound) :
      LiveReached (relist target answers st node).1
  | touch {st : TreeState} (h : LiveReached st) (dir : Nat) (at_ : Int) :
      LiveReached { st with tree := st.tree.touch dir at_ }

/-- In every state every multiply linked file with an owner is counted in an alive directory. -/
theorem owned_of_reached {st : TreeState} (h : LiveReached st) : Owned st.tree := by
  induction h with
  | scan h hk generation =>
    have hf := h.fresh hk
    exact Owned.same ⟨hf.shape, hf.names, hf.ownersAlive⟩ ⟨sameShape_of_nodes rfl, rfl⟩
  | relist h target answers node hs ih => exact owned_relist hs ih target node
  | touch h dir at_ ih => exact ih.same (sameLinks_touch _ dir at_)

end StorageHarvester
