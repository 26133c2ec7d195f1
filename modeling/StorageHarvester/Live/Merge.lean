/-
The merge of a directory's old children with the subdirectories listed now: what each of its steps
can do, and the rule that what every step preserves holds at its end. The children stay sorted, a
grafted tree comes in under a name that is not there, and what is dropped is dead.
-/
import StorageHarvester.Live.Relist
import StorageHarvester.Tree.Fresh

namespace StorageHarvester

open Forest

/-! ## Walked trees -/

namespace DirTree

/-- A tree whose root goes by another name. -/
def renameRoot (t : DirTree) (name : Bytes) : DirTree := t.modifyNode 0 fun n => { n with name := name }

theorem node_renameRoot (t : DirTree) (name : Bytes) (i : Nat) :
    (t.renameRoot name).node i = { t.node i with name := ((t.renameRoot name).node i).name } := by
  unfold renameRoot
  rw [node_modifyNode]
  split <;> rfl

theorem name_renameRoot (t : DirTree) (name : Bytes) {i : Nat} (hi : i ≠ 0) :
    ((t.renameRoot name).node i).name = (t.node i).name := by
  unfold renameRoot
  rw [node_modifyNode_of_ne hi]

end DirTree

/-- The root's name orders no children. -/
theorem Shape.renameRoot {t : DirTree} (h : Shape t) (name : Bytes) : Shape (t.renameRoot name) where
  root := by rw [t.node_renameRoot]; exact h.root
  depth_root := by rw [t.node_renameRoot]; exact h.depth_root
  down := h.down.congr fun j => by unfold DirTree.parentOf; rw [t.node_renameRoot]
  hasParent := fun i hi hl => by
    rw [t.node_renameRoot]
    exact h.hasParent i hi (by simpa [DirTree.renameRoot] using hl)
  depth := fun i p hp => by
    rw [t.node_renameRoot] at hp
    rw [t.node_renameRoot name i, t.node_renameRoot name p]; exact h.depth i p hp
  child := fun i hi j hj => by
    rw [t.node_renameRoot] at hi hj
    rw [t.node_renameRoot name j]; exact h.child i hi j hj
  listed := fun i p hi hp => by
    rw [t.node_renameRoot] at hi hp
    rw [t.node_renameRoot name p]; exact h.listed i p hi hp
  sorted := fun i hi => by
    rw [t.node_renameRoot] at hi
    rw [t.node_renameRoot]
    refine (List.Pairwise.imp_of_mem (fun {a b} ha hb hab => ?_) (h.sorted i hi))
    have hne : ∀ c ∈ (t.node i).children, c ≠ 0 := fun c hc he => by
      have := h.lt_of_child hi hc; omega
    rw [t.name_renameRoot name (hne a ha), t.name_renameRoot name (hne b hb)]
    exact hab

theorem sameShape_untake (sub : DirTree) (taken : Inode × LinkOwner) : SameShape sub (untake sub taken) := by
  unfold untake
  have h1 : SameShape sub { sub with links := sub.links.del taken.1 } := ⟨rfl, fun _ => rfl⟩
  exact (h1.trans (DirTree.sameShape_applyDirect _ _ _)).trans (DirTree.sameShape_propagate _ _ _)

theorem links_propagate (t : DirTree) (i : Nat) (d : Delta) : (t.propagate i d).links = t.links := by
  have hup : ∀ (fuel j : Nat) (t : DirTree), (DirTree.propagateUp d fuel j t).links = t.links := by
    intro fuel
    induction fuel with
    | zero => intro j t; rfl
    | succ fuel ih =>
      intro j t
      rw [DirTree.propagateUp]
      split
      · rfl
      · rw [ih]; rfl
  unfold DirTree.propagate
  split
  · rfl
  · exact hup _ _ _

theorem links_untake (sub : DirTree) (taken : Inode × LinkOwner) : (untake sub taken).links = sub.links.del taken.1 :=
  (links_propagate _ _ _).trans (DirTree.links_applyDirect _ _ _)

theorem sameShape_untakes (taken : List (Inode × LinkOwner)) (sub : DirTree) : SameShape sub (taken.foldl untake sub) := by
  induction taken generalizing sub with
  | nil => exact .refl sub
  | cons e taken ih =>
    rw [List.foldl_cons]
    exact (sameShape_untake sub e).trans (ih (untake sub e))

theorem get_links_untakes (inode : Inode) (taken : List (Inode × LinkOwner)) (sub : DirTree) :
    (taken.foldl untake sub).links.get inode = if inode ∈ taken.map Prod.fst then none else sub.links.get inode := by
  induction taken generalizing sub with
  | nil => simp
  | cons e taken ih =>
    rw [List.foldl_cons, ih, links_untake, Table.get_del]
    by_cases h1 : inode ∈ taken.map Prod.fst <;> by_cases h2 : inode = e.1 <;> simp [h1, h2]

/-- The structure of a walked tree, ready to be grafted. -/
structure Walked (tree : DirTree) (name : Bytes) (sub : DirTree) : Prop where
  shape : Shape sub
  names : sub.ProperNames
  root : (sub.node 0).name = name
  alive : ∀ i < sub.nodes.length, (sub.node i).alive = true
  owners : ∀ inode owner, sub.links.get inode = some owner → owner.node < sub.nodes.length
  /-- It owns no file that the tree counts. -/
  apart : ∀ inode owner, sub.links.get inode = some owner → TreeState.ownerAlive tree inode = false

section WalkNew

variable {target : Target} {answers : Answers} {tree sub : DirTree} {parent : Nat} {name : Bytes}
  {shared : List (Inode × List Nat)}

/-- What a walk of a new subdirectory comes back with. -/
theorem walkNew_eq_some (h : walkNew target answers tree parent name = some (sub, shared)) :
    ∃ found, answers.walk (walkTarget target answers tree parent name) = some found ∧
      sub = (takenLinks tree (found.renameRoot name)).foldl untake (found.renameRoot name) ∧
      shared = (takenLinks tree (found.renameRoot name)).map fun e => (e.1, e.2.others ++ [e.2.node]) := by
  unfold walkNew at h
  cases hw : answers.walk (walkTarget target answers tree parent name) with
  | none => rw [hw] at h; cases h
  | some found =>
    rw [hw] at h
    simp only [Option.some.injEq, Prod.mk.injEq] at h
    exact ⟨found, rfl, h.1.symm, h.2.symm⟩

/-- Every walk comes back with a tree as a scan builds it. -/
def Answers.FreshWalks (answers : Answers) : Prop := ∀ target tree, answers.walk target = some tree → Fresh tree

theorem walkNew_walked (hw : answers.FreshWalks) (h : walkNew target answers tree parent name = some (sub, shared)) :
    Walked tree name sub := by
  obtain ⟨found, hf, rfl, -⟩ := walkNew_eq_some h
  have hfresh := hw _ _ hf
  have hsame := sameShape_untakes (takenLinks tree (found.renameRoot name)) (found.renameRoot name)
  have hlen : (found.renameRoot name).nodes.length = found.nodes.length := by simp [DirTree.renameRoot]
  have hlinks : ∀ inode owner, ((takenLinks tree (found.renameRoot name)).foldl untake (found.renameRoot name)).links.get inode = some owner →
      found.links.get inode = some owner ∧ TreeState.ownerAlive tree inode = false := by
    intro inode owner ho
    rw [get_links_untakes] at ho
    split at ho
    · cases ho
    · rename_i hn
      have hget : found.links.get inode = some owner := ho
      refine ⟨hget, ?_⟩
      by_contra ha
      refine hn (List.mem_map.2 ⟨(inode, owner), List.mem_filter.2 ⟨Table.get_eq_some.1 hget, ?_⟩, rfl⟩)
      simpa using ha
  refine ⟨(hfresh.shape.renameRoot name).congr hsame, fun i hi hpos => ?_, ?_, fun i hi => ?_, fun inode owner ho => ?_,
    fun inode owner ho => (hlinks inode owner ho).2⟩
  · rw [hsame.alive] at hi
    rw [hsame.name, found.name_renameRoot name (by omega)]
    rw [found.node_renameRoot] at hi
    exact hfresh.names i hi hpos
  · rw [hsame.name]
    unfold DirTree.renameRoot
    rw [DirTree.node_modifyNode_self hfresh.shape.pos]
  · rw [hsame.length, hlen] at hi
    rw [hsame.alive, found.node_renameRoot]
    exact hfresh.alive i hi
  · rw [hsame.length, hlen]
    exact hfresh.owners inode owner (hlinks inode owner ho).1

end WalkNew

/-! ## The steps of the merge -/

/-- One step of the merge, and what it is taken on. `all` are the listed subdirectories. -/
inductive MergeStep (target : Target) (answers : Answers) (node : Nat) (all : List Subdir) :
    List Nat → List Subdir → Merge → List Nat → List Subdir → Merge → Prop
  /-- A child is listed under its name and not replaced. -/
  | keep {child : Nat} {children : List Nat} {subdir : Subdir} {subdirs : List Subdir} {m : Merge}
      (hname : (m.st.tree.node child).name = subdir.name) (hsame : replaced answers m.st child subdir = false) :
      MergeStep target answers node all (child :: children) (subdir :: subdirs) m children subdirs (m.keep child subdir)
  /-- A child is not listed under its name, or replaced. -/
  | drop {child : Nat} {children : List Nat} {subdirs : List Subdir} {m : Merge}
      (hgone : ∀ subdir ∈ all, subdir.name = (m.st.tree.node child).name → replaced answers m.st child subdir = true) :
      MergeStep target answers node all (child :: children) subdirs m children subdirs (m.drop child)
  /-- A new subdirectory, by a name no child has. -/
  | add {children : List Nat} {subdir : Subdir} {subdirs : List Subdir} {m : Merge}
      (hfresh : ∀ c ∈ (m.st.tree.node node).children, (m.st.tree.node c).name ≠ subdir.name) :
      MergeStep target answers node all children (subdir :: subdirs) m children subdirs (m.add target answers node subdir)

/-- The structural invariant of the merge. `children` are the old children left, `subdirs` the listed
subdirectories left of `all`. -/
structure Merging (node : Nat) (all : List Subdir) (children : List Nat) (subdirs : List Subdir) (m : Merge) : Prop where
  shape : Shape m.st.tree
  names : m.st.tree.ProperNames
  alive : (m.st.tree.node node).alive = true
  left : children.Sublist (m.st.tree.node node).children
  /-- A child that is none of the old ones left comes before all that is left. -/
  before : ∀ c ∈ (m.st.tree.node node).children, c ∈ children ∨
    ∀ subdir ∈ subdirs, compare (m.st.tree.node c).name subdir.name = .lt
  /-- What was taken of the listing comes before the old children left. -/
  taken : ∃ done, all = done ++ subdirs ∧
    ∀ subdir ∈ done, ∀ c ∈ children, compare subdir.name (m.st.tree.node c).name = .lt
  sorted : all.Pairwise fun a b => compare a.name b.name = .lt
  proper : ∀ subdir ∈ all, ProperName subdir.name

/-- The keep step changes nothing but two sizes. -/
theorem sameShape_keep (m : Merge) (child : Nat) (subdir : Subdir) : SameShape m.st.tree (m.keep child subdir).st.tree :=
  DirTree.sameShape_modifyNode _ _ fun _ => rfl

theorem tree_drop (m : Merge) (child : Nat) : (m.drop child).st.tree = (m.st.tree.detach child).1 := rfl

/-- The links noted at the end of a graft change no node. -/
theorem nodes_shareLinks (start : Nat) : ∀ (shared : List (Inode × List Nat)) (t : DirTree),
    (shared.foldl (shareLink start) t).nodes = t.nodes
  | [], _ => rfl
  | e :: shared, t => by
    rw [List.foldl_cons, nodes_shareLinks start shared]
    unfold shareLink
    split <;> rfl

theorem sameShape_of_nodes {t u : DirTree} (h : u.nodes = t.nodes) : SameShape t u :=
  ⟨by rw [h], fun i => by unfold DirTree.node; rw [h]⟩

/-- What a step that adds a subdirectory does to the tree: nothing, sealing the directory, or a
graft, after which nodes are only indexed. -/
theorem add_cases (target : Target) (answers : Answers) (node : Nat) (m : Merge) (subdir : Subdir) :
    m.add target answers node subdir = m ∨
      ∃ sub shared, walkNew target answers m.st.tree node subdir.name = some (sub, shared) ∧
        (m.add target answers node subdir).moved = m.moved.plus (Delta.ofTally (sub.node 0).sub) ∧
        (m.add target answers node subdir).handed = m.handed ∧
        ((m.add target answers node subdir).st.tree = m.st.tree.modifyNode node (fun n => { n with isSealed := true }) ∨
          ∃ t, t = shared.foldl (shareLink m.st.tree.nodes.length) (m.st.tree.graft node sub).1 ∧
            (m.add target answers node subdir).st.tree = { t with handles := [], plain := [] }) := by
  unfold Merge.add
  cases hw : walkNew target answers m.st.tree node subdir.name with
  | none => exact .inl rfl
  | some p =>
    obtain ⟨sub, shared⟩ := p
    right
    refine ⟨sub, shared, rfl, ?_⟩
    simp only
    split
    · exact ⟨rfl, rfl, .inr ⟨_, rfl, rfl⟩⟩
    · exact ⟨rfl, rfl, .inl rfl⟩

section Steps

variable {target : Target} {answers : Answers} {node : Nat} {all subdirs subdirs' : List Subdir}
  {children children' : List Nat} {m m' : Merge}

/-- The old child at hand is an alive child of the directory. -/
theorem Merging.child {child : Nat} (h : Merging node all (child :: children) subdirs m) :
    (m.st.tree.node child).alive = true ∧ (m.st.tree.node child).parent = some node ∧
      child ∈ (m.st.tree.node node).children ∧ child ∉ children := by
  have hm : child ∈ (m.st.tree.node node).children := h.left.subset (List.mem_cons_self ..)
  obtain ⟨ha, hp⟩ := h.shape.child node h.alive child hm
  exact ⟨ha, hp, hm, (List.nodup_cons.1 ((h.shape.nodup h.alive).sublist h.left)).1⟩

/-- Old children left come in the order of their names. -/
theorem Merging.order {child : Nat} (h : Merging node all (child :: children) subdirs m) :
    ∀ c ∈ children, compare (m.st.tree.node child).name (m.st.tree.node c).name = .lt :=
  (List.pairwise_cons.1 ((h.shape.sorted node h.alive).sublist h.left)).1

theorem Merging.subdir_order {subdir : Subdir} (h : Merging node all children (subdir :: subdirs) m) :
    ∀ s ∈ subdirs, compare subdir.name s.name = .lt := by
  obtain ⟨done, hall, -⟩ := h.taken
  exact (List.pairwise_cons.1 (List.pairwise_append.1 (hall ▸ h.sorted)).2.1).1

theorem Merging.keep {child : Nat} {subdir : Subdir} (h : Merging node all (child :: children) (subdir :: subdirs) m)
    (hname : (m.st.tree.node child).name = subdir.name) : Merging node all children subdirs (m.keep child subdir) := by
  have hs := sameShape_keep m child subdir
  refine ⟨h.shape.congr hs, fun i hi hpos => ?_, by rw [hs.alive]; exact h.alive, ?_, fun c hc => ?_, ?_, h.sorted, h.proper⟩
  · rw [hs.alive] at hi
    rw [hs.name]; exact h.names i hi hpos
  · rw [hs.children]; exact (List.sublist_cons_self ..).trans h.left
  · rw [hs.children] at hc
    rw [hs.name]
    rcases h.before c hc with hc | hc
    · rcases List.mem_cons.1 hc with rfl | hc
      · exact .inr fun s hs => by rw [hname]; exact h.subdir_order s hs
      · exact .inl hc
    · exact .inr fun s hs => hc s (List.mem_cons_of_mem _ hs)
  · obtain ⟨done, hall, hd⟩ := h.taken
    refine ⟨done ++ [subdir], by rw [hall]; simp, fun s hs' c hc => ?_⟩
    rw [hs.name]
    rcases List.mem_append.1 hs' with hs' | hs'
    · exact hd s hs' c (List.mem_cons_of_mem _ hc)
    · rw [List.mem_singleton.1 hs', ← hname]; exact h.order c hc

theorem Merging.drop {child : Nat} (h : Merging node all (child :: children) subdirs m) :
    Merging node all children subdirs (m.drop child) := by
  obtain ⟨ha, hp, hm, hnot⟩ := h.child
  have hnode := h.shape.node_detach ha hp
  have hname : ∀ i, ((m.drop child).st.tree.node i).name = (m.st.tree.node i).name := fun i => by
    rw [tree_drop, hnode]
  have hkids : ((m.drop child).st.tree.node node).children = (m.st.tree.node node).children.filter (· ≠ child) := by
    rw [tree_drop, h.shape.children_detach ha hp, if_pos rfl]
  refine ⟨h.shape.detach ha hp, fun i hi hpos => ?_, ?_, ?_, fun c hc => ?_, ?_, h.sorted, h.proper⟩
  · rw [hname]
    exact h.names i ((h.shape.alive_detach ha hp i).1 hi).1 hpos
  · refine (h.shape.alive_detach ha hp node).2 ⟨h.alive, fun hab => ?_⟩
    have := hab.le h.shape.down; have := h.shape.lt_of_child h.alive hm; omega
  · rw [hkids]
    have hfil : children.filter (· ≠ child) = children := List.filter_eq_self.2 fun c hc => by
      have : c ≠ child := fun he => hnot (he ▸ hc)
      simpa using this
    rw [← hfil]
    exact ((List.sublist_cons_self ..).trans h.left).filter _
  · rw [hkids, List.mem_filter] at hc
    rw [hname]
    rcases h.before c hc.1 with hb | hb
    · rcases List.mem_cons.1 hb with rfl | hb
      · simp at hc
      · exact .inl hb
    · exact .inr hb
  · obtain ⟨done, hall, hd⟩ := h.taken
    exact ⟨done, hall, fun s hs c hc => by rw [hname]; exact hd s hs c (List.mem_cons_of_mem _ hc)⟩

/-- One more subdirectory taken, with nothing done to names and children. -/
theorem Merging.skip {subdir : Subdir} (h : Merging node all children (subdir :: subdirs) m)
    (hlt : ∀ c ∈ children, compare subdir.name (m.st.tree.node c).name = .lt) (hs : SameShape m.st.tree m'.st.tree) :
    Merging node all children subdirs m' := by
  refine ⟨h.shape.congr hs, fun i hi hpos => ?_, by rw [hs.alive]; exact h.alive, by rw [hs.children]; exact h.left,
    fun c hc => ?_, ?_, h.sorted, h.proper⟩
  · rw [hs.alive] at hi
    rw [hs.name]; exact h.names i hi hpos
  · rw [hs.children] at hc
    rw [hs.name]
    exact (h.before c hc).imp id fun hb s hs => hb s (List.mem_cons_of_mem _ hs)
  · obtain ⟨done, hall, hd⟩ := h.taken
    refine ⟨done ++ [subdir], by rw [hall]; simp, fun s hs' c hc => ?_⟩
    rw [hs.name]
    rcases List.mem_append.1 hs' with hs' | hs'
    · exact hd s hs' c hc
    · rw [List.mem_singleton.1 hs']; exact hlt c hc

/-- The name of a subdirectory before all old children left is new. -/
theorem Merging.fresh {subdir : Subdir} (h : Merging node all children (subdir :: subdirs) m)
    (hlt : ∀ c ∈ children, compare subdir.name (m.st.tree.node c).name = .lt) :
    ∀ c ∈ (m.st.tree.node node).children, (m.st.tree.node c).name ≠ subdir.name := by
  intro c hc
  rcases h.before c hc with hb | hb
  · exact (ne_of_compare_lt (hlt c hb)).symm
  · exact ne_of_compare_lt (hb subdir (List.mem_cons_self ..))

theorem Merging.add (hw : answers.FreshWalks) {subdir : Subdir} (h : Merging node all children (subdir :: subdirs) m)
    (hlt : ∀ c ∈ children, compare subdir.name (m.st.tree.node c).name = .lt) :
    Merging node all children subdirs (m.add target answers node subdir) := by
  rcases add_cases target answers node m subdir with he | ⟨sub, shared, hsub, -, -, he | ⟨t, rfl, he⟩⟩
  · exact h.skip hlt (by rw [he]; exact .refl _)
  · exact h.skip hlt (by rw [he]; exact DirTree.sameShape_modifyNode _ _ fun _ => rfl)
  · -- grafted: its root comes before every child left, since these have greater names
    have hwk := walkNew_walked hw hsub
    have hfresh := h.fresh hlt
    rw [← hwk.root] at hfresh
    have g := h.shape.graft_spec h.alive hwk.shape.pos hfresh
    have hs : SameShape (m.st.tree.graft node sub).1 (m.add target answers node subdir).st.tree := by
      rw [he]
      exact sameShape_of_nodes (nodes_shareLinks _ _ _)
    have hnl := DirTree.lt_of_alive h.alive
    have hkid : ∀ c ∈ (m.st.tree.node node).children, ((m.add target answers node subdir).st.tree.node c).name = (m.st.tree.node c).name :=
      fun c hc => by
        rw [hs.name]
        exact g.name_old (DirTree.lt_of_alive (h.shape.child node h.alive c hc).1)
    have hnew : ((m.add target answers node subdir).st.tree.node m.st.tree.nodes.length).name = subdir.name := by
      have := g.name_new hwk.shape.pos
      rw [Nat.add_zero] at this
      rw [hs.name, this, hwk.root]
    obtain ⟨pre, post, hl, -, -, hat⟩ := g.at_
    have hkids : ((m.add target answers node subdir).st.tree.node node).children = pre ++ m.st.tree.nodes.length :: post := by
      rw [hs.children, hat]
    refine ⟨(g.shape h.shape hwk.shape h.alive).congr hs, fun i hi hpos => ?_, ?_, ?_, fun c hc => ?_, ?_, h.sorted, h.proper⟩
    · rw [hs.alive] at hi
      rw [hs.name]
      rcases g.cases (DirTree.lt_of_alive hi) with hil | ⟨k, hk, rfl⟩
      · rw [g.name_old hil]
        exact h.names i ((g.alive_old hil).symm.trans hi) hpos
      · rw [g.name_new hk]
        rcases Nat.eq_zero_or_pos k with rfl | hk0
        · rw [hwk.root]
          obtain ⟨done, hall, -⟩ := h.taken
          exact h.proper subdir (by rw [hall]; simp)
        · exact hwk.names k ((g.alive_new hk).symm.trans hi) hk0
    · rw [hs.alive, g.alive_old hnl]; exact h.alive
    · rw [hkids]
      refine (hl ▸ h.left).trans (List.Sublist.append_left ?_ pre)
      exact List.sublist_cons_self ..
    · rw [hkids] at hc
      by_cases hcn : c = m.st.tree.nodes.length
      · subst hcn
        exact .inr fun s hs' => by rw [hnew]; exact h.subdir_order s hs'
      · have hcm : c ∈ (m.st.tree.node node).children := by
          rw [hl]
          simp only [List.mem_append, List.mem_cons] at hc ⊢
          tauto
        rw [hkid c hcm]
        exact (h.before c hcm).imp id fun hb s hs => hb s (List.mem_cons_of_mem _ hs)
    · obtain ⟨done, hall, hd⟩ := h.taken
      refine ⟨done ++ [subdir], by rw [hall]; simp, fun s hs' c hc => ?_⟩
      rw [hkid c (h.left.subset hc)]
      rcases List.mem_append.1 hs' with hs' | hs'
      · exact hd s hs' c hc
      · rw [List.mem_singleton.1 hs']; exact hlt c hc

/-! ## The rule -/

/-- What the merge goes through: the old children and the listed subdirectories left, and what was
done so far. -/
inductive MergeRun (target : Target) (answers : Answers) (node : Nat) :
    List Nat → List Subdir → Merge → List Nat → List Subdir → Merge → Prop
  | refl {children : List Nat} {subdirs : List Subdir} {m : Merge} :
      MergeRun target answers node children subdirs m children subdirs m
  | keep {child : Nat} {children children' : List Nat} {subdir : Subdir} {subdirs subdirs' : List Subdir} {m m' : Merge}
      (ho : childOrder answers m.st child subdir = .eq)
      (h : MergeRun target answers node children subdirs (m.keep child subdir) children' subdirs' m') :
      MergeRun target answers node (child :: children) (subdir :: subdirs) m children' subdirs' m'
  | drop {child : Nat} {children children' : List Nat} {subdirs subdirs' : List Subdir} {m m' : Merge}
      (ho : ∀ subdir ∈ subdirs.head?, childOrder answers m.st child subdir = .lt)
      (h : MergeRun target answers node children subdirs (m.drop child) children' subdirs' m') :
      MergeRun target answers node (child :: children) subdirs m children' subdirs' m'
  | add {children children' : List Nat} {subdir : Subdir} {subdirs subdirs' : List Subdir} {m m' : Merge}
      (ho : ∀ child ∈ children.head?, childOrder answers m.st child subdir = .gt)
      (h : MergeRun target answers node children subdirs (m.add target answers node subdir) children' subdirs' m') :
      MergeRun target answers node children (subdir :: subdirs) m children' subdirs' m'

/-- The merge runs to its end. -/
theorem mergeRun_mergeChildren : ∀ {fuel : Nat} {children : List Nat} {subdirs : List Subdir} {m : Merge},
    children.length + subdirs.length ≤ fuel →
      MergeRun target answers node children subdirs m [] [] (mergeChildren target answers node fuel children subdirs m)
  | 0, children, subdirs, m, hl => by
    obtain rfl : children = [] := List.length_eq_zero_iff.1 (by omega)
    obtain rfl : subdirs = [] := List.length_eq_zero_iff.1 (by omega)
    exact .refl
  | fuel + 1, [], [], m, _ => .refl
  | fuel + 1, child :: children, [], m, hl => by
    simp only [List.length_cons, List.length_nil] at hl
    rw [mergeChildren]
    exact .drop (fun _ h => by cases h) (mergeRun_mergeChildren (by simp only [List.length_nil]; omega))
  | fuel + 1, [], subdir :: subdirs, m, hl => by
    simp only [List.length_cons, List.length_nil] at hl
    rw [mergeChildren]
    exact .add (fun _ h => by cases h) (mergeRun_mergeChildren (by simp only [List.length_nil]; omega))
  | fuel + 1, child :: children, subdir :: subdirs, m, hl => by
    simp only [List.length_cons] at hl
    rw [mergeChildren]
    cases ho : childOrder answers m.st child subdir with
    | eq => exact .keep ho (mergeRun_mergeChildren (by omega))
    | lt =>
      refine .drop (fun s hs => ?_) (mergeRun_mergeChildren (by simp only [List.length_cons]; omega))
      cases hs
      exact ho
    | gt =>
      refine .add (fun c hc => ?_) (mergeRun_mergeChildren (by simp only [List.length_cons]; omega))
      cases hc
      exact ho

/-- The merge takes one way: where it passes, it goes on to its end. -/
theorem MergeRun.through {mEnd : Merge} (h : MergeRun target answers node children subdirs m children' subdirs' m')
    (he : MergeRun target answers node children subdirs m [] [] mEnd) :
    MergeRun target answers node children' subdirs' m' [] [] mEnd := by
  induction h with
  | refl => exact he
  | keep ho _ ih =>
    cases he with
    | keep _ he => exact ih he
    | drop ho' => cases ho.symm.trans (ho' _ rfl)
    | add ho' => cases ho.symm.trans (ho' _ rfl)
  | drop ho _ ih =>
    cases he with
    | keep ho' => cases ho'.symm.trans (ho _ rfl)
    | drop _ he => exact ih he
    | add ho' => cases (ho' _ rfl).symm.trans (ho _ rfl)
  | add ho _ ih =>
    cases he with
    | keep ho' => cases ho'.symm.trans (ho _ rfl)
    | drop ho' => cases (ho' _ rfl).symm.trans (ho _ rfl)
    | add _ he => exact ih he

/-- The merge ends where its function does. -/
theorem MergeRun.eq_mergeChildren {mEnd : Merge} (h : MergeRun target answers node children subdirs m [] [] mEnd) :
    mEnd = mergeChildren target answers node (children.length + subdirs.length) children subdirs m := by
  have hrest := (mergeRun_mergeChildren le_rfl).through h
  cases hrest
  rfl

/-- A child listed next under its name, and not replaced. -/
theorem childOrder_eq {st : TreeState} {child : Nat} {subdir : Subdir} (h : childOrder answers st child subdir = .eq) :
    (st.tree.node child).name = subdir.name ∧ replaced answers st child subdir = false := by
  unfold childOrder at h
  split at h
  · rename_i hc
    split at h
    · cases h
    · rename_i hr
      exact ⟨Std.LawfulEqCmp.eq_of_compare hc, Bool.eq_false_of_not_eq_true hr⟩
  · rename_i hne
    exact absurd h hne

theorem childOrder_lt {st : TreeState} {child : Nat} {subdir : Subdir} (h : childOrder answers st child subdir = .lt) :
    compare (st.tree.node child).name subdir.name = .lt ∨
      (st.tree.node child).name = subdir.name ∧ replaced answers st child subdir = true := by
  unfold childOrder at h
  split at h
  · rename_i hc
    split at h
    · rename_i hr
      exact .inr ⟨Std.LawfulEqCmp.eq_of_compare hc, hr⟩
    · cases h
  · exact .inl h

theorem childOrder_gt {st : TreeState} {child : Nat} {subdir : Subdir} (h : childOrder answers st child subdir = .gt) :
    compare subdir.name (st.tree.node child).name = .lt := by
  unfold childOrder at h
  split at h
  · split at h <;> cases h
  · exact compare_gt_iff.1 h

/-- A child dropped is not listed under its name, or replaced. -/
theorem Merging.gone {child : Nat} (h : Merging node all (child :: children) subdirs m)
    (ho : ∀ subdir ∈ subdirs.head?, childOrder answers m.st child subdir = .lt) :
    ∀ subdir ∈ all, subdir.name = (m.st.tree.node child).name → replaced answers m.st child subdir = true := by
  obtain ⟨done, hall, hd⟩ := h.taken
  intro s hs he
  rw [hall] at hs
  rcases List.mem_append.1 hs with hs | hs
  · exact absurd he (ne_of_compare_lt (hd s hs child (List.mem_cons_self ..)))
  · cases subdirs with
    | nil => exact absurd hs List.not_mem_nil
    | cons subdir subdirs =>
      rcases childOrder_lt (ho subdir rfl) with hc | ⟨hname, hr⟩
      · rcases List.mem_cons.1 hs with rfl | hs'
        · exact absurd he.symm (ne_of_compare_lt hc)
        · exact absurd he.symm (ne_of_compare_lt (Std.TransCmp.lt_trans hc (h.subdir_order s hs')))
      · rcases List.mem_cons.1 hs with rfl | hs'
        · exact hr
        · exact absurd (hname.symm.trans he.symm) (ne_of_compare_lt (h.subdir_order s hs'))

/-- A subdirectory added comes before the old children left. -/
theorem Merging.ahead {subdir : Subdir} (h : Merging node all children (subdir :: subdirs) m)
    (ho : ∀ child ∈ children.head?, childOrder answers m.st child subdir = .gt) :
    ∀ c ∈ children, compare subdir.name (m.st.tree.node c).name = .lt := by
  cases children with
  | nil => exact fun c hc => absurd hc List.not_mem_nil
  | cons child children =>
    have hlt := childOrder_gt (ho child rfl)
    intro c hc
    rcases List.mem_cons.1 hc with rfl | hc
    · exact hlt
    · exact Std.TransCmp.lt_trans hlt (h.order c hc)

/-- What every step of the merge preserves holds wherever it passes. -/
theorem mergeRun_rule (hw : answers.FreshWalks) (P : List Nat → List Subdir → Merge → Prop)
    (hstep : ∀ {children subdirs m children' subdirs' m'}, Merging node all children subdirs m →
      MergeStep target answers node all children subdirs m children' subdirs' m' → P children subdirs m → P children' subdirs' m')
    (hr : MergeRun target answers node children subdirs m children' subdirs' m') (h : Merging node all children subdirs m)
    (hp : P children subdirs m) : Merging node all children' subdirs' m' ∧ P children' subdirs' m' := by
  induction hr with
  | refl => exact ⟨h, hp⟩
  | keep ho _ ih =>
    obtain ⟨hname, hsame⟩ := childOrder_eq ho
    exact ih (h.keep hname) (hstep h (.keep hname hsame) hp)
  | drop ho _ ih => exact ih h.drop (hstep h (.drop (h.gone ho)) hp)
  | add ho _ ih =>
    have hlt := h.ahead ho
    exact ih (h.add hw hlt) (hstep h (.add (h.fresh hlt)) hp)

end Steps

/-! ## Notes beside the merge -/

section Notes

variable (target : Target) (answers : Answers) (node : Nat)

/-- `mergeChildren`, with notes that only a new subdirectory adds to. -/
def mergeNotes {α : Type} (onAdd : Merge → Subdir → α → α) : Nat → List Nat → List Subdir → Merge → α → α
  | 0, _, _, _, notes => notes
  | _, [], [], _, notes => notes
  | fuel + 1, child :: children, [], m, notes => mergeNotes onAdd fuel children [] (m.drop child) notes
  | fuel + 1, [], subdir :: subdirs, m, notes =>
    mergeNotes onAdd fuel [] subdirs (m.add target answers node subdir) (onAdd m subdir notes)
  | fuel + 1, child :: children, subdir :: subdirs, m, notes =>
    match childOrder answers m.st child subdir with
    | .eq => mergeNotes onAdd fuel children subdirs (m.keep child subdir) notes
    | .lt => mergeNotes onAdd fuel children (subdir :: subdirs) (m.drop child) notes
    | .gt => mergeNotes onAdd fuel (child :: children) subdirs (m.add target answers node subdir) (onAdd m subdir notes)

end Notes

/-- What each step of the merge keeps true of its notes is true of them at its end. -/
theorem mergeNotes_rule {α : Type} {onAdd : Merge → Subdir → α → α} {target : Target} {answers : Answers} {node : Nat}
    {P : Merge → α → Prop} (hkeep : ∀ m child subdir notes, P m notes → P (m.keep child subdir) notes)
    (hdrop : ∀ m child notes, P m notes → P (m.drop child) notes)
    (hadd : ∀ m subdir notes, P m notes → P (m.add target answers node subdir) (onAdd m subdir notes)) :
    ∀ (fuel : Nat) (children : List Nat) (subdirs : List Subdir) (m : Merge) (notes : α), P m notes →
      P (mergeChildren target answers node fuel children subdirs m)
        (mergeNotes target answers node onAdd fuel children subdirs m notes)
  | 0, _, _, _, _, h => h
  | _ + 1, [], [], _, _, h => h
  | fuel + 1, child :: children, [], m, notes, h =>
    mergeNotes_rule hkeep hdrop hadd fuel children [] _ notes (hdrop m child notes h)
  | fuel + 1, [], subdir :: subdirs, m, notes, h =>
    mergeNotes_rule hkeep hdrop hadd fuel [] subdirs _ _ (hadd m subdir notes h)
  | fuel + 1, child :: children, subdir :: subdirs, m, notes, h => by
    rw [mergeChildren, mergeNotes]
    cases childOrder answers m.st child subdir with
    | eq => exact mergeNotes_rule hkeep hdrop hadd fuel children subdirs _ notes (hkeep m child subdir notes h)
    | lt => exact mergeNotes_rule hkeep hdrop hadd fuel children (subdir :: subdirs) _ notes (hdrop m child notes h)
    | gt => exact mergeNotes_rule hkeep hdrop hadd fuel (child :: children) subdirs _ _ (hadd m subdir notes h)

/-- The state a listing's subdirectories are merged into. -/
def startMerge (st : TreeState) (node : Nat) (listing : Listing) : Merge :=
  let s := settleLinks st.tree node listing.links listing.direct
  { st := ({ st with tree := { st.tree with links := s.links } } : TreeState).setPlain node listing.plain
    handed := s.handed
    adopted := s.adopted }

end StorageHarvester
