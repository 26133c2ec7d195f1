/-
What a scan reports. A directory down to the report depth gets a node whatever the cap, and its node holds
what was met of it, so two scans of one file system that report the same directories report the same of
them.
-/
import StorageHarvester.Scan.Agrees

namespace StorageHarvester

open Forest
open WorkPool (Bag BagReachable)

namespace Walk

/-! ## What a node was met as -/

/-- A node registered for an entry that was met. -/
structure FoundAs (r : Tallied) (node : TrackedNode) : Prop where
  kept : r.kept = true
  parent : node.parent = some r.job.node
  name : node.name = r.name
  ino : node.ino = r.stat.ino
  blocks : node.ownBlocks = r.stat.blocks
  apparent : node.ownApparent = r.stat.size

/-- The nodes, and those offered to be, are what was met. -/
structure NodesMet {n : Nat} (root : TrackedNode) (b : Bag n Job Progress Worker Shared) (log : List Tallied) : Prop where
  root : ∃ more, b.shared.nodes.map TrackedNode.fixed = root.fixed :: more ∧ ∀ node ∈ more, ∃ r ∈ log, FoundAs r node
  pending : ∀ i job p, b.active i = some (job, .reading p) → ∀ dir ∈ p.pending, ∃ r ∈ log, FoundAs r (register p.job dir)

theorem FoundAs.fixed {r : Tallied} {node : TrackedNode} (h : FoundAs r node) : FoundAs r node.fixed :=
  ⟨h.kept, h.parent, h.name, h.ino, h.blocks, h.apparent⟩

/-- An entry offers a node to what it is met as. -/
theorem readEntry_pending (w : Walk) (e : Entry) (p : InDir) (d : Worker) (k : Nat) {dir : PendingDir}
    (hdir : dir ∈ (w.readEntry e p d k).1.pending) :
    dir ∈ p.pending ∨ ∃ r ∈ w.tallies p.job e k, FoundAs r (register p.job dir) := by
  unfold readEntry at hdir
  unfold tallies
  by_cases hdot : isDot e.name = true
  · rw [if_pos hdot] at hdir
    exact .inl hdir
  rw [if_neg hdot] at hdir
  by_cases hx : w.excludes p.job e.name = true
  · rw [if_pos hx] at hdir
    exact .inl hdir
  rw [if_neg hx] at hdir
  rw [if_neg (by simp [hdot, hx])]
  cases hs : e.stat with
  | error err =>
    rw [hs] at hdir
    dsimp only at hdir
    split at hdir <;> exact .inl hdir
  | ok stat =>
    rw [hs] at hdir
    dsimp only at hdir ⊢
    by_cases hdev : (w.target.noCrossFilesystem && decide (stat.dev ≠ w.rootDev)) = true
    · rw [if_pos hdev] at hdir
      exact .inl hdir
    rw [if_neg hdev] at hdir
    rw [if_neg hdev]
    cases hk : stat.kind with
    | directory =>
      rw [hk] at hdir
      unfold readSubdir at hdir
      dsimp only at hdir
      split at hdir
      · rename_i ht
        split at hdir
        · rename_i hkeeps
          rcases List.mem_append.1 hdir with hdir | hdir
          · exact .inl hdir
          · rw [List.mem_singleton.1 hdir]
            refine .inr ⟨_, List.mem_singleton_self _, ?_, rfl, rfl, rfl, rfl, rfl⟩
            simp [Tallied.kept, ht, hk, hkeeps]
        · split at hdir <;> exact .inl hdir
      · split at hdir <;> exact .inl hdir
    | file => rw [hk] at hdir; exact .inl hdir
    | symlink => rw [hk] at hdir; exact .inl hdir
    | other => rw [hk] at hdir; exact .inl hdir

section NodesMet

variable {n : Nat} {w : Walk} {host : Host} {root : TrackedNode} {b : Bag n Job Progress Worker Shared} {log : List Tallied}
  {i : Fin (n + 1)}

theorem NodesMet.more (h : NodesMet root b log) {job : Job} {p p' : Progress} {d' : Worker} {s' : Shared} {interrupted : Bool}
    (hi : b.active i = some (job, p)) (ht : ReadStep w host.listing interrupted p (b.data i) b.shared (.more p' d' s')) :
    NodesMet root { b with active := Function.update b.active i (some (job, p')), data := Function.update b.data i d', shared := s' }
      (log ++ p.tallies w b.shared.tracked) := by
  have hgrown : ∀ {node : TrackedNode}, (∃ r ∈ log, FoundAs r node) → ∃ r ∈ log ++ p.tallies w b.shared.tracked, FoundAs r node :=
    fun ⟨r, hr, hf⟩ => ⟨r, List.mem_append_left _ hr, hf⟩
  constructor
  · obtain ⟨more, hmore, hfound⟩ := h.root
    refine ⟨more, ?_, fun node hn => hgrown (hfound node hn)⟩
    have hnodes : s'.nodes = b.shared.nodes := by cases ht <;> rfl
    show s'.nodes.map _ = _
    rw [hnodes]
    exact hmore
  · rintro i' job' q hq dir hdir
    change Function.update b.active i (some (job, p')) i' = _ at hq
    rw [Function.update_apply] at hq
    split at hq
    · cases ht with
      | opened hr =>
        cases hq
        exact absurd hdir List.not_mem_nil
      | @entry p₀ e rest _ _ hl hint =>
        cases hq
        have hkept := readEntry_kept w e { p₀ with left := rest } (b.data i) b.shared.tracked
        rw [hkept.job]
        rcases readEntry_pending w e { p₀ with left := rest } (b.data i) b.shared.tracked hdir with hdir | ⟨r, hr, hf⟩
        · exact hgrown (h.pending i _ p₀ hi dir hdir)
        · rw [tallies_reading w hl]
          exact ⟨r, List.mem_append_right _ hr, hf⟩
    · exact hgrown (h.pending i' job' q hq dir hdir)

theorem NodesMet.done (h : NodesMet root b log) {job : Job} {p : Progress} {children : List Job} {d' : Worker} {s' : Shared}
    {interrupted : Bool} (hi : b.active i = some (job, p))
    (ht : ReadStep w host.listing interrupted p (b.data i) b.shared (.done children d' s')) :
    NodesMet root ⟨b.pending + children, Function.update b.active i none, Function.update b.data i d', s'⟩ log := by
  obtain ⟨more, hmore, hfound⟩ := h.root
  have hended : ∀ (p₀ : InDir) (nodes : List TrackedNode), p = .reading p₀ → nodes.map TrackedNode.fixed = b.shared.nodes.map TrackedNode.fixed →
      ∃ more, (p₀.registered nodes).map TrackedNode.fixed = root.fixed :: more ∧ ∀ node ∈ more, ∃ r ∈ log, FoundAs r node := by
    rintro p₀ nodes rfl hn
    refine ⟨more ++ (p₀.pending.map (register p₀.job)).map TrackedNode.fixed, ?_, fun node hm => ?_⟩
    · rw [fixed_registered, List.map_append, hn, hmore]
      rfl
    · rcases List.mem_append.1 hm with hm | hm
      · exact hfound node hm
      · obtain ⟨registered, hregistered, rfl⟩ := List.mem_map.1 hm
        obtain ⟨dir, hdir, rfl⟩ := List.mem_map.1 hregistered
        obtain ⟨r, hr, hf⟩ := h.pending i job p₀ hi dir hdir
        exact ⟨r, hr, hf.fixed⟩
  constructor
  · cases ht with
    | @unopened job' _ _ _ _ _ _ => exact ⟨more, (fixed_sealNode job' _).trans hmore, hfound⟩
    | closed hl hf => exact hended _ _ rfl rfl
    | closedEarly hl hf htol => exact hended _ _ rfl (fixed_sealNode _ _)
  · rintro i' job' q hq dir hdir
    change Function.update b.active i none i' = _ at hq
    rw [Function.update_apply] at hq
    split at hq
    · cases hq
    · exact h.pending i' job' q hq dir hdir

theorem Logging.nodesMet {data : Fin (n + 1) → Worker} (h : Logging w host data root b log) : NodesMet root b log := by
  induction h with
  | initial => exact ⟨⟨[], rfl, fun node hn => absurd hn List.not_mem_nil⟩, fun i job p hp => by cases hp⟩
  | @start b log i job rest h hi hj ih =>
    refine ⟨ih.root, ?_⟩
    rintro i' job' q hq dir hdir
    change Function.update b.active i _ i' = _ at hq
    rw [Function.update_apply] at hq
    split at hq
    · cases hq
    · exact ih.pending i' job' q hq dir hdir
  | more h hi ht ih => exact ih.more hi ht
  | done h hi ht ih => exact ih.done hi ht

/-- A node is refused only below the report depth. -/
theorem Logging.refused_deep {data : Fin (n + 1) → Worker} (h : Logging w host data root b log) :
    ∀ r ∈ log, r.refused = true → w.target.reportDepth < r.job.depth + 1 := by
  induction h with
  | initial => exact fun r hr => absurd hr List.not_mem_nil
  | start h hi hj ih => exact ih
  | done h hi ht ih => exact ih
  | @more b log i _ job p p' d' s' h hi ht ih =>
    rintro r hr href
    rcases List.mem_append.1 hr with hr | hr
    · exact ih r hr href
    have hone : ∀ (job : Job) (e : Entry) (k : Nat), r ∈ w.tallies job e k → w.target.reportDepth < r.job.depth + 1 := by
      rintro job e k hr
      unfold tallies at hr
      split at hr
      · exact absurd hr List.not_mem_nil
      · split at hr
        · exact absurd hr List.not_mem_nil
        · split at hr
          · exact absurd hr List.not_mem_nil
          · rw [List.mem_singleton.1 hr] at href ⊢
            simp only [Bool.and_eq_true, Bool.not_eq_true', keeps, Bool.or_eq_false_iff, decide_eq_false_iff_not] at href
            exact Nat.lt_of_not_le href.2.1
    unfold Progress.tallies at hr
    split at hr
    · exact absurd hr List.not_mem_nil
    · split at hr
      · exact absurd hr List.not_mem_nil
      · exact hone _ _ _ hr

end NodesMet

/-! ## Where they were met -/

theorem depth_eq_length {t : DirTree} (h : Shape t) {i : Nat} (hi : (t.node i).alive = true) : (t.node i).depth = (t.components i).length := by
  induction i using Nat.strong_induction_on with
  | _ i ih =>
    rcases Nat.eq_zero_or_pos i with rfl | hpos
    · rw [h.depth_root, Shape.components_zero]
      rfl
    · obtain ⟨p, hp⟩ := h.hasParent i hpos (DirTree.lt_of_alive hi)
      rw [h.depth i p hp, h.components_of_parent hp, ih p (h.down i p hp) (h.listed i p hi hp).1, List.length_append]
      rfl

theorem MetOn.spelled {fs : Frozen} {target : Target} {hash : Bytes → Nat} {met : Multiset Met} (hp : Proper fs) (h : MetOn fs target hash met)
    {m : Met} (hm : m ∈ met) :
    ∃ names : List Bytes, (∀ name ∈ names, ProperName name) ∧ m.place = (DirTree.join target.scanPath names, names.length) := by
  obtain ⟨⟨root, begun, hb, hx⟩, -⟩ := h.listed hm
  exact hb.spelled hp hx

section Nodes

variable {host : Host} {target : Target} {hash : Bytes → Nat} {t : DirTree} {log : List Tallied} {won : Table Inode (Nat × Link)}
  {w : Walk} {n : Nat} {b : Bag n Job Progress Worker Shared} {data : Fin (n + 1) → Worker} {root : TrackedNode}

/-- What was met directly in a tracked directory counts for its node, and nothing else does. -/
theorem ScanBag.at_iff (h : ScanBag logger host target t log won w b data root) (hk : host.listing.Proper) {r : Tallied} (hr : r ∈ log)
    {i : Nat} (hi : (t.node i).alive = true) :
    r.job.node = i ∧ r.job.tracked = true ↔ r.job.path = DirTree.join t.scanRoot (t.components i) := by
  have hfresh := h.fresh hk
  have hnode : (t.node r.job.node).alive = true := hfresh.alive _ (h.length ▸ (h.ledger hk).placed r hr)
  obtain ⟨extra, hextra, hspells, hnil, hother⟩ := h.spells hk hr
  have hproper : ∀ {j : Nat}, (t.node j).alive = true → ∀ name ∈ t.components j, ProperName name := fun hj =>
    hfresh.shape.components_proper hfresh.names hj
  constructor
  · rintro ⟨rfl, ht⟩
    rw [hspells, hnil.1 ht, List.append_nil]
  · rintro hpath
    have hlists : t.components r.job.node ++ extra = t.components i := by
      refine join_injective (fun name hn => ?_) (hproper hi) (hspells.symm.trans hpath)
      exact (List.mem_append.1 hn).elim (hproper hnode name) (hextra name)
    cases extra with
    | nil =>
      rw [List.append_nil] at hlists
      exact ⟨components_inj hfresh.shape hnode hi hlists, hnil.2 rfl⟩
    | cons other rest =>
      -- the directory's own node would have a child on the way
      have hchild : t.components r.job.node ++ [other] <+: t.components i := ⟨rest, by rw [← hlists]; simp⟩
      obtain ⟨a, ha, hp, hname⟩ := exists_child hfresh.shape hnode hi hchild
      exact absurd hname (hother a hp ha other rfl)

/-- A node below the root holds what was met of it in its parent's directory. -/
theorem ScanBag.found (h : ScanBag logger host target t log won w b data root) {i : Nat} (hi : i < t.nodes.length)
    (hpos : 0 < i) : ∃ r ∈ log, FoundAs r (nodeIn b.shared.nodes i) := by
  have hlt : i < b.shared.nodes.length := h.length ▸ hi
  obtain ⟨more, hmore, hfound⟩ := h.logging.nodesMet.root
  have hget : (b.shared.nodes.map TrackedNode.fixed)[i]? = some (nodeIn b.shared.nodes i).fixed := by
    unfold nodeIn
    rw [List.getElem?_map, List.getD_eq_getElem _ _ hlt, List.getElem?_eq_getElem hlt]
    rfl
  have hin : (nodeIn b.shared.nodes i).fixed ∈ more := by
    obtain ⟨k, rfl⟩ : ∃ k, i = k + 1 := ⟨i - 1, by omega⟩
    rw [hmore, List.getElem?_cons_succ] at hget
    exact List.mem_of_getElem? hget
  obtain ⟨r, hr, hf⟩ := hfound _ hin
  exact ⟨r, hr, hf.kept, hf.parent, hf.name, hf.ino, hf.blocks, hf.apparent⟩

/-- A subdirectory kept is a node of its name. -/
theorem ScanBag.child (h : ScanBag logger host target t log won w b data root) (hk : host.listing.Proper) {r : Tallied} (hr : r ∈ log)
    (hkept : r.kept = true) : ∃ a, a < t.nodes.length ∧ (t.node a).parent = some r.job.node ∧ (t.node a).name = r.name := by
  obtain ⟨-, hchildren⟩ := h.read hk hr r.job.node
  have htracked : r.job.tracked = true := by
    unfold Tallied.kept at hkept
    simp only [Bool.and_eq_true] at hkept
    exact hkept.1.1
  have hmem : r.name ∈ childNames b.shared.nodes r.job.node := by
    rw [← hchildren]
    exact List.mem_map_of_mem (List.mem_filter.2 ⟨List.mem_filter.2 ⟨hr, by simpa using htracked⟩, hkept⟩)
  obtain ⟨node, hn, hname⟩ := List.mem_map.1 hmem
  obtain ⟨hn, hparent⟩ := List.mem_filter.1 hn
  obtain ⟨a, ha, rfl⟩ := List.getElem_of_mem hn
  obtain ⟨tallies, hb, -⟩ := built_of_finish h.tree
  have hnode : t.node a = _ := hb.node a ha
  have hin : nodeIn b.shared.nodes a = b.shared.nodes[a] := by
    unfold nodeIn
    rw [List.getD_eq_getElem _ _ ha]
  refine ⟨a, h.length ▸ ha, ?_, ?_⟩
  · rw [hnode]
    show (nodeIn b.shared.nodes a).parent = _
    rw [hin]
    simpa using hparent
  · rw [hnode]
    show (nodeIn b.shared.nodes a).name = _
    rw [hin]
    exact hname

/-- What a node holds of its own inode. -/
structure SameOwn (node node' : DirNode) : Prop where
  ino : node'.ino = node.ino
  blocks : node'.ownBlocks = node.ownBlocks
  apparent : node'.ownApparent = node.ownApparent

theorem ScanBag.own (h : ScanBag logger host target t log won w b data root) {i : Nat} (hi : i < t.nodes.length) :
    (t.node i).parent = (nodeIn b.shared.nodes i).parent ∧ (t.node i).name = (nodeIn b.shared.nodes i).name ∧
      (t.node i).ino = (nodeIn b.shared.nodes i).ino ∧ (t.node i).ownBlocks = (nodeIn b.shared.nodes i).ownBlocks ∧
      (t.node i).ownApparent = (nodeIn b.shared.nodes i).ownApparent := by
  obtain ⟨tallies, hb, -⟩ := built_of_finish h.tree
  have hnode : t.node i = _ := hb.node i (h.length ▸ hi)
  rw [hnode]
  exact ⟨rfl, rfl, rfl, rfl, rfl⟩

theorem ScanBag.root_own (h : ScanBag logger host target t log won w b data root) :
    (t.node 0).ino = root.ino ∧ (t.node 0).ownBlocks = root.ownBlocks ∧ (t.node 0).ownApparent = root.ownApparent := by
  obtain ⟨more, hmore, -⟩ := h.logging.nodesMet.root
  have hpos : 0 < b.shared.nodes.length := by
    have hlen := congrArg List.length hmore
    rw [List.length_map, List.length_cons] at hlen
    omega
  have hget : (nodeIn b.shared.nodes 0).fixed = root.fixed := by
    have hhead : (b.shared.nodes.map TrackedNode.fixed)[0]? = some (nodeIn b.shared.nodes 0).fixed := by
      unfold nodeIn
      rw [List.getElem?_map, List.getD_eq_getElem _ _ hpos, List.getElem?_eq_getElem hpos]
      rfl
    rw [hmore] at hhead
    exact (Option.some.inj hhead).symm
  obtain ⟨-, -, hino, hblocks, happarent⟩ := h.own (h.length ▸ hpos)
  have hsame : ∀ {α : Type} (f : TrackedNode → α), (∀ node, f node.fixed = f node) → f (nodeIn b.shared.nodes 0) = f root := by
    rintro α f hf
    rw [← hf, hget, hf]
  exact ⟨hino.trans (hsame TrackedNode.ino fun _ => rfl), hblocks.trans (hsame TrackedNode.ownBlocks fun _ => rfl),
    happarent.trans (hsame TrackedNode.ownApparent fun _ => rfl)⟩

end Nodes

/-! ## Directories that both track -/

section Both

variable {host host' : Host} {fs : Frozen} {target target' : Target} {hash : Bytes → Nat} {t t' : DirTree} {log log' : List Tallied}
  {won won' : Table Inode (Nat × Link)}

/-- An entry of a tracked directory was met as deep as its node is. -/
theorem LogScan.depth_tracked (hs : LogScan host target hash t log won) (hf : host.Frozen fs) (hk : host.listing.Proper) {r : Tallied}
    (hr : r ∈ log) (ht : r.job.tracked = true) : r.job.depth = (t.components r.job.node).length := by
  obtain ⟨root, handle, n, b, data, -, hb, -⟩ := hs.started
  have hfresh := hb.fresh hk
  have halive := hfresh.alive _ (hb.length ▸ (hb.ledger hk).placed r hr)
  have hpath := (hb.at_iff hk hr halive).1 ⟨rfl, ht⟩
  obtain ⟨names, hnames, hplace⟩ := (hs.metOn hf).spelled (proper_of_host hf hk) (Multiset.mem_coe.2 (List.mem_map_of_mem hr))
  have hspelled : DirTree.join t.scanRoot names = DirTree.join t.scanRoot (t.components r.job.node) := by
    rw [← hpath, scanRoot_of_logScan hs]
    exact (congrArg Prod.fst hplace).symm
  have hlists := join_injective hnames (hfresh.shape.components_proper hfresh.names halive) hspelled
  rw [← hlists]
  exact congrArg Prod.snd hplace

/-- Down to its report depth a scan tracks what another one of the same file system tracks, with the same own figures. -/
theorem Twins.tracked (h : Twins fs host host' target target' hash) (hs : LogScan host target hash t log won)
    (hs' : LogScan host' target' hash t' log' won') {i : Nat} (hi : i < t.nodes.length)
    (hdepth : (t.components i).length ≤ target'.reportDepth) :
    ∃ i', i' < t'.nodes.length ∧ t'.components i' = t.components i ∧ SameOwn (t.node i) (t'.node i') := by
  obtain ⟨root, handle, n, b, data, hroot, hb, -⟩ := hs.started
  obtain ⟨root', handle', n', b', data', hroot', hb', -⟩ := hs'.started
  have hfresh := hb.fresh h.proper
  have hfresh' := hb'.fresh h.proper'
  have hsame := h.same_met hs hs'
  have hscan : t'.scanRoot = t.scanRoot := by rw [scanRoot_of_logScan hs, scanRoot_of_logScan hs', h.alike.scanPath]
  induction i using Nat.strong_induction_on with
  | _ i ih =>
    rcases Nat.eq_zero_or_pos i with rfl | hpos
    · refine ⟨0, hfresh'.shape.pos, by rw [Shape.components_zero, Shape.components_zero], ?_⟩
      have hstat := h.frozen.stat _ _ _ hroot
      have hstat' := h.frozen'.stat _ _ _ hroot'
      rw [h.alike.scanPath, h.alike.followSymlinks, ← hstat] at hstat'
      obtain rfl := Except.ok.inj hstat'
      obtain ⟨h1, h2, h3⟩ := hb.root_own
      obtain ⟨h1', h2', h3'⟩ := hb'.root_own
      exact ⟨h1'.trans h1.symm, h2'.trans h2.symm, h3'.trans h3.symm⟩
    · obtain ⟨r, hr, hf⟩ := hb.found hi hpos
      obtain ⟨hparent, hname, hino, hblocks, happarent⟩ := hb.own hi
      have hp : (t.node i).parent = some r.job.node := hparent.trans hf.parent
      have hcomponents := hfresh.shape.components_of_parent hp
      rw [hname, hf.name] at hcomponents
      have hplt : r.job.node < i := hfresh.shape.down i _ hp
      have hpdepth : (t.components r.job.node).length + 1 ≤ target'.reportDepth := by
        rw [hcomponents, List.length_append] at hdepth
        exact hdepth
      obtain ⟨p', hp', hpc, -⟩ := ih r.job.node hplt (hplt.trans hi) (by omega)
      -- the other walk met it in the same directory
      have hm : r.met ∈ ((log'.map Tallied.met : List Met) : Multiset Met) := hsame ▸ Multiset.mem_coe.2 (List.mem_map_of_mem hr)
      obtain ⟨r', hr', he⟩ := List.mem_map.1 (Multiset.mem_coe.1 hm)
      have hkept := hf.kept
      unfold Tallied.kept at hkept
      simp only [Bool.and_eq_true, Bool.not_eq_true', decide_eq_true_eq] at hkept
      have hpath : r.job.path = DirTree.join t.scanRoot (t.components r.job.node) :=
        (hb.at_iff h.proper hr (hfresh.alive _ (hplt.trans hi))).1 ⟨rfl, hkept.1.1⟩
      have hpath' : r'.job.path = DirTree.join t'.scanRoot (t'.components p') := by
        rw [hscan, hpc, ← hpath]
        exact congrArg (fun m : Met => m.place.1) he
      obtain ⟨hat', htracked'⟩ := (hb'.at_iff h.proper' hr' (hfresh'.alive p' hp')).2 hpath'
      have hkept' : r'.kept = true := by
        have hdeep : r'.refused = false := by
          rw [Bool.eq_false_iff]
          rintro href
          have hlt := hb'.logging.refused_deep r' hr' href
          rw [hs'.depth_tracked h.frozen' h.proper' hr' htracked', hat', hpc, hb'.target_eq] at hlt
          omega
        have hkind : r'.stat.kind = .directory := (congrArg (fun m : Met => m.stat.kind) he).trans hkept.1.2
        unfold Tallied.kept
        rw [htracked', hdeep, hkind]
        rfl
      obtain ⟨i', hi', hpar', hname'⟩ := hb'.child h.proper' hr' hkept'
      have hnamed : r'.name = r.name := congrArg Met.name he
      refine ⟨i', hi', ?_, ?_⟩
      · rw [hfresh'.shape.components_of_parent hpar', hat', hpc, hname', hnamed, hcomponents]
      -- its node holds what was met under that name, and there is one such
      have hpos' : 0 < i' := by
        by_contra h0
        obtain rfl : i' = 0 := by omega
        rw [hfresh'.shape.root.2] at hpar'
        cases hpar'
      obtain ⟨q', hq', hf'⟩ := hb'.found hi' hpos'
      obtain ⟨hparent', hqname', hino', hblocks', happarent'⟩ := hb'.own hi'
      have hnode : q'.job.node = r'.job.node := by
        rw [hparent', hf'.parent] at hpar'
        exact Option.some.inj hpar'
      have hqtracked : q'.job.tracked = true := by
        have hk := hf'.kept
        unfold Tallied.kept at hk
        simp only [Bool.and_eq_true] at hk
        exact hk.1.1
      have hone : q' = r' := by
        refine List.inj_on_of_nodup_map (hb'.read h.proper' hr' r'.job.node).1 (List.mem_filter.2 ⟨hq', by simp [hnode, hqtracked]⟩)
          (List.mem_filter.2 ⟨hr', by simp [htracked']⟩) ?_
        rw [← hf'.name, ← hqname', hname']
      have hstat : r'.stat = r.stat := congrArg Met.stat he
      rw [hone] at hf'
      constructor
      · rw [hino', hino, hf'.ino, hf.ino, hstat]
      · rw [hblocks', hblocks, hf'.blocks, hf.blocks, hstat]
      · rw [happarent', happarent, hf'.apparent, hf.apparent, hstat]

/-- A component that counts entries. -/
def CountsEntries (c : Component) : Prop := ∀ blocks apparent, sizeAt blocks apparent c = 0

theorem wonIn_counts (winners : List (Inode × Nat × Link)) (node : Nat) (direct : Bool) {c : Component} (hc : CountsEntries c) :
    wonIn winners node direct c = 0 := by
  apply List.sum_eq_zero
  rintro x hx
  obtain ⟨e, -, rfl⟩ := List.mem_map.1 hx
  rw [hc, ite_self]

open Classical in
/-- A directory tracked by both holds the same numbers of entries directly, up to the limit of a `u64`. -/
theorem Twins.direct_agree (h : Twins fs host host' target target' hash) (hs : LogScan host target hash t log won)
    (hs' : LogScan host' target' hash t' log' won') {i i' : Nat} (hi : i < t.nodes.length) (hi' : i' < t'.nodes.length)
    (hc : t'.components i' = t.components i) {c : Component} (hcount : CountsEntries c) :
    min ((t'.node i').direct.get c) u64Max = min ((t.node i).direct.get c) u64Max := by
  have hone : ∀ {host : Host} {target : Target} {t : DirTree} {log : List Tallied} {won : Table Inode (Nat × Link)} {i : Nat},
      host.listing.Proper → LogScan host target hash t log won → i < t.nodes.length →
      min ((t.node i).direct.get c) u64Max =
        min (addedUp ((log.map Tallied.met : List Met) : Multiset Met) (fun m => m.place.1 = DirTree.join t.scanRoot (t.components i)) c) u64Max := by
    rintro host target t log won i hk hs hi
    obtain ⟨root, handle, n, b, data, -, hb, -⟩ := hs.started
    obtain ⟨tallies, hbuilt, -, htallies⟩ := built_of_finish hb.tree
    have hdirect : (t.node i).direct = (tallies i).direct := by
      rw [hbuilt.node i (hb.length ▸ hi)]
      rfl
    have hsums := htallies i true c
    rw [wonIn_counts _ _ _ hcount, Nat.add_zero, hb.sums i true c] at hsums
    rw [hdirect]
    refine hsums.trans ?_
    unfold noted
    rw [amounts_filter log (Q := fun m => m.place.1 = DirTree.join t.scanRoot (t.components i))
      fun r hr => hb.at_iff hk hr ((hb.fresh hk).alive i hi)]
  have hscan : t'.scanRoot = t.scanRoot := by rw [scanRoot_of_logScan hs, scanRoot_of_logScan hs', h.alike.scanPath]
  rw [hone h.proper hs hi, hone h.proper' hs' hi', h.same_met hs hs', hc, hscan]

end Both

/-! ## What is reported -/

/-- The order of paths puts the same entries of distinct paths in one order. -/
theorem sort_eq_of_perm {α : Type} (key : α → List Bytes) {l l' : List α} (hp : l.Perm l')
    (hinj : ∀ a ∈ l, ∀ b ∈ l, key a = key b → a = b) :
    l.insertionSort (fun a b => componentsLe (key a) (key b) = true) = l'.insertionSort fun a b => componentsLe (key a) (key b) = true := by
  have htotal : Std.Total fun a b : α => componentsLe (key a) (key b) = true := ⟨fun a b => by
    unfold componentsLe
    cases hc : compare (key a) (key b) with
    | lt => exact .inl rfl
    | eq => exact .inl rfl
    | gt => exact .inr (by rw [Std.OrientedCmp.gt_iff_lt.1 hc]; rfl)⟩
  have htrans : IsTrans α fun a b => componentsLe (key a) (key b) = true := ⟨fun a b c hab hbc => by
    unfold componentsLe at hab hbc ⊢
    simp only [ne_eq, decide_eq_true_eq] at hab hbc ⊢
    exact Ordering.isLE_iff_ne_gt.1 (Std.TransCmp.isLE_trans (Ordering.isLE_iff_ne_gt.2 hab) (Ordering.isLE_iff_ne_gt.2 hbc))⟩
  refine List.Perm.eq_of_pairwise (fun a b ha hb hab hba => ?_) (List.pairwise_insertionSort _ l) (List.pairwise_insertionSort _ l')
    ((List.perm_insertionSort _ l).trans (hp.trans (List.perm_insertionSort _ l').symm))
  have ha := (List.mem_insertionSort _).1 ha
  have hb := hp.mem_iff.2 ((List.mem_insertionSort _).1 hb)
  apply hinj a ha b hb
  unfold componentsLe at hab hba
  simp only [ne_eq, decide_eq_true_eq] at hab hba
  cases hc : compare (key a) (key b) with
  | lt => exact absurd (Std.OrientedCmp.gt_iff_lt.2 hc) hba
  | eq => exact Std.LawfulEqCmp.eq_of_compare hc
  | gt => exact absurd hc hab

section Reported

variable {t t' : DirTree}

/-- The directories a scan reports, each with its path, in the order of their nodes. -/
def reportable (target : Target) (tree : DirTree) : List (List Bytes × NodeObservation) :=
  ((List.range tree.nodes.length).filter fun index => (tree.node index).alive && isReported target (tree.node index).depth).map
    fun index => (tree.components index, observe tree index)

theorem mem_reportable {target : Target} {p : List Bytes × NodeObservation} : p ∈ reportable target t ↔
    ∃ i, (t.node i).alive = true ∧ isReported target (t.node i).depth = true ∧ (t.components i, observe t i) = p := by
  unfold reportable
  rw [List.mem_map]
  constructor
  · rintro ⟨i, hi, rfl⟩
    obtain ⟨-, hi⟩ := List.mem_filter.1 hi
    rw [Bool.and_eq_true] at hi
    exact ⟨i, hi.1, hi.2, rfl⟩
  · rintro ⟨i, ha, hr, rfl⟩
    exact ⟨i, List.mem_filter.2 ⟨List.mem_range.2 (DirTree.lt_of_alive ha), by rw [ha, hr]; rfl⟩, rfl⟩

/-- No two directories alive have one path. -/
theorem nodup_reportable (target : Target) (hshape : Shape t) : (reportable target t).Nodup := by
  refine (List.nodup_map_iff_inj_on (List.nodup_range.filter _)).2 ?_
  rintro i hi j hj he
  have halive : ∀ k ∈ (List.range t.nodes.length).filter fun index => (t.node index).alive && isReported target (t.node index).depth,
      (t.node k).alive = true := fun k hk => (Bool.and_eq_true_iff.1 (List.mem_filter.1 hk).2).1
  exact components_inj hshape (halive i hi) (halive j hj) (congrArg Prod.fst he)

/-- Sorted by distinct paths, the same observations are the same list. -/
theorem reported_congr {target target' : Target} (hshape : Shape t) (hshape' : Shape t')
    (h : ∀ i, (t.node i).alive = true → isReported target (t.node i).depth = true →
      ∃ i', (t'.node i').alive = true ∧ isReported target' (t'.node i').depth = true ∧ t'.components i' = t.components i ∧
        observe t' i' = observe t i)
    (h' : ∀ i', (t'.node i').alive = true → isReported target' (t'.node i').depth = true →
      ∃ i, (t.node i).alive = true ∧ isReported target (t.node i).depth = true ∧ t.components i = t'.components i' ∧
        observe t i = observe t' i') :
    reported target t = reported target' t' := by
  have hperm : (reportable target t).Perm (reportable target' t') := by
    apply (List.perm_ext_iff_of_nodup (nodup_reportable target hshape) (nodup_reportable target' hshape')).2
    rintro p
    rw [mem_reportable, mem_reportable]
    constructor
    · rintro ⟨i, ha, hr, rfl⟩
      obtain ⟨i', ha', hr', hc, ho⟩ := h i ha hr
      exact ⟨i', ha', hr', by rw [hc, ho]⟩
    · rintro ⟨i', ha', hr', rfl⟩
      obtain ⟨i, ha, hr, hc, ho⟩ := h' i' ha' hr'
      exact ⟨i, ha, hr, by rw [hc, ho]⟩
  show ((reportable target t).insertionSort _).map _ = ((reportable target' t').insertionSort _).map _
  rw [sort_eq_of_perm Prod.fst hperm]
  rintro p hp q hq he
  obtain ⟨i, hi, -, rfl⟩ := mem_reportable.1 hp
  obtain ⟨j, hj, -, rfl⟩ := mem_reportable.1 hq
  rw [components_inj hshape hi hj he]

/-- A directory is observed by its path and its figures. -/
theorem observe_congr (hshape : Shape t) (hshape' : Shape t') {i i' : Nat} (hi : (t.node i).alive = true) (hi' : (t'.node i').alive = true)
    (hroot : t'.displayRoot = t.displayRoot) (hc : t'.components i' = t.components i) (hown : SameOwn (t.node i) (t'.node i'))
    (hsub : ∀ c, (t'.node i').sub.get c = (t.node i).sub.get c)
    (hdirect : ∀ c, CountsEntries c → (t'.node i').direct.get c = (t.node i).direct.get c) : observe t' i' = observe t i := by
  have hpath : ∀ {j j' : Nat}, t'.components j' = t.components j → t'.displayPathBytes j' = t.displayPathBytes j := by
    rintro j j' hj
    unfold DirTree.displayPathBytes
    rw [hroot, hj]
  have hdepth : (t'.node i').depth = (t.node i).depth := by rw [depth_eq_length hshape' hi', depth_eq_length hshape hi, hc]
  have hfiles : (t'.node i').direct.files = (t.node i).direct.files := hdirect .files fun _ _ => rfl
  have hdirs : (t'.node i').direct.dirs = (t.node i).direct.dirs := hdirect .dirs fun _ _ => rfl
  have hlinks : (t'.node i').direct.symlinks = (t.node i).direct.symlinks := hdirect .symlinks fun _ _ => rfl
  have hsubFiles : (t'.node i').sub.files = (t.node i).sub.files := hsub .files
  have hsubDirs : (t'.node i').sub.dirs = (t.node i).sub.dirs := hsub .dirs
  have hsubLinks : (t'.node i').sub.symlinks = (t.node i).sub.symlinks := hsub .symlinks
  have hsubBlocks : (t'.node i').sub.blocks = (t.node i).sub.blocks := hsub .blocks
  have hsubApparent : (t'.node i').sub.apparent = (t.node i).sub.apparent := hsub .apparent
  rcases Nat.eq_zero_or_pos i with rfl | hpos
  · obtain rfl : i' = 0 := by
      rw [Shape.components_zero, ← Shape.components_zero (t := t')] at hc
      exact components_inj hshape' hi' hshape'.root.1 hc
    simp only [observe, hshape.root.2, hshape'.root.2, hpath hc, hdepth, hown.ino, hown.blocks, hown.apparent, hfiles, hdirs, hlinks,
      hsubFiles, hsubDirs, hsubLinks, hsubBlocks, hsubApparent, if_true]
  · have hpos' : 0 < i' := by
      by_contra h0
      obtain rfl : i' = 0 := by omega
      rw [Shape.components_zero, ← Shape.components_zero (t := t)] at hc
      exact absurd (components_inj hshape hshape.root.1 hi hc) (by omega)
    obtain ⟨p, hp⟩ := hshape.hasParent i hpos (DirTree.lt_of_alive hi)
    obtain ⟨p', hp'⟩ := hshape'.hasParent i' hpos' (DirTree.lt_of_alive hi')
    have hsplit := hc
    rw [hshape.components_of_parent hp, hshape'.components_of_parent hp'] at hsplit
    obtain ⟨hparents, hnames⟩ := List.append_inj' hsplit rfl
    have hname : (t'.node i').name = (t.node i).name := List.singleton_inj.1 hnames
    simp only [observe, hp, hp', hpath hc, hpath hparents, hname, hdepth, hown.ino, hown.blocks, hown.apparent, hfiles, hdirs, hlinks,
      hsubFiles, hsubDirs, hsubLinks, hsubBlocks, hsubApparent, if_neg (Nat.ne_of_gt hpos), if_neg (Nat.ne_of_gt hpos')]

end Reported

section Scans

variable {host host' : Host} {fs : Frozen} {target target' : Target} {hash : Bytes → Nat} {t t' : DirTree} {log log' : List Tallied}
  {won won' : Table Inode (Nat × Link)} {result result' : ScanResult}

theorem displayRoot_of_logScan (hs : LogScan host target hash t log won) : t.displayRoot = target.displayPath := by
  obtain ⟨root, handle, n, b, data, -, hb, -⟩ := hs.started
  obtain ⟨u, hu, rfl⟩ := Option.map_eq_some_iff.1 hb.tree
  unfold buildTree at hu
  split at hu
  · cases hu
  · cases hu
    rfl

/-- No directory holds more than the root. -/
theorem LogScan.fits (hs : LogScan host target hash t log won) (hk : host.listing.Proper) {c : Component}
    (hroot : (t.node 0).sub.get c < u64Max) {i : Nat} (hi : i < t.nodes.length) :
    (t.node i).sub.get c < u64Max ∧ (t.node i).direct.get c < u64Max := by
  obtain ⟨root, handle, n, b, data, -, hb, -⟩ := hs.started
  have hfresh := hb.fresh hk
  have halive := hfresh.alive i hi
  have hrolled := fun j hj => (hfresh.rolled c hroot j (DirTree.lt_of_alive hj)).1
  have hle := sub_le_above hfresh.shape hrolled (hfresh.shape.root_above hi) halive
  have hkids := DirTree.overChildren_nonneg (t := t) (i := i) (f := fun n => (n.sub.get c : Int)) fun n => Int.natCast_nonneg _
  have hown := hrolled i halive
  unfold DirTree.surplus at hown
  omega

/-- A size saturates at the limit of a `u64`, in every node. -/
theorem LogScan.sizes_le (hs : LogScan host target hash t log won) {c : Component} (hsize : ¬CountsEntries c) {i : Nat}
    (hi : i < t.nodes.length) : (t.node i).sub.get c ≤ u64Max := by
  obtain ⟨root, handle, n, b, data, -, hb, -⟩ := hs.started
  obtain ⟨tallies, hbuilt, -⟩ := built_of_finish hb.tree
  have hadd : ∀ s u : Tally, (s.add u).get c ≤ u64Max := by
    rintro s u
    cases c with
    | files | dirs | symlinks => exact absurd (fun _ _ => rfl) hsize
    | blocks | apparent => exact Nat.min_le_right _ _
  rw [hbuilt.sub i (hb.length ▸ hi)]
  exact rollUp_induction (P := fun x : Tally × Int => x.1.get c ≤ u64Max) (fun _ _ _ _ => hadd _ _) _ _ (fun _ => hadd _ _) i

/-- What two scans of one file system observe of a directory both track. -/
theorem Twins.observe_agree (h : Twins fs host host' target target' hash) (hs : LogScan host target hash t log won)
    (hs' : LogScan host' target' hash t' log' won') (hsmall : ∀ c, CountsEntries c → (t.node 0).sub.get c < u64Max)
    (hsmall' : ∀ c, CountsEntries c → (t'.node 0).sub.get c < u64Max) {i i' : Nat} (hi : i < t.nodes.length) (hi' : i' < t'.nodes.length)
    (hc : t'.components i' = t.components i) (hown : SameOwn (t.node i) (t'.node i')) : observe t' i' = observe t i := by
  obtain ⟨root, handle, n, b, data, -, hb, -⟩ := hs.started
  obtain ⟨root', handle', n', b', data', -, hb', -⟩ := hs'.started
  have hfresh := hb.fresh h.proper
  have hfresh' := hb'.fresh h.proper'
  have hroot : t'.displayRoot = t.displayRoot := by rw [displayRoot_of_logScan hs, displayRoot_of_logScan hs', h.alike.displayPath]
  refine observe_congr hfresh.shape hfresh'.shape (hfresh.alive i hi) (hfresh'.alive i' hi') hroot hc hown (fun c => ?_) fun c hcount => ?_
  · have htotal := h.total_agree hs hs' hi hi' hc c
    by_cases hcount : CountsEntries c
    · have hfits := hs.fits h.proper (hsmall c hcount) hi
      have hfits' := hs'.fits h.proper' (hsmall' c hcount) hi'
      omega
    · have hle := hs.sizes_le hcount hi
      have hle' := hs'.sizes_le hcount hi'
      omega
  · have hdirect := h.direct_agree hs hs' hi hi' hc hcount
    have hfits := hs.fits h.proper (hsmall c hcount) hi
    have hfits' := hs'.fits h.proper' (hsmall' c hcount) hi'
    omega

theorem Twins.symm (h : Twins fs host host' target target' hash) : Twins fs host' host target' target hash where
  frozen := h.frozen'
  frozen' := h.frozen
  proper := h.proper'
  proper' := h.proper
  alike := ⟨h.alike.displayPath.symm, h.alike.scanPath.symm, h.alike.exclude.symm, h.alike.followSymlinks.symm,
    h.alike.noCrossFilesystem.symm, h.alike.maxDepth.symm⟩
  apart met hm := h.apart met (h.alike.metOn hm)

theorem reported_depth {target : Target} {depth : Nat} (h : isReported target depth = true) : depth ≤ target.reportDepth := by
  unfold isReported at h
  split at h
  · exact of_decide_eq_true h
  · rw [Bool.or_eq_true, decide_eq_true_eq, decide_eq_true_eq] at h
    omega

/-- Two scans of one file system that report the same directories report the same of them. -/
theorem Twins.reported_agree (h : Twins fs host host' target target' hash) (hmode : target'.reportMode = target.reportMode)
    (hdepth : target'.reportDepth = target.reportDepth) (hs : LogScan host target hash t log won)
    (hs' : LogScan host' target' hash t' log' won') (hsmall : ∀ c, CountsEntries c → (t.node 0).sub.get c < u64Max) :
    reported target t = reported target' t' := by
  obtain ⟨root, handle, n, b, data, -, hb, -⟩ := hs.started
  obtain ⟨root', handle', n', b', data', -, hb', -⟩ := hs'.started
  have hfresh := hb.fresh h.proper
  have hfresh' := hb'.fresh h.proper'
  have hsmall' : ∀ c, CountsEntries c → (t'.node 0).sub.get c < u64Max := by
    rintro c hcount
    have htotal := h.total_agree hs hs' hfresh.shape.pos hfresh'.shape.pos
      (by rw [Shape.components_zero, Shape.components_zero]) c
    have := hsmall c hcount
    omega
  have hreported : ∀ depth, isReported target' depth = isReported target depth := by
    rintro depth
    unfold isReported
    rw [hmode, hdepth]
  refine reported_congr hfresh.shape hfresh'.shape (fun i hi hr => ?_) fun i' hi' hr' => ?_
  · have hd := depth_eq_length hfresh.shape hi
    obtain ⟨i', hlt, hc, hown⟩ := h.tracked hs hs' (DirTree.lt_of_alive hi) (by rw [← hd, hdepth]; exact reported_depth hr)
    have hi' := hfresh'.alive i' hlt
    refine ⟨i', hi', ?_, hc, h.observe_agree hs hs' hsmall hsmall' (DirTree.lt_of_alive hi) hlt hc hown⟩
    rw [hreported, depth_eq_length hfresh'.shape hi', hc, ← hd]
    exact hr
  · have hd := depth_eq_length hfresh'.shape hi'
    obtain ⟨i, hlt, hc, hown⟩ := h.symm.tracked hs' hs (DirTree.lt_of_alive hi') (by rw [← hd, ← hdepth]; exact reported_depth hr')
    have hi := hfresh.alive i hlt
    refine ⟨i, hi, ?_, hc, h.symm.observe_agree hs' hs hsmall' hsmall (DirTree.lt_of_alive hi') hlt hc hown⟩
    rw [← hreported, depth_eq_length hfresh.shape hi, hc, ← hd]
    exact hr'

/-- A scan comes back with a tree of a directory that is not excluded. -/
theorem Scans.tree_isSome (hf : host.Frozen fs) (h : Scans host target hash (.ok result)) : result.tree.isSome = true ↔
    excludesRoot target = false ∧ ∃ root, fs.stat target.scanPath target.followSymlinks = .ok root ∧ root.kind = .directory := by
  generalize hr : Except.ok result = r at h
  cases h with
  | unstated | nul => cases hr
  | excluded hs hx =>
    cases hr
    exact iff_of_false (fun h => Bool.false_ne_true h) fun h => by rw [h.1] at hx; cases hx
  | single hs hx hk =>
    cases hr
    refine iff_of_false (fun h => Bool.false_ne_true h) fun h => ?_
    obtain ⟨-, root, hstat, hdir⟩ := h
    rw [← hf.stat _ _ _ hs] at hstat
    exact hk (Except.ok.inj hstat ▸ hdir)
  | shallow hs hx hk hh hm =>
    cases hr
    exact iff_of_true rfl ⟨hx, _, (hf.stat _ _ _ hs).symm, hk⟩
  | @walked root handle n s hs hx hk hh hm hz hn hw ho =>
    obtain ⟨hv, rfl⟩ := outcome_ok hr.symm
    have hi : WorkPool.Inv s := hw.inv
    obtain ⟨log, hd⟩ := tracing_of_reachable logger (hw.bag (hi.ok ho hv))
    obtain ⟨more, hmore, -⟩ := (Logging.nodesMet hd).root
    refine iff_of_true ?_ ⟨hx, _, (hf.stat _ _ _ hs).symm, hk⟩
    have hne : s.shared.nodes.isEmpty = false := by
      cases hnodes : s.shared.nodes with
      | nil =>
        have hmore : s.shared.nodes.map TrackedNode.fixed = (rootNode target root handle).fixed :: more := hmore
        rw [hnodes] at hmore
        cases hmore
      | cons => rfl
    unfold finish buildTree
    rw [hne]
    rfl

theorem Scans.observations (h : Scans host target hash (.ok result)) : result.observations = result.tree.elim [] (reported target) := by
  have hfinish : ∀ (w : Walk) (nodes : List TrackedNode) (workers : List Worker),
      (finish w nodes workers).observations = (finish w nodes workers).tree.elim [] (reported w.target) := by
    rintro w nodes workers
    unfold finish
    dsimp only
    split
    · rename_i hn
      rw [hn]
      rfl
    · rename_i t ht
      rw [ht]
      rfl
  generalize hr : Except.ok result = r at h
  cases h with
  | unstated | nul => cases hr
  | excluded | single | shallow =>
    cases hr
    exact hfinish _ _ _
  | walked =>
    obtain ⟨-, rfl⟩ := outcome_ok hr.symm
    exact hfinish _ _ _

/-- Scans of one file system that report down to the same depth report the same, as long as the entries can be
counted. -/
theorem Twins.observations (h : Twins fs host host' target target' hash) (hmode : target'.reportMode = target.reportMode)
    (hdepth : target'.reportDepth = target.reportDepth) (hs : Scans host target hash (.ok result))
    (hs' : Scans host' target' hash (.ok result'))
    (hsmall : ∀ t, result.tree = some t → ∀ c, CountsEntries c → (t.node 0).sub.get c < u64Max) :
    result.observations = result'.observations := by
  have hsome := Scans.tree_isSome h.frozen hs
  have hsome' := Scans.tree_isSome h.frozen' hs'
  rw [h.alike.excludesRoot, h.alike.scanPath, h.alike.followSymlinks, ← hsome] at hsome'
  rw [Scans.observations hs, Scans.observations hs']
  cases ht : result.tree with
  | none =>
    cases ht' : result'.tree with
    | none => rfl
    | some t' =>
      rw [ht, ht'] at hsome'
      exact absurd (hsome'.1 rfl) (by decide)
  | some t =>
    cases ht' : result'.tree with
    | none =>
      rw [ht, ht'] at hsome'
      exact absurd (hsome'.2 rfl) (by decide)
    | some t' =>
      obtain ⟨log, won, hlog⟩ := logScan_of_scan hs ht
      obtain ⟨log', won', hlog'⟩ := logScan_of_scan hs' ht'
      exact h.reported_agree hmode hdepth hlog hlog' (hsmall t ht)

/-- Whatever the schedule, the number of workers and the cap, scans of one file system that report down to the same
depth report the same observations. -/
theorem observations_agree (h : Twins fs host host' target target' hash) (hmode : target'.reportMode = target.reportMode)
    (hdepth : target'.reportDepth = target.reportDepth) (hs : Scans host target hash (.ok result))
    (hs' : Scans host' target' hash (.ok result')) (hsmall : ∀ t, result.tree = some t → ∀ c, (t.node 0).sub.get c < u64Max) :
    result.observations = result'.observations :=
  h.observations hmode hdepth hs hs' fun t ht c _ => hsmall t ht c

/-- What both report of the root. -/
theorem observations_agree_twice : ∃ result result', Scans twiceHost roomyTarget List.length (.ok result) ∧
    Scans twiceHost crowdedTarget List.length (.ok result') ∧ result.observations = result'.observations := by
  obtain ⟨result, hs, hr⟩ := scan_roomy
  obtain ⟨result', hs', -⟩ := scan_crowded
  refine ⟨result, result', hs, hs', observations_agree twins_twice rfl rfl hs hs' fun t ht c => ?_⟩
  rw [ht] at hr
  have hsub : (t.node 0).sub = { files := 2, dirs := 1, symlinks := 0, blocks := 512, apparent := 12 } :=
    congrArg Prod.fst (Option.some.inj hr)
  rw [hsub]
  cases c <;> decide

end Scans

end Walk

end StorageHarvester
