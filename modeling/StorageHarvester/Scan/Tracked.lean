/-
The directories a walk tracks, over every interleaving of its workers: each is registered below its
parent under a name of its own, a directory still to be read has no node below it, and what a
directory counts covers its subdirectories' own inodes.
-/
import StorageHarvester.Lib.WorkPoolBag
import StorageHarvester.Scan.Run

namespace StorageHarvester

open WorkPool (Bag BagReachable)

/-! ## What a file system promises -/

/-- A directory has no two entries of one name, and no entry whose name is no name. -/
structure Reading.Proper (r : Reading) : Prop where
  nodup : (r.entries.map Entry.name).Nodup
  names : ∀ e ∈ r.entries, Walk.isDot e.name = true ∨ ProperName e.name

def Walk.Kernel.Proper (kernel : Walk.Kernel) : Prop := ∀ path reading, kernel path (.ok reading) → reading.Proper

/-! ## Adding up to a limit -/

namespace Tally

theorem le_get_addSize_capped (t : Tally) (blocks apparent : Nat) (c : Component) :
    min (t.get c + sizeAt blocks apparent c) u64Max ≤ (t.addSize blocks apparent).get c := by
  cases c <;> simp only [get, sizeAt, addSize, saturatingAdd] <;> omega

theorem le_get_add_left (t s : Tally) (c : Component) : min (t.get c) u64Max ≤ (t.add s).get c := by
  cases c <;> simp only [get, add, addSize, saturatingAdd] <;> omega

theorem le_get_add_right (t s : Tally) (c : Component) : min (s.get c) u64Max ≤ (t.add s).get c := by
  cases c <;> simp only [get, add, addSize, saturatingAdd] <;> omega

end Tally

/-! ## The arena -/

/-- What the walk never changes of a node: all but its marks. -/
def TrackedNode.fixed (n : TrackedNode) : TrackedNode := { n with isSealed := false, pruned := false }

/-- A directory's own inode. -/
def TrackedNode.own (n : TrackedNode) (c : Component) : Nat := sizeAt n.ownBlocks n.ownApparent c

namespace Walk

def nodeIn (nodes : List TrackedNode) (i : Nat) : TrackedNode := nodes.getD i default

/-- The own inodes of the subdirectories of `i`. -/
def ownBelow (nodes : List TrackedNode) (i : Nat) (c : Component) : Nat :=
  ((nodes.filter fun n => n.parent = some i).map fun n => n.own c).sum

/-- Every tracked directory but the root is registered below another, registered before, under a
proper name that none of its siblings has. -/
structure Arena (nodes : List TrackedNode) : Prop where
  pos : 0 < nodes.length
  root : (nodeIn nodes 0).parent = none ∧ (nodeIn nodes 0).depth = 0
  below : ∀ i, 0 < i → i < nodes.length → ∃ p < i, (nodeIn nodes i).parent = some p ∧
    (nodeIn nodes i).depth = (nodeIn nodes p).depth + 1 ∧ ProperName (nodeIn nodes i).name
  siblings : nodes.Pairwise fun a b => a.parent = b.parent → a.name ≠ b.name

theorem map_modify_eq {α β : Type*} {g : α → β} {f : α → α} (hf : ∀ a, g (f a) = g a) (l : List α) (i : Nat) :
    (l.modify i f).map g = l.map g := by
  refine List.ext_getElem? fun j => ?_
  rw [List.getElem?_map, List.getElem?_map, List.getElem?_modify]
  cases l[j]? with
  | none => rfl
  | some a =>
    by_cases hij : i = j
    · simp [hij, hf]
    · simp [hij]

theorem fixed_sealNode (job : Job) (nodes : List TrackedNode) :
    (sealNode job nodes).map TrackedNode.fixed = nodes.map TrackedNode.fixed := by
  unfold sealNode
  split
  · exact map_modify_eq (g := TrackedNode.fixed) (f := fun n => { n with isSealed := true }) (fun _ => rfl) nodes job.node
  · rfl

theorem fixed_registered (p : InDir) (nodes : List TrackedNode) :
    (p.registered nodes).map TrackedNode.fixed = (nodes ++ p.pending.map (register p.job)).map TrackedNode.fixed := by
  unfold InDir.registered
  rw [List.map_append, List.map_append]
  split
  · rw [map_modify_eq (g := TrackedNode.fixed) (f := fun n => { n with pruned := true }) fun _ => rfl]
  · rfl

section Fixed

variable {nodes nodes' : List TrackedNode}

theorem length_of_fixed (h : nodes'.map TrackedNode.fixed = nodes.map TrackedNode.fixed) : nodes'.length = nodes.length := by
  simpa using congrArg List.length h

theorem fixed_nodeIn (h : nodes'.map TrackedNode.fixed = nodes.map TrackedNode.fixed) (i : Nat) :
    (nodeIn nodes' i).fixed = (nodeIn nodes i).fixed := by
  have := congrArg (fun l => l.getD i (TrackedNode.fixed default)) h
  simp only [List.getD_map] at this
  exact this

theorem ownBelow_of_fixed (h : nodes'.map TrackedNode.fixed = nodes.map TrackedNode.fixed) (i : Nat) (c : Component) :
    ownBelow nodes' i c = ownBelow nodes i c := by
  have hmap : ∀ l : List TrackedNode, ownBelow l i c =
      ((((l.map TrackedNode.fixed).filter fun n => n.parent = some i).map fun n => n.own c)).sum := by
    intro l
    unfold ownBelow
    rw [List.filter_map, List.map_map]
    rfl
  rw [hmap, hmap, h]

theorem Arena.congr (ha : Arena nodes) (h : nodes'.map TrackedNode.fixed = nodes.map TrackedNode.fixed) : Arena nodes' := by
  have hlen := length_of_fixed h
  have hname := fun i => congrArg TrackedNode.name (fixed_nodeIn h i)
  have hparent := fun i => congrArg TrackedNode.parent (fixed_nodeIn h i)
  have hdepth := fun i => congrArg TrackedNode.depth (fixed_nodeIn h i)
  simp only [TrackedNode.fixed] at hname hparent hdepth
  refine ⟨hlen ▸ ha.pos, ?_, fun i hi hl => ?_, ?_⟩
  · rw [hparent, hdepth]; exact ha.root
  · obtain ⟨p, hp, h1, h2, h3⟩ := ha.below i hi (hlen ▸ hl)
    exact ⟨p, hp, by rw [hparent, h1], by rw [hdepth, hdepth, h2], by rw [hname]; exact h3⟩
  · have hs : (nodes'.map TrackedNode.fixed).Pairwise fun a b => a.parent = b.parent → a.name ≠ b.name := by
      rw [h, List.pairwise_map]; exact ha.siblings
    rw [List.pairwise_map] at hs
    exact hs

theorem nodeIn_append_left {i : Nat} (hi : i < nodes.length) : nodeIn (nodes ++ nodes') i = nodeIn nodes i :=
  List.getD_append _ _ _ _ hi

/-- Subdirectories registered below a directory that had none. -/
theorem Arena.append (ha : Arena nodes) {job : Job} {pending : List PendingDir} (hj : job.node < nodes.length)
    (hd : pending ≠ [] → (nodeIn nodes job.node).depth = job.depth ∧ ∀ n ∈ nodes, n.parent ≠ some job.node)
    (hn : (pending.map PendingDir.name).Nodup) (hp : ∀ d ∈ pending, ProperName d.name) :
    Arena (nodes ++ pending.map (register job)) := by
  refine ⟨by rw [List.length_append]; have := ha.pos; omega, by rw [nodeIn_append_left ha.pos]; exact ha.root,
    fun i hi hl => ?_, ?_⟩
  · rcases Nat.lt_or_ge i nodes.length with h | h
    · obtain ⟨p, hpi, h1, h2, h3⟩ := ha.below i hi h
      rw [nodeIn_append_left h]
      exact ⟨p, hpi, h1, by rw [nodeIn_append_left (Nat.lt_trans hpi h)]; exact h2, h3⟩
    · obtain ⟨k, rfl⟩ := Nat.exists_eq_add_of_le h
      rw [List.length_append, List.length_map] at hl
      have hk : k < pending.length := by omega
      have hnode : nodeIn (nodes ++ pending.map (register job)) (nodes.length + k) = register job pending[k] := by
        unfold nodeIn
        rw [List.getD_append_right _ _ _ _ h, Nat.add_sub_cancel_left, List.getD_eq_getElem _ _ (by simpa using hk),
          List.getElem_map]
      have hne : pending ≠ [] := fun he => by rw [he] at hk; exact absurd hk (Nat.not_lt_zero k)
      rw [hnode]
      refine ⟨job.node, by omega, rfl, ?_, hp _ (List.getElem_mem hk)⟩
      rw [nodeIn_append_left hj]
      exact congrArg (· + 1) (hd hne).1.symm
  · refine List.pairwise_append.2 ⟨ha.siblings, ?_, fun a hma b hb => ?_⟩
    · rw [List.pairwise_map]
      rw [List.nodup_iff_pairwise_ne, List.pairwise_map] at hn
      exact hn.imp fun {a b} (hne : a.name ≠ b.name) _ => hne
    · obtain ⟨d, hd', rfl⟩ := List.mem_map.1 hb
      exact fun he => absurd he ((hd (List.ne_nil_of_mem hd')).2 a hma)

theorem ownBelow_append (nodes : List TrackedNode) (job : Job) (pending : List PendingDir) (i : Nat) (c : Component) :
    ownBelow (nodes ++ pending.map (register job)) i c = ownBelow nodes i c +
      if i = job.node then (pending.map fun d => sizeAt d.stat.blocks d.stat.size c).sum else 0 := by
  unfold ownBelow
  rw [List.filter_append, List.map_append, List.sum_append]
  congr 1
  split
  · rename_i hi
    rw [List.filter_eq_self.2, List.map_map]
    · rfl
    · intro n hn
      obtain ⟨d, -, rfl⟩ := List.mem_map.1 hn
      simp [register, hi]
  · rename_i hi
    rw [List.filter_eq_nil_iff.2]
    · rfl
    · intro n hn
      obtain ⟨d, -, rfl⟩ := List.mem_map.1 hn
      simp [register, Ne.symm hi]

theorem ownBelow_eq_zero {i : Nat} (h : ∀ n ∈ nodes, n.parent ≠ some i) (c : Component) : ownBelow nodes i c = 0 := by
  unfold ownBelow
  rw [List.filter_eq_nil_iff.2 fun n hn => by simpa using h n hn]
  rfl

end Fixed

/-! ## Reading a directory -/

/-- What holds while a directory is read. -/
structure InDir.Sound (p : InDir) : Prop where
  names : ((p.pending.map PendingDir.name) ++ p.left.map Entry.name).Nodup
  left : ∀ e ∈ p.left, isDot e.name = true ∨ ProperName e.name
  pending : ∀ d ∈ p.pending, ProperName d.name
  /-- Only a tracked directory's subdirectories are tracked. -/
  tracked : p.job.tracked = false → p.pending = []
  children : ∀ job ∈ p.children, job.tracked = false ∧ job.node = p.job.node
  covered : ∀ c, min (p.pending.map fun d => sizeAt d.stat.blocks d.stat.size c).sum u64Max ≤ p.sums.get c

def Progress.job : Progress → Job
  | .opening job => job
  | .reading p => p.job

def Progress.Sound : Progress → Prop
  | .opening _ => True
  | .reading p => p.Sound

/-- A worker's links are in nodes that exist. -/
def LinksIn (d : Worker) (bound : Nat) : Prop := ∀ inode link, d.links.get inode = some link → link.node < bound

theorem get_keepLowest {V : Type} {links : Table Inode V} {inode inode' : Inode} {candidate link : V} {key : V → Nat}
    (h : (keepLowest links inode candidate key).get inode' = some link) :
    links.get inode' = some link ∨ inode' = inode ∧ link = candidate := by
  have hput : (links.put inode candidate).get inode' = some link → links.get inode' = some link ∨ inode' = inode ∧ link = candidate := by
    rw [Table.get_put]
    split
    · rename_i he
      intro h; cases h; exact .inr ⟨he, rfl⟩
    · exact .inl
  unfold keepLowest at h
  split at h
  · split at h
    · exact hput h
    · exact .inl h
  · exact hput h

/-- What one entry does to a directory being read and to the worker's data. -/
structure EntryRead (p p' : InDir) (rest : List Entry) (d d' : Worker) : Prop where
  sound : p'.Sound
  left : p'.left = rest
  job : p'.job = p.job
  fail : p'.fail = p.fail
  tallies : d'.tallies = d.tallies
  links : ∀ inode link, d'.links.get inode = some link → d.links.get inode = some link ∨ link.node = p.job.node

/-- Only the tallies and links of a worker matter. -/
theorem EntryRead.of_worker {p p' : InDir} {rest : List Entry} {d d₁ d' : Worker} (h : EntryRead p p' rest d₁ d')
    (ht : d₁.tallies = d.tallies) (hl : d₁.links = d.links) : EntryRead p p' rest d d' :=
  ⟨h.sound, h.left, h.job, h.fail, h.tallies.trans ht, fun inode link hg => (h.links inode link hg).imp (hl ▸ ·) id⟩

section Entries

variable {w : Walk} {p : InDir} {e : Entry} {rest : List Entry} {d : Worker} {k : Nat}

theorem InDir.Sound.skip (h : p.Sound) (hl : p.left = e :: rest) : ({ p with left := rest } : InDir).Sound := by
  refine ⟨h.names.sublist ?_, fun x hx => h.left x (by rw [hl]; exact List.mem_cons_of_mem _ hx), h.pending, h.tracked, h.children,
    h.covered⟩
  rw [hl]
  exact List.Sublist.append_left (List.sublist_cons_self ..) _

theorem readSubdir_spec (h : p.Sound) (hl : p.left = e :: rest) (hdot : isDot e.name = false) (stat : Stat) (newest : Int) :
    EntryRead p (w.readSubdir e stat { { p with left := rest } with newest := newest } d k).1 rest d
      (w.readSubdir e stat { { p with left := rest } with newest := newest } d k).2.1 := by
  have hs := h.skip hl
  have hcov : ∀ c, min ((p.pending.map fun d => sizeAt d.stat.blocks d.stat.size c).sum + sizeAt stat.blocks stat.size c) u64Max ≤
      ({ p.sums with dirs := p.sums.dirs + 1 }.addSize stat.blocks stat.size).get c := by
    intro c
    have h1 := h.covered c
    have h2 := Tally.le_get_addSize_capped { p.sums with dirs := p.sums.dirs + 1 } stat.blocks stat.size c
    have h3 : p.sums.get c ≤ ({ p.sums with dirs := p.sums.dirs + 1 } : Tally).get c := by
      cases c <;> simp [Tally.get]
    omega
  have hskip : ∀ c, min (p.pending.map fun d => sizeAt d.stat.blocks d.stat.size c).sum u64Max ≤
      ({ p.sums with dirs := p.sums.dirs + 1 }.addSize stat.blocks stat.size).get c := fun c => by
    have := hcov c; omega
  have hchild : ∀ job ∈ p.children ++ [Job.mk (childPath p.job.path e.name) (p.job.depth + 1) p.job.node false],
      job.tracked = false ∧ job.node = p.job.node := by
    intro job hj
    rcases List.mem_append.1 hj with hj | hj
    · exact h.children job hj
    · rw [List.mem_singleton.1 hj]; exact ⟨rfl, rfl⟩
  unfold readSubdir
  simp only
  by_cases ht : p.job.tracked = true
  · rw [if_pos ht]
    split
    · -- the subdirectory gets a node
      refine ⟨⟨?_, hs.left, ?_, fun hf => ?_, h.children, ?_⟩, rfl, rfl, rfl, rfl, fun _ _ h => .inl h⟩
      · have hn := h.names
        rw [hl] at hn
        simpa using hn
      · intro x hx
        rcases List.mem_append.1 hx with hx | hx
        · exact h.pending x hx
        · rw [List.mem_singleton.1 hx]
          exact (h.left e (by rw [hl]; exact List.mem_cons_self ..)).resolve_left (by rw [hdot]; exact Bool.false_ne_true)
      · rw [show p.job.tracked = false from hf] at ht; cases ht
      · intro c
        simp only [List.map_append, List.map_cons, List.map_nil, List.sum_append, List.sum_cons, List.sum_nil, Nat.add_zero]
        exact hcov c
    · split
      · exact ⟨⟨hs.names, hs.left, h.pending, h.tracked, hchild, hskip⟩, rfl, rfl, rfl, rfl, fun _ _ h => .inl h⟩
      · exact ⟨⟨hs.names, hs.left, h.pending, h.tracked, h.children, hskip⟩, rfl, rfl, rfl, rfl, fun _ _ h => .inl h⟩
  · rw [if_neg ht]
    split
    · exact ⟨⟨hs.names, hs.left, h.pending, h.tracked, hchild, hskip⟩, rfl, rfl, rfl, rfl, fun _ _ h => .inl h⟩
    · exact ⟨⟨hs.names, hs.left, h.pending, h.tracked, h.children, hskip⟩, rfl, rfl, rfl, rfl, fun _ _ h => .inl h⟩

theorem readFile_spec (h : p.Sound) (hl : p.left = e :: rest) (stat : Stat) (newest : Int) :
    EntryRead p (w.readFile e stat { { p with left := rest } with newest := newest } d).1 rest d
      (w.readFile e stat { { p with left := rest } with newest := newest } d).2 := by
  have hs := h.skip hl
  refine ⟨⟨hs.names, hs.left, h.pending, h.tracked, h.children, fun c => ?_⟩, rfl, rfl, rfl, rfl, fun inode link hg => ?_⟩
  · have h1 := h.covered c
    refine Nat.le_trans ?_ (Tally.le_get_addSize_capped _ _ _ c)
    refine le_min (Nat.le_trans h1 (Nat.le_trans ?_ (Nat.le_add_right _ _))) (Nat.min_le_right _ _)
    cases stat.kind <;> cases c <;> simp [Tally.get]
  · unfold readFile at hg
    simp only at hg
    split at hg
    · exact (get_keepLowest hg).imp id fun he => by rw [he.2]
    · exact .inl hg

theorem readEntry_spec (h : p.Sound) (hl : p.left = e :: rest) :
    EntryRead p (w.readEntry e { p with left := rest } d k).1 rest d (w.readEntry e { p with left := rest } d k).2.1 := by
  have hs := h.skip hl
  have hsame : ∀ d' : Worker, d'.tallies = d.tallies → d'.links = d.links → EntryRead p { p with left := rest } rest d d' :=
    fun d' ht hlk => ⟨hs, rfl, rfl, rfl, ht, fun _ _ h => .inl (hlk ▸ h)⟩
  unfold readEntry
  split
  · exact hsame d rfl rfl
  · rename_i hdot
    rw [Bool.not_eq_true] at hdot
    split
    · exact ⟨⟨hs.names, hs.left, hs.pending, hs.tracked, hs.children, hs.covered⟩, rfl, rfl, rfl, rfl, fun _ _ h => .inl h⟩
    · split
      · split
        · exact hsame _ rfl rfl
        · exact hsame _ rfl rfl
      · rename_i stat _
        split
        · exact hsame _ rfl rfl
        · simp only
          split
          · exact (readSubdir_spec h hl hdot stat _).of_worker rfl rfl
          · exact (readFile_spec h hl stat _).of_worker rfl rfl

end Entries

/-! ## Finishing a directory -/

theorem mem_trackedJobs {job child : Job} : ∀ {first : Nat} {pending : List PendingDir}, child ∈ trackedJobs job first pending →
    child.tracked = true ∧ child.depth = job.depth + 1 ∧ first ≤ child.node ∧ child.node < first + pending.length
  | _, [], h => absurd h (List.not_mem_nil)
  | first, dir :: rest, h => by
    have hrest : child ∈ trackedJobs job (first + 1) rest →
        child.tracked = true ∧ child.depth = job.depth + 1 ∧ first ≤ child.node ∧ child.node < first + (dir :: rest).length := by
      intro h
      obtain ⟨h1, h2, h3, h4⟩ := mem_trackedJobs h
      exact ⟨h1, h2, by omega, by simp only [List.length_cons]; omega⟩
    rw [trackedJobs] at h
    split at h
    · rcases List.mem_cons.1 h with rfl | h
      · exact ⟨rfl, rfl, Nat.le_refl _, by simp⟩
      · exact hrest h
    · exact hrest h

theorem trackedJobs_nodup (job : Job) : ∀ (first : Nat) (pending : List PendingDir),
    ((trackedJobs job first pending).map Job.node).Nodup
  | _, [] => List.nodup_nil
  | first, dir :: rest => by
    have ih := trackedJobs_nodup job (first + 1) rest
    rw [trackedJobs]
    split
    · rw [List.map_cons, List.nodup_cons]
      refine ⟨fun hm => ?_, ih⟩
      obtain ⟨child, hc, he⟩ := List.mem_map.1 hm
      have := (mem_trackedJobs hc).2.2.1
      simp only at he
      omega
    · exact ih

/-- What finishing a directory does to the nodes and the worker's data: its `pending` subdirectories
are registered, and counted. -/
structure Finished (job : Job) (pending : List PendingDir) (untracked : List Job) (nodes nodes' : List TrackedNode)
    (d d' : Worker) (children : List Job) : Prop where
  children : children = untracked ++ trackedJobs job nodes.length pending
  untracked : ∀ child ∈ untracked, child.tracked = false ∧ child.node = job.node
  nodes : nodes'.map TrackedNode.fixed = (nodes ++ pending.map (register job)).map TrackedNode.fixed
  names : (pending.map PendingDir.name).Nodup
  proper : ∀ dir ∈ pending, ProperName dir.name
  tracked : job.tracked = false → pending = []
  links : d'.links = d.links
  kept : ∀ j c, min ((d.tallies j).direct.get c) u64Max ≤ (d'.tallies j).direct.get c
  covered : ∀ c, min (pending.map fun dir => sizeAt dir.stat.blocks dir.stat.size c).sum u64Max ≤
    (d'.tallies job.node).direct.get c

theorem InDir.Sound.finished {p : InDir} (h : p.Sound) {nodes nodes₁ : List TrackedNode} {d d₁ : Worker}
    (hn : nodes₁.map TrackedNode.fixed = nodes.map TrackedNode.fixed) (ht : d₁.tallies = d.tallies) (hl : d₁.links = d.links) :
    Finished p.job p.pending p.children nodes (p.registered nodes₁) d (p.tallied d₁) (p.jobs nodes) := by
  have hdirect : ∀ j c, min ((d.tallies j).direct.get c) u64Max ≤ ((p.tallied d₁).tallies j).direct.get c := by
    intro j c
    unfold InDir.tallied
    simp only
    rw [Function.update_apply]
    split
    · rename_i hj
      subst hj
      rw [ht]
      unfold NodeTally.modifyPart
      split
      · exact Tally.le_get_add_left _ _ c
      · exact Nat.min_le_left _ _
    · rw [ht]; exact Nat.min_le_left _ _
  refine ⟨rfl, h.children, ?_, h.names.sublist (List.sublist_append_left _ _), h.pending, h.tracked, hl, hdirect, fun c => ?_⟩
  · rw [fixed_registered, List.map_append, List.map_append, hn]
  · cases htr : p.job.tracked with
    | false => rw [h.tracked htr]; simp
    | true =>
      unfold InDir.tallied NodeTally.modifyPart
      simp only [htr, if_true, Function.update_self]
      have h1 := h.covered c
      have h2 := Tally.le_get_add_right (d₁.tallies p.job.node).direct p.sums c
      omega

theorem finished_of_done {w : Walk} {kernel : Kernel} {interrupted : Bool} {p : Progress} {d d' : Worker} {s s' : Shared}
    {children : List Job} (hp : p.Sound) (h : ReadStep w kernel interrupted p d s (.done children d' s')) :
    ∃ pending untracked, Finished p.job pending untracked s.nodes s'.nodes d d' children := by
  cases h with
  | @unopened job error _ _ counts _ _ =>
    refine ⟨[], [], rfl, by simp, ?_, by simp, by simp, fun _ => rfl, rfl, fun j c => Nat.min_le_left _ _, by simp⟩
    rw [List.map_nil, List.append_nil]
    exact fixed_sealNode job s.nodes
  | closed hl hf => exact ⟨_, _, InDir.Sound.finished hp rfl rfl rfl⟩
  | closedEarly hl hf ht => exact ⟨_, _, InDir.Sound.finished hp (fixed_sealNode _ _) rfl rfl⟩

/-! ## The invariant -/

/-- What holds of the tracked directories at any moment of a walk. -/
structure Tracked {n : Nat} (b : Bag n Job Progress Worker Shared) : Prop where
  arena : Arena b.shared.nodes
  /-- No tracked directory is to be read twice. -/
  distinct : ((b.jobs.filter fun job => job.tracked = true).map Job.node).Nodup
  placed : ∀ job ∈ b.jobs, job.node < b.shared.nodes.length
  unread : ∀ job ∈ b.jobs, job.tracked = true → (nodeIn b.shared.nodes job.node).depth = job.depth ∧
    ∀ n ∈ b.shared.nodes, n.parent ≠ some job.node
  sound : ∀ i job p, b.active i = some (job, p) → p.job = job ∧ p.Sound
  links : ∀ i, LinksIn (b.data i) b.shared.nodes.length
  covered : ∀ j c, min (ownBelow b.shared.nodes j c) u64Max ≤ ∑ i, min (((b.data i).tallies j).direct.get c) u64Max

section Steps

variable {n : Nat} {w : Walk} {kernel : Kernel} {b : Bag n Job Progress Worker Shared} {i : Fin (n + 1)}

theorem Tracked.start (h : Tracked b) {job : Job} {rest : Multiset Job} (hi : b.active i = none) (hj : b.pending = {job} + rest) :
    Tracked { b with pending := rest, active := Function.update b.active i (some (job, .opening job)) } := by
  have hjobs := Bag.jobs_start hi hj (Progress.opening job)
  refine ⟨h.arena, by rw [hjobs]; exact h.distinct, by rw [hjobs]; exact h.placed, by rw [hjobs]; exact h.unread,
    fun i' job' p' hp => ?_, h.links, h.covered⟩
  change Function.update b.active i _ i' = _ at hp
  rw [Function.update_apply] at hp
  split at hp
  · cases hp; exact ⟨rfl, trivial⟩
  · exact h.sound i' job' p' hp

/-- A worker's data changed where its directory is. -/
theorem links_update (h : ∀ i, LinksIn (b.data i) b.shared.nodes.length) {d' : Worker} {bound : Nat}
    (hb : b.shared.nodes.length ≤ bound) (hd : LinksIn d' bound) (i' : Fin (n + 1)) :
    LinksIn (Function.update b.data i d' i') bound := by
  rw [Function.update_apply]
  split
  · exact hd
  · exact fun inode link hl => Nat.lt_of_lt_of_le (h i' inode link hl) hb

theorem Tracked.more (h : Tracked b) {job : Job} {p p' : Progress} {d' : Worker} {s' : Shared} {interrupted : Bool}
    (hk : kernel.Proper) (hi : b.active i = some (job, p))
    (ht : ReadStep w kernel interrupted p (b.data i) b.shared (.more p' d' s')) :
    Tracked { b with active := Function.update b.active i (some (job, p')), data := Function.update b.data i d', shared := s' } := by
  obtain ⟨hjob, hsound⟩ := h.sound i job p hi
  have hplace := h.placed job (Bag.mem_jobs hi)
  have hstep : s'.nodes = b.shared.nodes ∧ p'.job = job ∧ p'.Sound ∧ d'.tallies = (b.data i).tallies ∧
      LinksIn d' b.shared.nodes.length := by
    cases ht with
    | @opened job' reading _ _ hr =>
      have hproper := hk _ _ hr
      exact ⟨rfl, hjob, ⟨by simpa using hproper.nodup, hproper.names, by simp, fun _ => rfl, by simp, by simp⟩, rfl, h.links i⟩
    | @entry p₀ e rest _ _ hl hi' =>
      have hr : EntryRead p₀ _ rest (b.data i) _ := readEntry_spec (w := w) (k := b.shared.tracked) hsound hl
      refine ⟨rfl, hr.job.trans hjob, hr.sound, hr.tallies, fun inode link hg => ?_⟩
      rcases hr.links inode link hg with hg | hg
      · exact h.links i inode link hg
      · rw [hg]
        rw [← hjob] at hplace
        exact hplace
  obtain ⟨hnodes, hjob', hsound', htal, hlinks⟩ := hstep
  have hjobs := Bag.jobs_more hi p' (Function.update b.data i d') s'
  refine ⟨by rw [hnodes]; exact h.arena, by rw [hjobs]; exact h.distinct, by rw [hjobs, hnodes]; exact h.placed,
    by rw [hjobs, hnodes]; exact h.unread, fun i' job'' p'' hp => ?_, fun i' => ?_, fun j c => ?_⟩
  · change Function.update b.active i _ i' = _ at hp
    rw [Function.update_apply] at hp
    split at hp
    · cases hp; exact ⟨hjob', hsound'⟩
    · exact h.sound i' job'' p'' hp
  · rw [hnodes]
    exact links_update h.links (Nat.le_refl _) hlinks i'
  · rw [hnodes]
    refine Nat.le_trans (h.covered j c) (Finset.sum_le_sum fun i' _ => ?_)
    show _ ≤ min (((Function.update b.data i d' i').tallies j).direct.get c) u64Max
    rw [Function.update_apply]
    split
    · rename_i he
      rw [he, htal]
    · exact Nat.le_refl _

theorem Tracked.done (h : Tracked b) {job : Job} {p : Progress} {children : List Job} {d' : Worker} {s' : Shared}
    {interrupted : Bool} (hi : b.active i = some (job, p))
    (ht : ReadStep w kernel interrupted p (b.data i) b.shared (.done children d' s')) :
    Tracked ⟨b.pending + children, Function.update b.active i none, Function.update b.data i d', s'⟩ := by
  obtain ⟨hjob, hsound⟩ := h.sound i job p hi
  obtain ⟨pending, untracked, hf⟩ := finished_of_done hsound ht
  rw [hjob] at hf
  obtain ⟨rest, hrest, hjobs⟩ := Bag.jobs_done hi (children : Multiset Job) (Function.update b.data i d') s'
  have hmem := Bag.mem_jobs hi
  have hplace := h.placed job hmem
  have hlen : s'.nodes.length = b.shared.nodes.length + pending.length := by
    rw [length_of_fixed hf.nodes, List.length_append, List.length_map]
  have hnew : pending ≠ [] → job.tracked = true := fun hne => by
    by_contra hu
    exact hne (hf.tracked (by simpa using hu))
  have hparents : ∀ k, (∃ n ∈ s'.nodes, n.parent = some k) → (∃ n ∈ b.shared.nodes, n.parent = some k) ∨ k = job.node ∧ job.tracked = true := by
    rintro k ⟨n, hn, hp⟩
    have hm : n.fixed ∈ (b.shared.nodes ++ pending.map (register job)).map TrackedNode.fixed := by
      rw [← hf.nodes]; exact List.mem_map_of_mem hn
    obtain ⟨n', hn', he⟩ := List.mem_map.1 hm
    have hp' : n'.parent = some k := (congrArg TrackedNode.parent he).trans hp
    rcases List.mem_append.1 hn' with hn' | hn'
    · exact .inl ⟨n', hn', hp'⟩
    · obtain ⟨dir, hdir, rfl⟩ := List.mem_map.1 hn'
      exact .inr ⟨(Option.some.inj hp').symm, hnew (List.ne_nil_of_mem hdir)⟩
  have hold : ∀ k, k < b.shared.nodes.length → (nodeIn s'.nodes k).depth = (nodeIn b.shared.nodes k).depth := fun k hk => by
    have := congrArg TrackedNode.depth (fixed_nodeIn hf.nodes k)
    rw [nodeIn_append_left hk] at this
    exact this
  have hchild : ∀ child ∈ children, child ∈ untracked ∨ child ∈ trackedJobs job b.shared.nodes.length pending := fun child hc => by
    rw [hf.children] at hc
    exact List.mem_append.1 hc
  have hunread : pending ≠ [] → (nodeIn b.shared.nodes job.node).depth = job.depth ∧ ∀ n ∈ b.shared.nodes, n.parent ≠ some job.node :=
    fun hne => h.unread job hmem (hnew hne)
  have hdistinct := h.distinct
  rw [hrest, Multiset.filter_add, Multiset.map_add] at hdistinct
  have hother : ∀ job' ∈ rest, job'.tracked = true → job.tracked = true → job'.node ≠ job.node := by
    intro job' hj' htr' htr he
    rw [Multiset.filter_singleton, if_pos htr, Multiset.map_singleton, Multiset.singleton_add, Multiset.nodup_cons] at hdistinct
    exact hdistinct.1 (he ▸ Multiset.mem_map_of_mem Job.node (Multiset.mem_filter.2 ⟨hj', htr'⟩))
  have hrestm : ∀ job' ∈ rest, job' ∈ b.jobs := fun job' hj' => by
    rw [hrest]; exact Multiset.mem_add.2 (.inr hj')
  refine ⟨?arena, ?distinct, ?placed, ?unread, ?sound, ?links, ?covered⟩
  case arena => exact (h.arena.append hplace hunread hf.names hf.proper).congr hf.nodes
  case distinct =>
    rw [hjobs, Multiset.filter_add, Multiset.map_add]
    have hnewJobs : ((children : Multiset Job).filter fun job => job.tracked = true) =
        (trackedJobs job b.shared.nodes.length pending : Multiset Job) := by
      rw [hf.children, Multiset.filter_coe, List.filter_append, List.filter_eq_nil_iff.2, List.nil_append, List.filter_eq_self.2]
      · intro child hc
        simpa using (mem_trackedJobs hc).1
      · intro child hc
        simpa using (hf.untracked child hc).1
    rw [hnewJobs, Multiset.nodup_add]
    refine ⟨(Multiset.nodup_add.1 hdistinct).2.1, ?_, ?_⟩
    · exact trackedJobs_nodup job _ pending
    · rw [Multiset.disjoint_left]
      intro k hk hk'
      obtain ⟨job', hj', rfl⟩ := Multiset.mem_map.1 hk
      obtain ⟨child, hc, he⟩ := Multiset.mem_map.1 hk'
      have h1 := h.placed job' (hrestm job' (Multiset.mem_filter.1 hj').1)
      have h2 := (mem_trackedJobs (Multiset.mem_coe.1 hc)).2.2.1
      omega
  case placed =>
    rw [hjobs]
    intro job' hj'
    show _ < s'.nodes.length
    rw [hlen]
    rcases Multiset.mem_add.1 hj' with hj' | hj'
    · exact Nat.lt_of_lt_of_le (h.placed job' (hrestm job' hj')) (Nat.le_add_right _ _)
    · rcases hchild job' (Multiset.mem_coe.1 hj') with hc | hc
      · rw [(hf.untracked job' hc).2]; omega
      · exact (mem_trackedJobs hc).2.2.2
  case unread =>
    rw [hjobs]
    intro job' hj' htr
    show (nodeIn s'.nodes _).depth = _ ∧ ∀ n ∈ s'.nodes, _
    rcases Multiset.mem_add.1 hj' with hj' | hj'
    · obtain ⟨h1, h2⟩ := h.unread job' (hrestm job' hj') htr
      refine ⟨(hold _ (h.placed job' (hrestm job' hj'))).trans h1, fun n hn hp => ?_⟩
      rcases hparents _ ⟨n, hn, hp⟩ with ⟨n', hn', hp'⟩ | ⟨he, htr'⟩
      · exact h2 n' hn' hp'
      · exact hother job' hj' htr htr' he
    · rcases hchild job' (Multiset.mem_coe.1 hj') with hc | hc
      · rw [(hf.untracked job' hc).1] at htr; cases htr
      · obtain ⟨-, hdepth, hge, hlt⟩ := mem_trackedJobs hc
        refine ⟨?_, fun n hn hp => ?_⟩
        · obtain ⟨k, hk⟩ := Nat.exists_eq_add_of_le hge
          have hkp : k < pending.length := by omega
          have hd := congrArg TrackedNode.depth (fixed_nodeIn hf.nodes job'.node)
          have hnode : nodeIn (b.shared.nodes ++ pending.map (register job)) job'.node = register job pending[k] := by
            unfold nodeIn
            rw [hk, List.getD_append_right _ _ _ _ (Nat.le_add_right _ _), Nat.add_sub_cancel_left,
              List.getD_eq_getElem _ _ (by simpa using hkp), List.getElem_map]
          rw [hnode] at hd
          exact hd.trans hdepth.symm
        · rcases hparents _ ⟨n, hn, hp⟩ with ⟨n', hn', hp'⟩ | ⟨he, -⟩
          · obtain ⟨j, hj, rfl⟩ := List.getElem_of_mem hn'
            have hnode : nodeIn b.shared.nodes j = b.shared.nodes[j] := List.getD_eq_getElem _ _ hj
            rcases Nat.eq_zero_or_pos j with rfl | hpos
            · rw [← hnode, h.arena.root.1] at hp'; cases hp'
            · obtain ⟨q, hq, h1, -⟩ := h.arena.below j hpos hj
              rw [hnode, hp'] at h1
              cases h1
              omega
          · omega
  case sound =>
    intro i' job' p' hp
    change Function.update b.active i _ i' = _ at hp
    rw [Function.update_apply] at hp
    split at hp
    · cases hp
    · exact h.sound i' job' p' hp
  case links =>
    intro i'
    show LinksIn (Function.update b.data i d' i') s'.nodes.length
    refine links_update h.links (by omega) (fun inode link hl => ?_) i'
    rw [hf.links] at hl
    have := h.links i inode link hl
    omega
  case covered =>
    intro j c
    show min (ownBelow s'.nodes j c) u64Max ≤ ∑ i', min (((Function.update b.data i d' i').tallies j).direct.get c) u64Max
    have hmono : ∑ i', min (((b.data i').tallies j).direct.get c) u64Max ≤
        ∑ i', min (((Function.update b.data i d' i').tallies j).direct.get c) u64Max := by
      refine Finset.sum_le_sum fun i' _ => ?_
      rw [Function.update_apply]
      split
      · rename_i he
        have := hf.kept j c
        rw [he]
        omega
      · exact Nat.le_refl _
    rw [ownBelow_of_fixed hf.nodes, ownBelow_append]
    by_cases hj : j = job.node ∧ pending ≠ []
    · -- the directory had none before
      obtain ⟨rfl, hne⟩ := hj
      rw [ownBelow_eq_zero (hunread hne).2, if_pos rfl, Nat.zero_add]
      have h1 := hf.covered c
      have h2 : min ((d'.tallies job.node).direct.get c) u64Max ≤
          ∑ i', min (((Function.update b.data i d' i').tallies job.node).direct.get c) u64Max := by
        have := Finset.single_le_sum (f := fun i' => min (((Function.update b.data i d' i').tallies job.node).direct.get c) u64Max)
          (fun _ _ => Nat.zero_le _) (Finset.mem_univ i)
        simpa using this
      omega
    · refine Nat.le_trans ?_ (Nat.le_trans (h.covered j c) hmono)
      split
      · rename_i hjn
        have hp0 : pending = [] := by
          by_contra hne
          exact hj ⟨hjn, hne⟩
        rw [hp0]
        simp
      · exact Nat.le_refl _

/-- The invariant holds in every state of a walk. -/
theorem tracked_of_reachable {host : Host} (hk : host.listing.Proper) {data : Fin (n + 1) → Worker} {root : TrackedNode}
    (hd : ∀ i, (data i).links = .empty) (hp : root.parent = none) (hdepth : root.depth = 0)
    (h : BagReachable (w.readDir host.listing host.answers) (rootJob w.target) data { nodes := [root], tracked := 1 } b) :
    Tracked b := by
  induction h with
  | initial =>
    have hjobs : (⟨{rootJob w.target}, fun _ => none, data, { nodes := [root], tracked := 1 }⟩ :
        Bag n Job Progress Worker Shared).jobs = {rootJob w.target} := by
      unfold Bag.jobs
      simp [Bag.atWork_none]
    refine ⟨⟨Nat.one_pos, ⟨hp, hdepth⟩, fun i hi hl => absurd hl (by simp; omega), List.pairwise_singleton _ _⟩, ?_, ?_, ?_, ?_, ?_, ?_⟩
    · rw [hjobs, Multiset.filter_singleton, if_pos (show (rootJob w.target).tracked = true from rfl), Multiset.map_singleton]
      exact Multiset.nodup_singleton _
    · rw [hjobs]
      intro job hj
      rw [Multiset.mem_singleton.1 hj]
      exact Nat.one_pos
    · rw [hjobs]
      intro job hj _
      rw [Multiset.mem_singleton.1 hj]
      refine ⟨hdepth, fun n hn => ?_⟩
      rw [List.mem_singleton.1 hn, hp]
      exact nofun
    · intro i job p h; cases h
    · intro i inode link hl
      rw [hd i] at hl; cases hl
    · intro j c
      rw [ownBelow_eq_zero fun n hn => by rw [List.mem_singleton.1 hn, hp]; exact nofun]
      simp
  | start h hi hj ih => exact ih.start hi hj
  | more h hi ht ih => exact ih.more hk hi ht
  | done h hi ht ih => exact ih.done hi ht

end Steps

end Walk

end StorageHarvester
