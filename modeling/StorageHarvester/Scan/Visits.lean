/-
The visits of a walk: what a worker does with one directory from opening it to its end, whatever the
other workers do between its steps. In every state of a walk each worker at work is on a visit, and a
tracked directory is visited under the path its node spells, with nothing counted for it before.
-/
import StorageHarvester.Scan.Counted
import StorageHarvester.Scan.Times

namespace StorageHarvester

open Forest
open WorkPool (Bag BagReachable)

/-! ## Paths -/

/-- A path joined below a directory is the directory's, ended by a slash, and the rest. -/
theorem join_split (names : List Bytes) (hn : names ≠ []) : ∃ rest : Bytes, ∀ base,
    DirTree.join base names = (if base.getLast? = some slash then base else base ++ [slash]) ++ rest := by
  induction names using List.reverseRecOn with
  | nil => exact absurd rfl hn
  | append_singleton names name ih =>
    rcases List.eq_nil_or_concat names with rfl | ⟨init, last, rfl⟩
    · exact ⟨name, fun _ => rfl⟩
    · rw [List.concat_eq_append] at ih ⊢
      obtain ⟨rest, hrest⟩ := ih (by simp)
      rcases List.eq_nil_or_concat rest with rfl | ⟨front, b, rfl⟩
      · refine ⟨name, fun base => ?_⟩
        have hlast : ((if base.getLast? = some slash then base else base ++ [slash]) ++ []).getLast? = some slash := by
          rw [List.append_nil]
          split
          · assumption
          · exact List.getLast?_concat ..
        unfold DirTree.join at hrest ⊢
        rw [List.foldl_append, hrest base, List.foldl_cons, List.foldl_nil, pushComponent, if_pos hlast, List.append_nil]
      · rw [List.concat_eq_append] at hrest
        refine ⟨(if b = slash then front ++ [b] else front ++ [b] ++ [slash]) ++ name, fun base => ?_⟩
        have hlast : ((if base.getLast? = some slash then base else base ++ [slash]) ++ (front ++ [b])).getLast? = some b := by
          rw [← List.append_assoc, List.getLast?_concat]
        unfold DirTree.join at hrest ⊢
        rw [List.foldl_append, hrest base, List.foldl_cons, List.foldl_nil, pushComponent, hlast]
        by_cases hb : b = slash
        · simp [hb]
        · simp [hb]

/-- A node's name and parent are all a path goes by. -/
theorem componentsUp_congr {t u : DirTree} (hd : Down t.parentOf) : ∀ {fuel fuel' i : Nat},
    (∀ j ≤ i, (u.node j).parent = (t.node j).parent ∧ (u.node j).name = (t.node j).name) → i < fuel → i < fuel' →
    u.componentsUp fuel i = t.componentsUp fuel' i
  | 0, _, _, _, hf, _ => absurd hf (Nat.not_lt_zero _)
  | _, 0, _, _, _, hf => absurd hf (Nat.not_lt_zero _)
  | fuel + 1, fuel' + 1, i, hs, hf, hf' => by
    obtain ⟨hparent, hname⟩ := hs i le_rfl
    rw [DirTree.componentsUp, DirTree.componentsUp, hparent, hname]
    cases hp : (t.node i).parent with
    | none => rfl
    | some p =>
      have hlt := hd i p hp
      simp only
      rw [componentsUp_congr hd (fun j hj => hs j (by omega)) (show p < fuel by omega) (show p < fuel' by omega)]

theorem components_congr {t u : DirTree} (hd : Down t.parentOf) {i : Nat}
    (hs : ∀ j ≤ i, (u.node j).parent = (t.node j).parent ∧ (u.node j).name = (t.node j).name) :
    u.components i = t.components i := by
  unfold DirTree.components
  rw [componentsUp_congr hd hs (Nat.lt_succ_self i) (Nat.lt_succ_self i)]

/-- Only a tree's nodes have a say in its paths. -/
theorem components_of_nodes {t u : DirTree} (h : u.nodes = t.nodes) (i : Nat) : u.components i = t.components i := by
  have hnode : ∀ j, u.node j = t.node j := fun j => congrArg (fun nodes : List DirNode => nodes.getD j default) h
  have hup : ∀ fuel j, u.componentsUp fuel j = t.componentsUp fuel j := by
    intro fuel
    induction fuel with
    | zero => exact fun _ => rfl
    | succ fuel ih =>
      intro j
      rw [DirTree.componentsUp, DirTree.componentsUp, hnode]
      simp only [ih]
  unfold DirTree.components
  rw [hup]

theorem components_of_down {t : DirTree} (hd : Down t.parentOf) {i p : Nat} (hp : (t.node i).parent = some p) :
    t.components i = t.components p ++ [(t.node i).name] := by
  have hlt := hd i p hp
  unfold DirTree.components
  rw [DirTree.componentsUp, if_neg (by omega), hp]
  simp only [List.reverse_cons]
  rw [componentsUp_congr hd (fun _ _ => ⟨rfl, rfl⟩) hlt (Nat.lt_succ_self p)]

namespace Walk

/-- The directories registered so far, as a tree without contents. -/
def sketch (w : Walk) (nodes : List TrackedNode) : DirTree where
  displayRoot := w.target.displayPath
  scanRoot := w.target.scanPath
  rootDev := w.rootDev
  nodes := nodes.map fun n => treeNode n {}
  links := .empty
  handles := []
  plain := []
  untrackedLinks := []

section Sketch

variable {w : Walk} {nodes nodes' : List TrackedNode}

theorem sketch_node (w : Walk) (nodes : List TrackedNode) (i : Nat) :
    ((w.sketch nodes).node i).parent = (nodeIn nodes i).parent ∧ ((w.sketch nodes).node i).name = (nodeIn nodes i).name := by
  unfold DirTree.node sketch nodeIn
  by_cases hi : i < nodes.length
  · rw [List.getD_eq_getElem _ _ (by simpa using hi), List.getD_eq_getElem _ _ hi, List.getElem_map]
    exact ⟨rfl, rfl⟩
  · rw [List.getD_eq_default _ _ (by simpa using hi), List.getD_eq_default _ _ (Nat.le_of_not_lt hi)]
    exact ⟨rfl, rfl⟩

theorem Registered.down (h : Registered nodes) (w : Walk) : Down (w.sketch nodes).parentOf :=
  fun i p hp => h.down_parentIn i p ((sketch_node w nodes i).1.symm.trans hp)

/-- A directory keeps its parent and its name when others are registered. -/
theorem nodeIn_extended {more : List TrackedNode} (hf : nodes'.map TrackedNode.fixed = (nodes ++ more).map TrackedNode.fixed)
    {i : Nat} (hi : i < nodes.length) :
    (nodeIn nodes' i).parent = (nodeIn nodes i).parent ∧ (nodeIn nodes' i).name = (nodeIn nodes i).name := by
  have hfixed := fixed_nodeIn hf i
  rw [nodeIn_append_left hi] at hfixed
  have hparent := congrArg TrackedNode.parent hfixed
  have hname := congrArg TrackedNode.name hfixed
  exact ⟨hparent, hname⟩

/-- A tree that holds the directories registered so far has their paths. -/
theorem components_extended (h : Registered nodes) {more : List TrackedNode}
    (hf : nodes'.map TrackedNode.fixed = (nodes ++ more).map TrackedNode.fixed) {t : DirTree}
    (ht : ∀ j < nodes'.length, (t.node j).parent = (nodeIn nodes' j).parent ∧ (t.node j).name = (nodeIn nodes' j).name)
    {i : Nat} (hi : i < nodes.length) : t.components i = (w.sketch nodes).components i := by
  have hlen : nodes'.length = nodes.length + more.length := by rw [length_of_fixed hf, List.length_append]
  refine components_congr (h.down w) fun j hj => ?_
  obtain ⟨hparent, hname⟩ := nodeIn_extended hf (Nat.lt_of_le_of_lt hj hi)
  obtain ⟨htp, htn⟩ := ht j (by omega)
  rw [(sketch_node w nodes j).1, (sketch_node w nodes j).2, htp, htn]
  exact ⟨hparent, hname⟩

/-- A directory registered below another is named below it. -/
theorem registered_child (h : Registered nodes) (h' : Registered nodes') {job : Job} {pending : List PendingDir}
    (hf : nodes'.map TrackedNode.fixed = (nodes ++ pending.map (register job)).map TrackedNode.fixed)
    (hj : job.node < nodes.length) {k : Nat} (hk : k < pending.length) :
    (nodeIn nodes' (nodes.length + k)).fixed = (register job pending[k]).fixed ∧
      (w.sketch nodes').components (nodes.length + k) = (w.sketch nodes).components job.node ++ [pending[k].name] := by
  have hnode : nodeIn (nodes ++ pending.map (register job)) (nodes.length + k) = register job pending[k] := by
    unfold nodeIn
    rw [List.getD_append_right _ _ _ _ (Nat.le_add_right _ _), Nat.add_sub_cancel_left,
      List.getD_eq_getElem _ _ (by simpa using hk), List.getElem_map]
  have hfixed := fixed_nodeIn hf (nodes.length + k)
  rw [hnode] at hfixed
  have hparent := congrArg TrackedNode.parent hfixed
  have hname := congrArg TrackedNode.name hfixed
  have hparent := (sketch_node w nodes' (nodes.length + k)).1.trans hparent
  have hname := (sketch_node w nodes' (nodes.length + k)).2.trans hname
  refine ⟨hfixed, ?_⟩
  rw [components_of_down (h'.down w) hparent, hname]
  exact congrArg (· ++ [pending[k].name]) (components_extended h hf (fun j _ => sketch_node w nodes' j) hj)

end Sketch

/-- A job reads the directory whose path its names spell, which is matched under its displayed path. -/
structure Spells (w : Walk) (job : Job) (names : List Bytes) : Prop where
  scan : job.path = DirTree.join w.target.scanPath names
  depth : 0 < job.depth ↔ names ≠ []

theorem Spells.displayDir {w : Walk} {job : Job} {names : List Bytes} (h : Spells w job names) :
    w.displayDir job = DirTree.join w.target.displayPath names := by
  unfold Walk.displayDir
  by_cases hn : names = []
  · rw [if_neg (fun hd => h.depth.1 hd hn), hn]
    rfl
  · obtain ⟨rest, hrest⟩ := join_split names hn
    rw [if_pos (h.depth.2 hn), h.scan, hrest, hrest]
    unfold pushComponent relStart
    congr 1
    split
    · exact List.drop_left' rfl
    · exact List.drop_left' (by simp)

/-! ## Visits -/

/-- A worker reading `job`'s directory, which listed `reading` when it was opened and the worker had
`before`, and the directories offered a node by its last step. Between its steps the other workers
offer nodes to directories of their own. -/
inductive Visits (w : Walk) (kernel : Kernel) (job : Job) (reading : Reading) (before : Worker) : Nat → InDir → Worker → Prop
  | opened (k : Nat) (h : kernel job.path (.ok reading)) :
      Visits w kernel job reading before k { job := job, left := reading.entries, fail := reading.fail } before
  | entry {k tracked : Nat} {p : InDir} {d : Worker} {e : Entry} {rest : List Entry}
      (h : Visits w kernel job reading before k p d) (hk : k ≤ tracked) (hl : p.left = e :: rest) :
      Visits w kernel job reading before (w.readEntry e { p with left := rest } d tracked).2.2
        (w.readEntry e { p with left := rest } d tracked).1 (w.readEntry e { p with left := rest } d tracked).2.1

/-- Only a tracked directory's subdirectories are offered nodes. -/
theorem readEntry_untracked (w : Walk) (e : Entry) {p : InDir} (h : p.job.tracked = false) (d : Worker) (k : Nat) :
    (w.readEntry e p d k).1.pending = p.pending := by
  unfold readEntry
  split
  · rfl
  · split
    · rfl
    · split
      · split <;> rfl
      · split
        · rfl
        · dsimp only
          split
          · unfold readSubdir
            simp only [h]
            split
            · rename_i hf
              cases hf
            · split <;> rfl
          · rfl

/-- What holds all through a visit. -/
structure OnVisit (job : Job) (reading : Reading) (before : Worker) (p : InDir) (d : Worker) : Prop where
  at_ : p.job = job
  fail : p.fail = reading.fail
  tallies : d.tallies = before.tallies
  children : ∀ c ∈ p.children, c.node = job.node ∧ c.tracked = false
  none : job.tracked = false → p.pending = []

theorem Visits.on {w : Walk} {kernel : Kernel} {job : Job} {reading : Reading} {before d : Worker} {k : Nat} {p : InDir}
    (h : Visits w kernel job reading before k p d) : OnVisit job reading before p d := by
  induction h with
  | opened k h => exact ⟨rfl, rfl, rfl, fun c hc => absurd hc List.not_mem_nil, fun _ => rfl⟩
  | @entry k tracked p d e rest h hk hl ih =>
    have hkept := readEntry_kept w e { p with left := rest } d tracked
    refine ⟨hkept.job.trans ih.at_, hkept.fail.trans ih.fail, hkept.tallies.trans ih.tallies, fun c hc => ?_, fun hu => ?_⟩
    · rcases hkept.children c hc with hc | ⟨hnode, huntracked⟩
      · exact ih.children c hc
      · exact ⟨hnode.trans (congrArg Job.node ih.at_), huntracked⟩
    · exact (readEntry_untracked w e (p := { p with left := rest }) ((congrArg Job.tracked ih.at_).trans hu) d tracked).trans
        (ih.none hu)

/-- A visit reads what the kernel listed. -/
theorem Visits.listed {w : Walk} {kernel : Kernel} {job : Job} {reading : Reading} {before d : Worker} {k : Nat} {p : InDir}
    (h : Visits w kernel job reading before k p d) : kernel job.path (.ok reading) := by
  induction h with
  | opened k h => exact h
  | entry h hk hl ih => exact ih

/-- A tracked subdirectory is read under its parent's path, for its own node. -/
theorem trackedJobs_at {job c : Job} : ∀ {first : Nat} {pending : List PendingDir}, c ∈ trackedJobs job first pending →
    ∃ k, ∃ hk : k < pending.length, c = ⟨childPath job.path pending[k].name, job.depth + 1, first + k, true⟩
  | _, [], h => absurd h List.not_mem_nil
  | first, dir :: rest, h => by
    have hrest : c ∈ trackedJobs job (first + 1) rest → ∃ k, ∃ hk : k < (dir :: rest).length,
        c = ⟨childPath job.path (dir :: rest)[k].name, job.depth + 1, first + k, true⟩ := by
      intro h
      obtain ⟨k, hk, rfl⟩ := trackedJobs_at h
      refine ⟨k + 1, Nat.succ_lt_succ hk, ?_⟩
      rw [List.getElem_cons_succ, Nat.add_right_comm, Nat.add_assoc]
    rw [trackedJobs] at h
    split at h
    · rcases List.mem_cons.1 h with rfl | h
      · exact ⟨0, Nat.succ_pos _, rfl⟩
      · exact hrest h
    · exact hrest h

/-- What the end of a visit leaves: its subdirectories registered and to be read, and counts nowhere
but in its own node. -/
structure VisitEnd (job : Job) (pending : List PendingDir) (nodes nodes' : List TrackedNode) (d d' : Worker)
    (children : List Job) : Prop where
  registers : nodes'.map TrackedNode.fixed = (nodes ++ pending.map (register job)).map TrackedNode.fixed
  descends : (children.filter fun c => c.tracked = true) = trackedJobs job nodes.length pending
  none : job.tracked = false → pending = []
  untracked : ∀ c ∈ children, c.tracked = false → c.node = job.node
  tallies : ∀ k ≠ job.node, d'.tallies k = d.tallies k

theorem OnVisit.ended {job : Job} {reading : Reading} {before d d' : Worker} {p : InDir} (h : OnVisit job reading before p d)
    {nodes nodes' : List TrackedNode} (hn : nodes'.map TrackedNode.fixed = nodes.map TrackedNode.fixed)
    (ht : d'.tallies = d.tallies) :
    VisitEnd job p.pending nodes (p.registered nodes') d (p.tallied d') (p.jobs nodes) := by
  refine ⟨?_, ?_, h.none, fun c hc hu => ?_, fun k hk => ?_⟩
  · rw [fixed_registered, List.map_append, hn, h.at_, List.map_append]
  · unfold InDir.jobs
    rw [List.filter_append, List.filter_eq_nil_iff.2 fun c hc => by rw [(h.children c hc).2]; decide, List.nil_append, h.at_,
      List.filter_eq_self.2 fun c hc => by simp [(mem_trackedJobs hc).1]]
  · rcases List.mem_append.1 hc with hc | hc
    · exact (h.children c hc).1
    · exact absurd (hu.symm.trans (mem_trackedJobs hc).1) Bool.false_ne_true
  · unfold InDir.tallied
    simp only
    rw [Function.update_of_ne (h.at_ ▸ hk), ht]

/-! ## The invariant -/

/-- What holds of the visits at any moment of a walk. -/
structure Visiting {n : Nat} (w : Walk) (kernel : Kernel) (b : Bag n Job Progress Worker Shared) : Prop where
  registering : Registering b
  /-- No tracked directory is to be read twice. -/
  distinct : ((b.jobs.filter fun job => job.tracked = true).map Job.node).Nodup
  /-- Nor is anything below it to be read before it is. -/
  alone : ∀ job ∈ b.jobs, job.tracked = true → ∀ c ∈ b.jobs, c.node = job.node → c.tracked = true
  spelled : ∀ job ∈ b.jobs, job.tracked = true → Spells w job ((w.sketch b.shared.nodes).components job.node)
  /-- Nothing is counted for a directory not read yet. -/
  blank : ∀ k, (b.shared.nodes.length ≤ k ∨ ∃ job ∈ b.jobs, job.tracked = true ∧ job.node = k) →
    ∀ i, (b.data i).tallies k = {}
  visits : ∀ i job p, b.active i = some (job, .reading p) →
    ∃ reading before k, k ≤ b.shared.tracked ∧ Visits w kernel job reading before k p (b.data i)

section Steps

variable {n : Nat} {w : Walk} {kernel : Kernel} {b : Bag n Job Progress Worker Shared} {i : Fin (n + 1)}

theorem Visiting.start (h : Visiting w kernel b) {job : Job} {rest : Multiset Job} (hi : b.active i = none)
    (hj : b.pending = {job} + rest) :
    Visiting w kernel { b with pending := rest, active := Function.update b.active i (some (job, .opening job)) } := by
  have hjobs := Bag.jobs_start hi hj (Progress.opening job)
  refine ⟨h.registering.start hi hj, by rw [hjobs]; exact h.distinct, by rw [hjobs]; exact h.alone,
    by rw [hjobs]; exact h.spelled, by rw [hjobs]; exact h.blank, fun i' job' p' hp => ?_⟩
  change Function.update b.active i _ i' = _ at hp
  rw [Function.update_apply] at hp
  split at hp
  · cases hp
  · exact h.visits i' job' p' hp

theorem Visiting.more (h : Visiting w kernel b) {job : Job} {p p' : Progress} {d' : Worker} {s' : Shared} {interrupted : Bool}
    (hi : b.active i = some (job, p)) (ht : ReadStep w kernel interrupted p (b.data i) b.shared (.more p' d' s')) :
    Visiting w kernel
      { b with active := Function.update b.active i (some (job, p')), data := Function.update b.data i d', shared := s' } := by
  have hstep : s'.nodes = b.shared.nodes ∧ d'.tallies = (b.data i).tallies ∧ b.shared.tracked ≤ s'.tracked ∧
      ∀ q, p' = .reading q → ∃ reading before k, k ≤ s'.tracked ∧ Visits w kernel job reading before k q d' := by
    have hjob := (h.registering.active i job p hi).1
    cases ht with
    | @opened job' reading _ _ hr =>
      refine ⟨rfl, rfl, le_rfl, fun q hq => ?_⟩
      cases hq
      cases hjob
      exact ⟨reading, b.data i, b.shared.tracked, le_rfl, .opened _ hr⟩
    | @entry p₀ e rest _ _ hl hi' =>
      refine ⟨rfl, (readEntry_kept w e { p₀ with left := rest } (b.data i) b.shared.tracked).tallies, ?_, fun q hq => ?_⟩
      · rcases readEntry_offers w e { p₀ with left := rest } (b.data i) b.shared.tracked with ⟨-, hle⟩ | ⟨-, heq, -⟩
        · exact hle
        · exact heq ▸ Nat.le_succ _
      · cases hq
        obtain ⟨reading, before, k, hk, hv⟩ := h.visits i job p₀ hi
        exact ⟨reading, before, _, le_rfl, hv.entry hk hl⟩
  obtain ⟨hnodes, htallies, htracked, hvisit⟩ := hstep
  have hjobs := Bag.jobs_more hi p' (Function.update b.data i d') s'
  refine ⟨h.registering.more hi ht, by rw [hjobs]; exact h.distinct, by rw [hjobs]; exact h.alone,
    by rw [hjobs, hnodes]; exact h.spelled, ?_, fun i' job'' p'' hp => ?_⟩
  · rw [hjobs, hnodes]
    intro k hk i'
    show (Function.update b.data i d' i').tallies k = {}
    rw [Function.update_apply]
    split
    · rw [htallies]
      exact h.blank k hk i
    · exact h.blank k hk i'
  · change Function.update b.active i _ i' = _ at hp
    rw [Function.update_apply] at hp
    show ∃ reading before k, k ≤ s'.tracked ∧ Visits w kernel job'' reading before k p'' (Function.update b.data i d' i')
    rw [Function.update_apply]
    split at hp
    · rename_i he
      cases hp
      rw [if_pos he]
      exact hvisit p'' rfl
    · rename_i he
      rw [if_neg he]
      obtain ⟨reading, before, k, hk, hv⟩ := h.visits i' job'' p'' hp
      exact ⟨reading, before, k, hk.trans htracked, hv⟩

/-- A directory's job done, its end is that of a visit. -/
theorem Visiting.ended (h : Visiting w kernel b) {job : Job} {p : Progress} {children : List Job} {d' : Worker} {s' : Shared}
    {interrupted : Bool} (hi : b.active i = some (job, p))
    (ht : ReadStep w kernel interrupted p (b.data i) b.shared (.done children d' s')) :
    ∃ pending, VisitEnd job pending b.shared.nodes s'.nodes (b.data i) d' children := by
  cases ht with
  | @unopened job' _ _ _ _ _ _ =>
    refine ⟨[], ?_, rfl, fun _ => rfl, fun c hc => absurd hc List.not_mem_nil, fun _ _ => rfl⟩
    rw [List.map_nil, List.append_nil]
    exact fixed_sealNode job' b.shared.nodes
  | @closed p₀ _ _ hl hf =>
    obtain ⟨reading, before, k, -, hv⟩ := h.visits i job p₀ hi
    exact ⟨p₀.pending, hv.on.ended rfl rfl⟩
  | @closedEarly p₀ _ _ _ _ hl hf htol =>
    obtain ⟨reading, before, k, -, hv⟩ := h.visits i job p₀ hi
    exact ⟨p₀.pending, hv.on.ended (fixed_sealNode _ _) rfl⟩

theorem Visiting.done (h : Visiting w kernel b) {job : Job} {p : Progress} {children : List Job} {d' : Worker} {s' : Shared}
    {interrupted : Bool} (hi : b.active i = some (job, p))
    (ht : ReadStep w kernel interrupted p (b.data i) b.shared (.done children d' s')) :
    Visiting w kernel ⟨b.pending + children, Function.update b.active i none, Function.update b.data i d', s'⟩ := by
  obtain ⟨pending, hend⟩ := h.ended hi ht
  obtain ⟨rest, hrest, hjobs⟩ := Bag.jobs_done hi (children : Multiset Job) (Function.update b.data i d') s'
  have hreg := h.registering
  have hmem : job ∈ b.jobs := Bag.mem_jobs hi
  have hplace := hreg.placed job hmem
  have hlen : s'.nodes.length = b.shared.nodes.length + pending.length := by
    rw [length_of_fixed hend.registers, List.length_append, List.length_map]
  have hrestm : ∀ c ∈ rest, c ∈ b.jobs := fun c hc => by
    rw [hrest]
    exact Multiset.mem_add.2 (.inr hc)
  have hnew : ∀ c ∈ (children : Multiset Job), c.tracked = true → c ∈ trackedJobs job b.shared.nodes.length pending := by
    intro c hc htr
    rw [← hend.descends]
    exact List.mem_filter.2 ⟨Multiset.mem_coe.1 hc, by simpa using htr⟩
  have hdistinct := h.distinct
  rw [hrest, Multiset.filter_add, Multiset.map_add] at hdistinct
  have hother : ∀ c ∈ rest, c.tracked = true → c.node ≠ job.node := by
    intro c hc htr he
    have htj : job.tracked = true := h.alone c (hrestm c hc) htr job hmem he.symm
    rw [Multiset.filter_singleton, if_pos htj, Multiset.map_singleton, Multiset.singleton_add, Multiset.nodup_cons] at hdistinct
    exact hdistinct.1 (he ▸ Multiset.mem_map_of_mem Job.node (Multiset.mem_filter.2 ⟨hc, htr⟩))
  have hold : ∀ k < b.shared.nodes.length, (w.sketch s'.nodes).components k = (w.sketch b.shared.nodes).components k :=
    fun k hk => components_extended hreg.nodes hend.registers (fun j _ => sketch_node w s'.nodes j) hk
  refine ⟨hreg.done hi ht, ?distinct, ?alone, ?spelled, ?blank, ?visits⟩
  case distinct =>
    rw [hjobs, Multiset.filter_add, Multiset.map_add, Multiset.filter_coe, hend.descends, Multiset.nodup_add]
    refine ⟨(Multiset.nodup_add.1 hdistinct).2.1, trackedJobs_nodup job _ pending, ?_⟩
    rw [Multiset.disjoint_left]
    intro k hk hk'
    obtain ⟨c, hc, rfl⟩ := Multiset.mem_map.1 hk
    obtain ⟨c', hc', he⟩ := Multiset.mem_map.1 hk'
    have h1 := hreg.placed c (hrestm c (Multiset.mem_filter.1 hc).1)
    have h2 := (mem_trackedJobs (Multiset.mem_coe.1 hc')).2.2.1
    omega
  case alone =>
    rw [hjobs]
    intro c hc htr c' hc' he
    rcases Multiset.mem_add.1 hc' with hc' | hc'
    · rcases Multiset.mem_add.1 hc with hc | hc
      · exact h.alone c (hrestm c hc) htr c' (hrestm c' hc') he
      · have := (mem_trackedJobs (hnew c hc htr)).2.2.1
        have := hreg.placed c' (hrestm c' hc')
        omega
    · by_contra hu
      have hat : c'.node = job.node := hend.untracked c' (Multiset.mem_coe.1 hc') (by simpa using hu)
      rcases Multiset.mem_add.1 hc with hc | hc
      · exact hother c hc htr (he.symm.trans hat)
      · have := (mem_trackedJobs (hnew c hc htr)).2.2.1
        omega
  case spelled =>
    rw [hjobs]
    intro c hc htr
    show Spells w c ((w.sketch s'.nodes).components c.node)
    rcases Multiset.mem_add.1 hc with hc | hc
    · rw [hold c.node (hreg.placed c (hrestm c hc))]
      exact h.spelled c (hrestm c hc) htr
    · obtain ⟨k, hk, rfl⟩ := trackedJobs_at (hnew c hc htr)
      have htj : job.tracked = true := by
        by_contra hu
        rw [hend.none (by simpa using hu)] at hk
        exact absurd hk (Nat.not_lt_zero k)
      show Spells w _ ((w.sketch s'.nodes).components (b.shared.nodes.length + k))
      rw [(registered_child hreg.nodes (hreg.done hi ht).nodes hend.registers hplace hk).2]
      refine ⟨?_, by simp⟩
      show pushComponent job.path pending[k].name = _
      unfold DirTree.join
      rw [(h.spelled job hmem htj).scan, List.foldl_append]
      rfl
  case blank =>
    rw [hjobs]
    intro k hk i'
    -- a directory still to be read is not the one just read
    have hk' : (b.shared.nodes.length ≤ k ∨ ∃ c ∈ b.jobs, c.tracked = true ∧ c.node = k) ∧ k ≠ job.node := by
      rcases hk with hk | ⟨c, hc, htr, rfl⟩
      · have hk : s'.nodes.length ≤ k := hk
        exact ⟨.inl (by omega), by omega⟩
      · rcases Multiset.mem_add.1 hc with hc | hc
        · exact ⟨.inr ⟨c, hrestm c hc, htr, rfl⟩, hother c hc htr⟩
        · have := (mem_trackedJobs (hnew c hc htr)).2.2.1
          exact ⟨.inl this, by omega⟩
    show (Function.update b.data i d' i').tallies k = {}
    rw [Function.update_apply]
    split
    · rw [hend.tallies k hk'.2]
      exact h.blank k hk'.1 i
    · exact h.blank k hk'.1 i'
  case visits =>
    intro i' job' p' hp
    change Function.update b.active i _ i' = _ at hp
    have htracked : s'.tracked = b.shared.tracked := by cases ht <;> rfl
    show ∃ reading before k, k ≤ s'.tracked ∧ Visits w kernel job' reading before k p' (Function.update b.data i d' i')
    rw [Function.update_apply] at hp ⊢
    split at hp
    · cases hp
    · rename_i he
      rw [if_neg he, htracked]
      exact h.visits i' job' p' hp

/-- In every state of a walk each worker at work is on a visit. -/
theorem visiting_of_reachable {host : Host} {data : Fin (n + 1) → Worker} (hd : ∀ i k, (data i).tallies k = {})
    {root : TrackedNode} (hp : root.parent = none)
    (h : BagReachable (w.readDir host.listing host.answers) (rootJob w.target) data { nodes := [root], tracked := 1 } b) :
    Visiting w host.listing b := by
  induction h with
  | initial =>
    have hjobs : (⟨{rootJob w.target}, fun _ => none, data, { nodes := [root], tracked := 1 }⟩ :
        Bag n Job Progress Worker Shared).jobs = {rootJob w.target} := by
      unfold Bag.jobs
      simp [Bag.atWork_none]
    have hreach : BagReachable (w.readDir host.listing host.answers) (rootJob w.target) data { nodes := [root], tracked := 1 } _ :=
      .initial
    refine ⟨registering_of_reachable hp hreach, ?_, ?_, ?_, fun k _ i => hd i k, fun i job p h => by cases h⟩
    · rw [hjobs, Multiset.filter_singleton, if_pos (show (rootJob w.target).tracked = true from rfl), Multiset.map_singleton]
      exact Multiset.nodup_singleton _
    · rw [hjobs]
      intro job _ _ c hc _
      rw [Multiset.mem_singleton.1 hc]
      rfl
    · rw [hjobs]
      intro job hj _
      rw [Multiset.mem_singleton.1 hj]
      exact ⟨by rw [show (rootJob w.target).node = 0 from rfl, Shape.components_zero]; rfl,
        by rw [show (rootJob w.target).node = 0 from rfl, Shape.components_zero]; simp [rootJob]⟩
  | start h hi hj ih => exact ih.start hi hj
  | more h hi ht ih => exact ih.more hi ht
  | done h hi ht ih => exact ih.done hi ht

end Steps

/-! ## The finished tree -/

/-- A tree's paths are those its directories had when they were registered. -/
theorem components_of_finish {w : Walk} {nodes nodes' more : List TrackedNode} {workers : List Worker} {t : DirTree}
    (hn : Registered nodes) (hf : nodes'.map TrackedNode.fixed = (nodes ++ more).map TrackedNode.fixed)
    (ht : (finish w nodes' workers).tree = some t) {i : Nat} (hi : i < nodes.length) :
    t.displayRoot = w.target.displayPath ∧ t.scanRoot = w.target.scanPath ∧ t.rootDev = w.rootDev ∧
      t.components i = (w.sketch nodes).components i := by
  obtain ⟨u, hu, rfl⟩ := Option.map_eq_some_iff.1 ht
  obtain ⟨hb, -, -, -⟩ := built_of_buildTree hu
  have hroots : u.displayRoot = w.target.displayPath ∧ u.scanRoot = w.target.scanPath ∧ u.rootDev = w.rootDev := by
    unfold buildTree at hu
    split at hu
    · cases hu
    · cases hu
      exact ⟨rfl, rfl, rfl⟩
  have hnode : ∀ j < nodes'.length, (u.node j).parent = (nodeIn nodes' j).parent ∧ (u.node j).name = (nodeIn nodes' j).name :=
    fun j hj => by rw [hb.node j hj]; exact ⟨rfl, rfl⟩
  refine ⟨hroots.1, hroots.2.1, hroots.2.2, ?_⟩
  refine Eq.trans ?_ (components_extended (w := w) hn hf hnode hi)
  refine components_of_nodes ?_ i
  rfl

end Walk

end StorageHarvester
