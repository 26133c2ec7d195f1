/-
The times of a scan's tree: every tracked directory but the root is registered below one registered
before, whatever the kernel answers, and `build_tree` carries the newest time up to all above.
-/
import StorageHarvester.Scan.Fresh
import StorageHarvester.Tree.Times

namespace StorageHarvester

open Forest
open WorkPool (Bag BagReachable)

namespace Walk

/-! ## Registering directories -/

/-- Every tracked directory but the root is registered below one registered before. -/
structure Registered (nodes : List TrackedNode) : Prop where
  pos : 0 < nodes.length
  root : (nodeIn nodes 0).parent = none
  below : ∀ i, 0 < i → i < nodes.length → ∃ p < i, (nodeIn nodes i).parent = some p

section Nodes

variable {nodes nodes' : List TrackedNode}

theorem Registered.congr (h : Registered nodes) (hf : nodes'.map TrackedNode.fixed = nodes.map TrackedNode.fixed) :
    Registered nodes' := by
  have hlen := length_of_fixed hf
  have hparent : ∀ i, (nodeIn nodes' i).fixed.parent = (nodeIn nodes i).fixed.parent := fun i =>
    congrArg TrackedNode.parent (fixed_nodeIn hf i)
  refine ⟨hlen ▸ h.pos, (hparent 0).trans h.root, fun i hi hl => ?_⟩
  obtain ⟨p, hpi, hp⟩ := h.below i hi (hlen ▸ hl)
  exact ⟨p, hpi, (hparent i).trans hp⟩

theorem Registered.append (h : Registered nodes) {job : Job} (hj : job.node < nodes.length) (pending : List PendingDir) :
    Registered (nodes ++ pending.map (register job)) := by
  refine ⟨by rw [List.length_append]; have := h.pos; omega, by rw [nodeIn_append_left h.pos]; exact h.root, fun i hi hl => ?_⟩
  rcases Nat.lt_or_ge i nodes.length with hil | hil
  · obtain ⟨p, hpi, hp⟩ := h.below i hi hil
    exact ⟨p, hpi, by rw [nodeIn_append_left hil]; exact hp⟩
  · obtain ⟨k, rfl⟩ := Nat.exists_eq_add_of_le hil
    rw [List.length_append, List.length_map] at hl
    have hk : k < (pending.map (register job)).length := by rw [List.length_map]; omega
    refine ⟨job.node, by omega, ?_⟩
    unfold nodeIn
    rw [List.getD_append_right _ _ _ _ hil, Nat.add_sub_cancel_left, List.getD_eq_getElem _ _ hk, List.getElem_map]
    rfl

theorem Registered.down_parentIn (h : Registered nodes) : Down (parentIn nodes) := by
  intro i p hp
  rcases Nat.eq_zero_or_pos i with rfl | hpos
  · exact absurd (h.root.symm.trans hp) nofun
  · by_cases hi : i < nodes.length
    · obtain ⟨q, hq, hq'⟩ := h.below i hpos hi
      cases hq'.symm.trans hp
      exact hq
    · rw [parentIn, List.getD_eq_default _ _ (Nat.le_of_not_lt hi)] at hp
      cases hp

end Nodes

/-- The subdirectories without a node met so far. -/
def Progress.children : Progress → List Job
  | .opening _ => []
  | .reading p => p.children

/-- What reading an entry never changes of its directory and of the worker's data. The subdirectories
without a node go by the directory's own. -/
structure EntryKept (p p' : InDir) (d d' : Worker) : Prop where
  job : p'.job = p.job
  left : p'.left = p.left
  fail : p'.fail = p.fail
  tallies : d'.tallies = d.tallies
  children : ∀ c ∈ p'.children, c ∈ p.children ∨ c.node = p.job.node ∧ c.tracked = false

theorem readEntry_kept (w : Walk) (e : Entry) (p : InDir) (d : Worker) (k : Nat) :
    EntryKept p (w.readEntry e p d k).1 d (w.readEntry e p d k).2.1 := by
  have hchild : ∀ c ∈ p.children ++ [Job.mk (childPath p.job.path e.name) (p.job.depth + 1) p.job.node false],
      c ∈ p.children ∨ c.node = p.job.node ∧ c.tracked = false := by
    intro c hc
    rcases List.mem_append.1 hc with hc | hc
    · exact .inl hc
    · rw [List.mem_singleton.1 hc]
      exact .inr ⟨rfl, rfl⟩
  unfold readEntry
  split
  · exact ⟨rfl, rfl, rfl, rfl, fun _ hc => .inl hc⟩
  · split
    · exact ⟨rfl, rfl, rfl, rfl, fun _ hc => .inl hc⟩
    · split
      · split <;> exact ⟨rfl, rfl, rfl, rfl, fun _ hc => .inl hc⟩
      · split
        · exact ⟨rfl, rfl, rfl, rfl, fun _ hc => .inl hc⟩
        · dsimp only
          split
          · unfold readSubdir
            dsimp only
            split
            · split
              · exact ⟨rfl, rfl, rfl, rfl, fun _ hc => .inl hc⟩
              · split
                · exact ⟨rfl, rfl, rfl, rfl, hchild⟩
                · exact ⟨rfl, rfl, rfl, rfl, fun _ hc => .inl hc⟩
            · split
              · exact ⟨rfl, rfl, rfl, rfl, hchild⟩
              · exact ⟨rfl, rfl, rfl, rfl, fun _ hc => .inl hc⟩
          · exact ⟨rfl, rfl, rfl, rfl, fun _ hc => .inl hc⟩

/-- What holds of the registered directories at any moment of a walk. -/
structure Registering {n : Nat} (b : Bag n Job Progress Worker Shared) : Prop where
  nodes : Registered b.shared.nodes
  placed : ∀ job ∈ b.jobs, job.node < b.shared.nodes.length
  active : ∀ i job p, b.active i = some (job, p) → p.job = job ∧ ∀ c ∈ p.children, c.node = job.node

section Steps

variable {n : Nat} {w : Walk} {kernel : Kernel} {b : Bag n Job Progress Worker Shared} {i : Fin (n + 1)}

theorem Registering.start (h : Registering b) {job : Job} {rest : Multiset Job} (hi : b.active i = none)
    (hj : b.pending = {job} + rest) :
    Registering { b with pending := rest, active := Function.update b.active i (some (job, .opening job)) } := by
  have hjobs := Bag.jobs_start hi hj (Progress.opening job)
  refine ⟨h.nodes, by rw [hjobs]; exact h.placed, fun i' job' p' hp => ?_⟩
  change Function.update b.active i _ i' = _ at hp
  rw [Function.update_apply] at hp
  split at hp
  · cases hp
    exact ⟨rfl, fun c hc => absurd hc List.not_mem_nil⟩
  · exact h.active i' job' p' hp

theorem Registering.more (h : Registering b) {job : Job} {p p' : Progress} {d' : Worker} {s' : Shared} {interrupted : Bool}
    (hi : b.active i = some (job, p)) (ht : ReadStep w kernel interrupted p (b.data i) b.shared (.more p' d' s')) :
    Registering { b with active := Function.update b.active i (some (job, p')), data := Function.update b.data i d', shared := s' } := by
  obtain ⟨hjob, hkids⟩ := h.active i job p hi
  have hstep : s'.nodes = b.shared.nodes ∧ p'.job = job ∧ ∀ c ∈ p'.children, c.node = job.node := by
    cases ht with
    | opened hr => exact ⟨rfl, hjob, fun c hc => absurd hc List.not_mem_nil⟩
    | @entry p₀ e rest _ _ hl hi' =>
      have hkept := readEntry_kept w e { p₀ with left := rest } (b.data i) b.shared.tracked
      refine ⟨rfl, hkept.job.trans hjob, fun c hc => ?_⟩
      rcases hkept.children c hc with hc | hc
      · exact hkids c hc
      · exact hc.1.trans (congrArg Job.node hjob)
  obtain ⟨hnodes, hjob', hkids'⟩ := hstep
  have hjobs := Bag.jobs_more hi p' (Function.update b.data i d') s'
  refine ⟨by rw [hnodes]; exact h.nodes, by rw [hjobs, hnodes]; exact h.placed, fun i' job'' p'' hp => ?_⟩
  change Function.update b.active i _ i' = _ at hp
  rw [Function.update_apply] at hp
  split at hp
  · cases hp
    exact ⟨hjob', hkids'⟩
  · exact h.active i' job'' p'' hp

theorem Registering.done (h : Registering b) {job : Job} {p : Progress} {children : List Job} {d' : Worker} {s' : Shared}
    {interrupted : Bool} (hi : b.active i = some (job, p))
    (ht : ReadStep w kernel interrupted p (b.data i) b.shared (.done children d' s')) :
    Registering ⟨b.pending + children, Function.update b.active i none, Function.update b.data i d', s'⟩ := by
  obtain ⟨hjob, hkids⟩ := h.active i job p hi
  have hplace := h.placed job (Bag.mem_jobs hi)
  have hstep : ∃ pending : List PendingDir, s'.nodes.map TrackedNode.fixed = (b.shared.nodes ++ pending.map (register job)).map TrackedNode.fixed ∧
      ∀ c ∈ children, c.node = job.node ∨ c.node < b.shared.nodes.length + pending.length := by
    have hclosed : ∀ p₀ : InDir, p₀.job = job → (∀ c ∈ p₀.children, c.node = job.node) → ∀ c ∈ p₀.jobs b.shared.nodes,
        c.node = job.node ∨ c.node < b.shared.nodes.length + p₀.pending.length := by
      intro p₀ _ hk c hc
      rcases List.mem_append.1 hc with hc | hc
      · exact .inl (hk c hc)
      · exact .inr (mem_trackedJobs hc).2.2.2
    cases ht with
    | @unopened job' _ _ _ _ _ _ =>
      refine ⟨[], ?_, fun c hc => absurd hc List.not_mem_nil⟩
      rw [List.map_nil, List.append_nil]
      exact fixed_sealNode job' b.shared.nodes
    | @closed p₀ _ _ hl hf =>
      refine ⟨p₀.pending, ?_, hclosed p₀ hjob hkids⟩
      rw [fixed_registered, show p₀.job = job from hjob, List.map_append]
    | @closedEarly p₀ _ _ _ _ hl hf htol =>
      refine ⟨p₀.pending, ?_, hclosed p₀ hjob hkids⟩
      rw [fixed_registered, show p₀.job = job from hjob, List.map_append, fixed_sealNode, List.map_append]
  obtain ⟨pending, hnodes, hchildren⟩ := hstep
  have hlen : s'.nodes.length = b.shared.nodes.length + pending.length := by
    rw [length_of_fixed hnodes, List.length_append, List.length_map]
  obtain ⟨rest, hrest, hjobs⟩ := Bag.jobs_done hi (children : Multiset Job) (Function.update b.data i d') s'
  refine ⟨(h.nodes.append hplace pending).congr hnodes, ?_, fun i' job' p' hp => ?_⟩
  · rw [hjobs]
    intro job' hj'
    show _ < s'.nodes.length
    rw [hlen]
    rcases Multiset.mem_add.1 hj' with hj' | hj'
    · have := h.placed job' (by rw [hrest]; exact Multiset.mem_add.2 (.inr hj'))
      omega
    · rcases hchildren job' (Multiset.mem_coe.1 hj') with hc | hc
      · omega
      · exact hc
  · change Function.update b.active i _ i' = _ at hp
    rw [Function.update_apply] at hp
    split at hp
    · cases hp
    · exact h.active i' job' p' hp

theorem registering_of_reachable {host : Host} {data : Fin (n + 1) → Worker} {root : TrackedNode} (hp : root.parent = none)
    (h : BagReachable (w.readDir host.listing host.answers) (rootJob w.target) data { nodes := [root], tracked := 1 } b) :
    Registering b := by
  induction h with
  | initial =>
    refine ⟨⟨Nat.one_pos, hp, fun i hi hl => absurd hl (by simp; omega)⟩, ?_, fun i job p h => by cases h⟩
    intro job hj
    have hjob : job = rootJob w.target := by simpa [Bag.jobs, Bag.atWork_none] using hj
    rw [hjob]
    exact Nat.one_pos
  | start h hi hj ih => exact ih.start hi hj
  | more h hi ht ih => exact ih.more hi ht
  | done h hi ht ih => exact ih.done hi ht

end Steps

/-! ## The tree -/

section Built

variable {target : Target} {nodes : List TrackedNode} {tallies : Nat → NodeTally} {links : Table Inode LinkOwner}
  {plain : List (Nat × Nat)} {rootDev : Nat} {t : DirTree}

theorem newest_of_buildTree (h : buildTree target nodes tallies links plain rootDev = some t) {i : Nat} (hi : i < nodes.length) :
    (t.node i).newest = rollUp max (parentIn nodes) (nodes.length - 1)
      (fun i => (treeNode (nodeIn nodes i) (tallies i)).newest) i := by
  have hmap : (rollUp pushUp (parentIn nodes) (nodes.length - 1)
        (fun i => ((treeNode (nodeIn nodes i) (tallies i)).sub, (treeNode (nodeIn nodes i) (tallies i)).newest)) i).2 =
      rollUp max (parentIn nodes) (nodes.length - 1) (fun i => (treeNode (nodeIn nodes i) (tallies i)).newest) i :=
    rollUp_map Prod.snd (fun _ _ => rfl) _ _ _
  rw [← hmap]
  unfold buildTree at h
  split at h
  · cases h
  · cases h
    unfold DirTree.node
    rw [List.getD_eq_getElem _ _ (by simpa using hi), List.getElem_map, List.getElem_range]
    rfl

theorem aged_of_buildTree (h : buildTree target nodes tallies links plain rootDev = some t) (hn : Registered nodes) : Aged t := by
  obtain ⟨hb, -, -, -⟩ := built_of_buildTree h
  have hparent : ∀ i, (t.node i).parent = (nodeIn nodes i).parent := fun i => congrFun hb.parentOf i
  have hdown := hn.down_parentIn
  refine ⟨⟨hb.length ▸ hn.pos, (hparent 0).trans hn.root, by rw [hb.parentOf]; exact hdown, fun i hi hl => ?_, fun p c hc => ?_⟩,
    fun j p hp _ _ => ?_⟩
  · obtain ⟨q, -, hq⟩ := hn.below i hi (hb.length ▸ hl)
    rw [hparent, hq]
    exact Option.some_ne_none q
  · by_cases hp : p < nodes.length
    · rw [hb.node p hp] at hc
      exact (hparent c).trans (mem_childrenOf.1 hc).2
    · rw [DirTree.node_of_le (by rw [hb.length]; exact Nat.le_of_not_lt hp)] at hc
      cases hc
  · have hp' : parentIn nodes j = some p := (hparent j).symm.trans hp
    have hj : j < nodes.length := hb.length ▸ DirTree.lt_of_parentOf hp
    rw [newest_of_buildTree h hj, newest_of_buildTree h (Nat.lt_trans (hdown j p hp') hj)]
    exact rollUp_max_le hdown (by omega) _ hp'

end Built

/-- The tree of a scan has a heap of times. -/
theorem aged_of_scan {host : Host} {target : Target} {hash : Bytes → Nat} {result : ScanResult} {t : DirTree}
    (h : Scans host target hash (.ok result)) (ht : result.tree = some t) : Aged t := by
  have hfinish : ∀ (w : Walk) (nodes : List TrackedNode) (workers : List Worker), Registered nodes ∨ nodes = [] →
      (finish w nodes workers).tree = some t → Aged t := by
    rintro w nodes workers hn hf
    obtain ⟨u, hu, hut⟩ := Option.map_eq_some_iff.1 hf
    rcases hn with hn | rfl
    · rw [← hut]
      exact (aged_of_buildTree hu hn).same (.of_nodes rfl)
    · cases hu
  have hroot : ∀ root : TrackedNode, root.parent = none → Registered [root] := fun root hp =>
    ⟨Nat.one_pos, hp, fun i hi hl => absurd hl (by simp; omega)⟩
  generalize hr : Except.ok result = r at h
  cases h with
  | unstated | nul => cases hr
  | excluded | single =>
    cases hr
    exact hfinish _ _ _ (.inr rfl) ht
  | shallow =>
    cases hr
    exact hfinish _ _ _ (.inl (hroot _ rfl)) ht
  | @walked root handle n s hs hx hk hh hm hz hn hw ho =>
    obtain ⟨hv, rfl⟩ := outcome_ok hr.symm
    have hi : WorkPool.Inv s := hw.inv
    exact hfinish _ _ _ (.inl (registering_of_reachable rfl (hw.bag (hi.ok ho hv))).nodes) ht

end Walk

end StorageHarvester
