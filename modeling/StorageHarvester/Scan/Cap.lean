/-
How many directories a walk tracks below those to report: never more than its cap leaves beside the
root, whichever workers offer nodes to which directories, and whether the walk comes to its end or is
given up.
-/
import StorageHarvester.Scan.Counted
import StorageHarvester.Scan.Logged
import StorageHarvester.Scan.Times

namespace StorageHarvester

open WorkPool (Bag)

namespace Walk

/-- The tracked directories that are too deep to be reported. -/
def deep (target : Target) (nodes : List TrackedNode) : Nat := nodes.countP fun n => target.reportDepth < n.depth

/-- Those among the subdirectories offered a node. -/
def Progress.deep (target : Target) : Progress → Nat
  | .opening _ => 0
  | .reading p => if target.reportDepth < p.job.depth + 1 then p.pending.length else 0

def deepAt (target : Target) : Option (Job × Progress) → Nat
  | none => 0
  | some (_, p) => p.deep target

theorem deep_of_fixed {target : Target} {nodes nodes' : List TrackedNode}
    (h : nodes'.map TrackedNode.fixed = nodes.map TrackedNode.fixed) : deep target nodes' = deep target nodes := by
  have hmap : ∀ l : List TrackedNode, deep target l = (l.map TrackedNode.fixed).countP fun n => target.reportDepth < n.depth :=
    fun l => by rw [List.countP_map]; rfl
  rw [hmap, hmap, h]

theorem deep_registered (target : Target) (p : InDir) (nodes : List TrackedNode) :
    deep target (p.registered nodes) = deep target nodes + (Progress.reading p).deep target := by
  rw [deep_of_fixed (fixed_registered p nodes)]
  unfold deep
  rw [List.countP_append, List.countP_map]
  congr 1
  show List.countP (fun _ => decide (target.reportDepth < p.job.depth + 1)) p.pending = ite _ _ _
  split
  · rename_i hd
    exact List.countP_eq_length.2 fun _ _ => by simpa using hd
  · rename_i hd
    exact List.countP_eq_zero.2 fun _ _ => by simpa using hd

/-- Every directory too deep to be reported that is tracked, or offered to be, has a place beside the
root's, and there are no more places than the cap allows. -/
structure Capped (target : Target) {n : Nat} (active : Fin (n + 1) → Option (Job × Progress)) (shared : Shared) : Prop where
  reserved : 1 + (deep target shared.nodes + ∑ i, deepAt target (active i)) ≤ shared.tracked
  within : deep target shared.nodes + ∑ i, deepAt target (active i) ≤ max target.treeMaxDirectories 1 - 1

section Steps

variable {n : Nat} {w : Walk} {active : Fin (n + 1) → Option (Job × Progress)} {shared shared' : Shared} {i : Fin (n + 1)}

theorem deepAt_update (target : Target) (active : Fin (n + 1) → Option (Job × Progress)) (i : Fin (n + 1)) (a : Option (Job × Progress)) :
    ∑ j, deepAt target (Function.update active i a j) + deepAt target (active i) =
      ∑ j, deepAt target (active j) + deepAt target a :=
  Bag.sum_update (deepAt target) active i a

/-- A step that offers no directory a node. -/
theorem Capped.quiet {target : Target} (h : Capped target active shared) {a : Option (Job × Progress)}
    (hn : deep target shared'.nodes + deepAt target a ≤ deep target shared.nodes + deepAt target (active i))
    (ht : shared.tracked ≤ shared'.tracked) : Capped target (Function.update active i a) shared' := by
  have hsum := deepAt_update target active i a
  have hr := h.reserved
  have hw := h.within
  exact ⟨by omega, by omega⟩

theorem Capped.more (h : Capped w.target active shared) {kernel : Kernel} {interrupted : Bool} {job : Job} {p p' : Progress}
    {d d' : Worker} (hi : active i = some (job, p)) (ht : ReadStep w kernel interrupted p d shared (.more p' d' shared')) :
    Capped w.target (Function.update active i (some (job, p'))) shared' := by
  cases ht with
  | @opened job' reading _ _ hr =>
    refine h.quiet ?_ le_rfl
    rw [hi]
    show _ + ite _ _ _ ≤ _
    simp [deepAt, Progress.deep]
  | @entry p₀ e rest _ _ hl hint =>
    have hjob := (readEntry_kept w e { p₀ with left := rest } d shared.tracked).job
    have hoffers := readEntry_offers w e { p₀ with left := rest } d shared.tracked
    generalize hread : w.readEntry e { p₀ with left := rest } d shared.tracked = read at hjob hoffers ⊢
    have hdeep : (Progress.reading read.1).deep w.target =
        if w.target.reportDepth < p₀.job.depth + 1 then read.1.pending.length else 0 := by
      show ite (w.target.reportDepth < read.1.job.depth + 1) _ _ = _
      rw [hjob]
    have hsame : deepAt w.target (active i) = if w.target.reportDepth < p₀.job.depth + 1 then p₀.pending.length else 0 := by
      rw [hi]
      rfl
    rcases hoffers with ⟨hp, hk⟩ | ⟨hp, hk, hkeeps⟩
    · refine h.quiet ?_ hk
      show _ + (Progress.reading read.1).deep w.target ≤ _
      rw [hdeep, hsame, hp]
    · by_cases hd : w.target.reportDepth < p₀.job.depth + 1
      · -- the place this directory gets is below the cap
        have hcap : shared.tracked < w.target.treeMaxDirectories := by
          unfold keeps at hkeeps
          rw [Bool.or_eq_true, decide_eq_true_eq, decide_eq_true_eq] at hkeeps
          exact hkeeps.resolve_left (Nat.not_le.2 hd)
        have hsum := deepAt_update w.target active i (some (job, .reading read.1))
        have hat : deepAt w.target (some (job, .reading read.1)) = p₀.pending.length + 1 := by
          show (Progress.reading read.1).deep w.target = _
          rw [hdeep, if_pos hd, hp]
        rw [if_pos hd] at hsame
        have hr := h.reserved
        refine ⟨?_, ?_⟩
        · show _ ≤ read.2.2
          dsimp only
          omega
        · dsimp only
          omega
      · refine h.quiet ?_ (by show _ ≤ read.2.2; omega)
        show _ + (Progress.reading read.1).deep w.target ≤ _
        rw [hdeep, hsame, if_neg hd, if_neg hd]

theorem Capped.ended (h : Capped w.target active shared) {kernel : Kernel} {interrupted : Bool} {job : Job} {p : Progress}
    {d d' : Worker} (hi : active i = some (job, p))
    (ht : (∃ children, ReadStep w kernel interrupted p d shared (.done children d' shared')) ∨
      (∃ e, ReadStep w kernel interrupted p d shared (.failed e d' shared')) ∨
      ReadStep w kernel interrupted p d shared (.cancelled d' shared')) :
    Capped w.target (Function.update active i none) shared' := by
  have hstep : deep w.target shared'.nodes ≤ deep w.target shared.nodes + p.deep w.target ∧ shared'.tracked = shared.tracked := by
    have hseal : ∀ job' : Job, deep w.target (sealNode job' shared.nodes) = deep w.target shared.nodes :=
      fun job' => deep_of_fixed (fixed_sealNode job' shared.nodes)
    rcases ht with ⟨children, ht⟩ | ⟨e, ht⟩ | ht
    · cases ht with
      | @unopened job' _ _ _ _ _ _ => exact ⟨(hseal job').trans_le (Nat.le_add_right _ _), rfl⟩
      | @closed p₀ _ _ hl hf => exact ⟨(deep_registered w.target p₀ shared.nodes).le, rfl⟩
      | @closedEarly p₀ _ _ _ _ hl hf htol =>
        refine ⟨?_, rfl⟩
        show deep w.target (p₀.registered (sealNode p₀.job shared.nodes)) ≤ _
        rw [deep_registered, hseal]
    · cases ht with
      | @openFailed job' _ _ _ _ _ => exact ⟨(hseal job').trans_le (Nat.le_add_right _ _), rfl⟩
      | @readFailed p₀ _ _ _ _ _ _ => exact ⟨(hseal p₀.job).trans_le (Nat.le_add_right _ _), rfl⟩
    · cases ht with
      | cancelled hl hint => exact ⟨Nat.le_add_right _ _, rfl⟩
  refine h.quiet ?_ hstep.2.ge
  rw [hi]
  exact hstep.1

/-- No step of the walk takes it past the cap. -/
theorem keeps_capped (w : Walk) (host : Host) :
    WorkPool.Keeps (w.readDir host.listing host.answers)
      fun (active : Fin (n + 1) → Option (Job × Progress)) (_ : Fin (n + 1) → Worker) shared => Capped w.target active shared where
  start h hi := h.quiet (by rw [hi]; exact le_rfl) le_rfl
  more h hi ht := h.more hi ht
  ended h hi ht := h.ended hi ht

theorem capped_start (target : Target) {root : TrackedNode} (hd : root.depth = 0) :
    Capped (n := n) target (fun _ => none) { nodes := [root], tracked := 1 } := by
  have hroot : deep target [root] = 0 := by simp [deep, hd]
  refine ⟨?_, ?_⟩
  · simp [hroot, deepAt]
  · simp [hroot, deepAt]

/-- In every state of a walk, but past a panic, the directories too deep to be reported are within the
cap. -/
theorem deep_of_walking {host : Host} {root : Stat} {handle : Option Handle}
    {s : WorkPool.State n Job Progress Worker Shared Failure} (h : Walking host w root handle s) (hp : s.panicked = false) :
    deep w.target s.shared.nodes ≤ max w.target.treeMaxDirectories 1 - 1 :=
  (Nat.le_add_right _ _).trans (WorkPool.Reachable.keeps h (keeps_capped w host) (capped_start w.target rfl) hp).within

end Steps

/-- So are those of the tree a scan comes back with. -/
theorem LogScan.deep_le {host : Host} {target : Target} {hash : Bytes → Nat} {t : DirTree} {log : List Tallied}
    {won : Table Inode (Nat × Link)} (h : LogScan host target hash t log won) :
    (t.nodes.countP fun n => target.reportDepth < n.depth) ≤ max target.treeMaxDirectories 1 - 1 := by
  obtain ⟨w, n, b, data, root, hb⟩ := h.bag
  obtain ⟨tallies, hbuilt, -⟩ := built_of_finish hb.tree
  have hcapped := hb.logging.reachable.keeps (keeps_capped w host) (capped_start w.target hb.depth)
  have hdepths : t.nodes.map DirNode.depth = b.shared.nodes.map TrackedNode.depth := by
    refine List.ext_getElem (by rw [List.length_map, List.length_map, hbuilt.length]) fun i hi hi' => ?_
    rw [List.length_map] at hi hi'
    have hnode := congrArg DirNode.depth (hbuilt.node i hi')
    unfold DirTree.node at hnode
    rw [List.getD_eq_getElem _ _ hi] at hnode
    rw [List.getElem_map, List.getElem_map, hnode]
    show (nodeIn b.shared.nodes i).depth = _
    unfold nodeIn
    rw [List.getD_eq_getElem _ _ hi']
  have hdeep : (t.nodes.countP fun n => target.reportDepth < n.depth) = deep w.target b.shared.nodes := by
    have hcount := congrArg (List.countP fun d => target.reportDepth < d) hdepths
    rw [List.countP_map, List.countP_map] at hcount
    unfold deep
    rw [hb.target_eq]
    exact hcount
  rw [hdeep, ← hb.target_eq]
  exact (Nat.le_add_right _ _).trans hcapped.within

end Walk

end StorageHarvester
