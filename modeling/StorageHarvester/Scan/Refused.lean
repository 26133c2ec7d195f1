/-
The subdirectories a walk refuses a node for its cap. Each is noted in the tracked directory it was found
in, and so is everything found in it, however deep: what an untracked directory holds is counted below
the tracked one nearest above it. That directory is sealed.
-/
import StorageHarvester.Scan.Logged
import StorageHarvester.Scan.Reach
import StorageHarvester.Tree.Diff

namespace StorageHarvester

open Forest
open WorkPool (Bag BagReachable)

namespace Walk

/-- The path of an entry. -/
def Tallied.path (r : Tallied) : Bytes := childPath r.job.path r.name

/-- A path at or below an entry's own. -/
def Tallied.Holds (r : Tallied) (path : Bytes) : Prop :=
  ∃ names : List Bytes, (∀ name ∈ names, ProperName name) ∧ path = DirTree.join r.path names

/-- A job reads a refused directory, or one below, and counts for the node of the directory that one was
found in. -/
def Origin (log : List Tallied) (job : Job) : Prop := ∃ r ∈ log, r.refused = true ∧ r.job.node = job.node ∧ r.Holds job.path

theorem Origin.mono {log : List Tallied} {job : Job} (h : Origin log job) (new : List Tallied) : Origin (log ++ new) job := by
  obtain ⟨r, hr, hrest⟩ := h
  exact ⟨r, List.mem_append_left _ hr, hrest⟩

/-- What a directory without a node is found in counts for the same node. -/
theorem Origin.child {log : List Tallied} {job child : Job} (h : Origin log job) {name : Bytes} (hn : ProperName name)
    (hnode : child.node = job.node) (hpath : child.path = childPath job.path name) : Origin log child := by
  obtain ⟨r, hr, href, hat, names, hproper, hjob⟩ := h
  refine ⟨r, hr, href, hat.trans hnode.symm, names ++ [name], fun x hx => ?_, ?_⟩
  · rcases List.mem_append.1 hx with hx | hx
    · exact hproper x hx
    · exact List.mem_singleton.1 hx ▸ hn
  · rw [hpath, hjob, join_snoc]
    rfl

/-- The names of the directories registered below a node, as they were registered. -/
def childNames (nodes : List TrackedNode) (node : Nat) : List Bytes := (nodes.filter fun n => n.parent = some node).map TrackedNode.name

theorem childNames_of_fixed {nodes nodes' : List TrackedNode} (h : nodes'.map TrackedNode.fixed = nodes.map TrackedNode.fixed)
    (node : Nat) : childNames nodes' node = childNames nodes node := by
  have hmap : ∀ l : List TrackedNode, childNames l node =
      ((l.map TrackedNode.fixed).filter fun n => n.parent = some node).map TrackedNode.name := fun l => by
    rw [List.filter_map, List.map_map]
    rfl
  rw [hmap, hmap, h]

theorem childNames_append (nodes : List TrackedNode) (job : Job) (pending : List PendingDir) (node : Nat) :
    childNames (nodes ++ pending.map (register job)) node =
      childNames nodes node ++ if node = job.node then pending.map PendingDir.name else [] := by
  unfold childNames
  rw [List.filter_append, List.map_append, List.filter_map, List.map_map]
  congr 1
  split
  · rename_i hn
    rw [List.filter_eq_self.2 fun d _ => by simp [register, hn]]
    rfl
  · rename_i hn
    rw [List.filter_eq_nil_iff.2 fun d _ => by simpa [register] using Ne.symm hn]
    rfl

theorem childNames_nil {nodes : List TrackedNode} {node : Nat} (h : ∀ n ∈ nodes, n.parent ≠ some node) : childNames nodes node = [] := by
  unfold childNames
  rw [List.filter_eq_nil_iff.2 fun n hn => by simpa using h n hn]
  rfl

/-! ## The invariant -/

/-- What the log says at any moment of a walk. -/
structure Ledger {n : Nat} (w : Walk) (b : Bag n Job Progress Worker Shared) (log : List Tallied) : Prop where
  refused : ∀ r ∈ log, r.refused = true → r.stat.kind = .directory ∧ r.job.tracked = true
  named : ∀ r ∈ log, ProperName r.name
  placed : ∀ r ∈ log, r.job.node < b.shared.nodes.length
  spelled : ∀ r ∈ log, r.job.tracked = true → r.job.path = DirTree.join w.target.scanPath ((w.sketch b.shared.nodes).components r.job.node)
  /-- Nothing is noted in a directory not opened yet. -/
  waiting : ∀ job ∈ b.pending, job.tracked = true → noted log job.node true = []
  opening : ∀ i job job', b.active i = some (job, .opening job') → job.tracked = true → noted log job.node true = []
  /-- In a directory being read, what is noted is of other names than what is left, and the kept
  subdirectories are those offered a node. -/
  reading : ∀ i job p, b.active i = some (job, .reading p) → job.tracked = true →
    ((noted log job.node true).map Tallied.name ++ p.left.map Entry.name).Nodup ∧
      ((noted log job.node true).filter Tallied.kept).map Tallied.name = p.pending.map PendingDir.name
  /-- In a directory that is read, they are those registered below it. -/
  read : ∀ node, (∀ job ∈ b.jobs, job.tracked = true → job.node ≠ node) → ((noted log node true).map Tallied.name).Nodup ∧
    ((noted log node true).filter Tallied.kept).map Tallied.name = childNames b.shared.nodes node
  origins : ∀ job ∈ b.jobs, job.tracked = false → Origin log job
  children : ∀ i job p, b.active i = some (job, .reading p) → ∀ c ∈ p.children, Origin log c
  untracked : ∀ r ∈ log, r.job.tracked = false → Origin log r.job

/-- No two workers are at one tracked directory, nor is it to be begun again. -/
theorem Tracked.apart {n : Nat} {b : Bag n Job Progress Worker Shared} (h : Tracked b) {i : Fin (n + 1)} {job : Job} {p : Progress}
    (hi : b.active i = some (job, p)) (ht : job.tracked = true) :
    (∀ job' ∈ b.pending, job'.tracked = true → job'.node ≠ job.node) ∧
      ∀ i' ≠ i, ∀ job' p', b.active i' = some (job', p') → job'.tracked = true → job'.node ≠ job.node := by
  obtain ⟨rest, hrest, hjobs⟩ := Bag.jobs_done hi 0 b.data b.shared
  rw [add_zero, add_zero] at hjobs
  have hdistinct := h.distinct
  rw [hrest, Multiset.filter_add, Multiset.map_add, Multiset.filter_singleton, if_pos ht, Multiset.map_singleton,
    Multiset.singleton_add, Multiset.nodup_cons] at hdistinct
  have hother : ∀ job' ∈ rest, job'.tracked = true → job'.node ≠ job.node := fun job' hj' ht' he =>
    hdistinct.1 (he ▸ Multiset.mem_map_of_mem Job.node (Multiset.mem_filter.2 ⟨hj', ht'⟩))
  refine ⟨fun job' hj' => hother job' ?_, fun i' hne job' p' hi' => hother job' ?_⟩
  · rw [← hjobs]
    exact Multiset.mem_add.2 (.inl hj')
  · rw [← hjobs]
    exact Bag.mem_jobs (p := p') ((Function.update_of_ne hne ..).trans hi')

section Steps

variable {n : Nat} {w : Walk} {kernel : Kernel} {b : Bag n Job Progress Worker Shared} {log : List Tallied} {i : Fin (n + 1)}

theorem Ledger.start (h : Ledger w b log) {job : Job} {rest : Multiset Job} (hi : b.active i = none) (hj : b.pending = {job} + rest) :
    Ledger w { b with pending := rest, active := Function.update b.active i (some (job, .opening job)) } log := by
  have hjobs := Bag.jobs_start hi hj (Progress.opening job)
  have hmem : job ∈ b.pending := by
    rw [hj]
    exact Multiset.mem_add.2 (.inl (Multiset.mem_singleton_self job))
  refine ⟨h.refused, h.named, h.placed, h.spelled, fun job' hj' => h.waiting job' ?_, fun i' job' job'' hp => ?_, fun i' job' p hp => ?_,
    by rw [hjobs]; exact h.read, by rw [hjobs]; exact h.origins, fun i' job' p hp => ?_, h.untracked⟩
  · rw [hj]
    exact Multiset.mem_add.2 (.inr hj')
  · change Function.update b.active i _ i' = _ at hp
    rw [Function.update_apply] at hp
    split at hp
    · cases hp
      exact h.waiting job hmem
    · exact h.opening i' job' job'' hp
  · change Function.update b.active i _ i' = _ at hp
    rw [Function.update_apply] at hp
    split at hp
    · cases hp
    · exact h.reading i' job' p hp
  · change Function.update b.active i _ i' = _ at hp
    rw [Function.update_apply] at hp
    split at hp
    · cases hp
    · exact h.children i' job' p hp

/-- What is noted in one directory is not noted in others. -/
theorem noted_of_ne {new : List Tallied} {job : Job} (h : ∀ r ∈ new, r.job = job) {node : Nat} (hn : job.tracked = true → node ≠ job.node) :
    noted (log ++ new) node true = noted log node true := by
  have hnew : noted new node true = [] := by
    refine List.filter_eq_nil_iff.2 fun r hr => ?_
    rw [h r hr]
    simpa using fun he ht => hn ht he.symm
  rw [noted_append, hnew, List.append_nil]

theorem noted_self {new : List Tallied} {job : Job} (h : ∀ r ∈ new, r.job = job) (ht : job.tracked = true) :
    noted (log ++ new) job.node true = noted log job.node true ++ new := by
  have hnew : noted new job.node true = new := List.filter_eq_self.2 fun r hr => by rw [h r hr]; simpa using ht
  rw [noted_append, hnew]

theorem Ledger.more (h : Ledger w b log) (hk : kernel.Proper) (htr : Tracked b) (hv : Visiting w kernel b) {job : Job}
    {p p' : Progress} {d' : Worker} {s' : Shared} {interrupted : Bool} (hi : b.active i = some (job, p))
    (ht : ReadStep w kernel interrupted p (b.data i) b.shared (.more p' d' s')) :
    Ledger w { b with active := Function.update b.active i (some (job, p')), data := Function.update b.data i d', shared := s' }
      (log ++ p.tallies w b.shared.tracked) := by
  obtain ⟨hjob, hsound⟩ := htr.sound i job p hi
  have hmem : job ∈ b.jobs := Bag.mem_jobs hi
  have hjobs := Bag.jobs_more hi p' (Function.update b.data i d') s'
  generalize hnew : p.tallies w b.shared.tracked = new
  -- what the step notes, it notes in its own directory
  have hstep : s'.nodes = b.shared.nodes ∧ (∀ r ∈ new, r.job = job ∧ ProperName r.name ∧
      (r.refused = true → r.stat.kind = .directory ∧ job.tracked = true)) ∧
      ∃ q, p' = .reading q ∧ (∀ c ∈ q.children, Origin (log ++ new) c) ∧ (job.tracked = true →
        ((noted log job.node true ++ new).map Tallied.name ++ q.left.map Entry.name).Nodup ∧
          ((noted log job.node true ++ new).filter Tallied.kept).map Tallied.name = q.pending.map PendingDir.name) := by
    cases ht with
    | @opened job' reading _ _ hr =>
      obtain rfl : new = [] := hnew.symm
      have hproper := hk _ _ hr
      refine ⟨rfl, fun r hr => absurd hr List.not_mem_nil, _, rfl, fun c hc => absurd hc List.not_mem_nil, fun ht => ?_⟩
      rw [List.append_nil, h.opening i job _ hi ht]
      exact ⟨hproper.nodup, rfl⟩
    | @entry p₀ e rest _ _ hl hint =>
      obtain rfl : p₀.job = job := hjob
      have hsound : p₀.Sound := hsound
      have hkept := readEntry_kept w e { p₀ with left := rest } (b.data i) b.shared.tracked
      have htallied := readEntry_tallied w e { p₀ with left := rest } (b.data i) b.shared.tracked
      rw [tallies_reading w hl] at hnew
      rw [show w.tallies ({ p₀ with left := rest } : InDir).job e b.shared.tracked = new from hnew] at htallied
      have hname : ∀ r ∈ new, ProperName r.name := fun r hr => by
        obtain ⟨-, hname, hdot⟩ := htallied.at_ r hr
        rw [hname]
        exact (hsound.left e (by rw [hl]; exact List.mem_cons_self ..)).resolve_left (by rw [hdot]; exact Bool.false_ne_true)
      refine ⟨rfl, fun r hr => ⟨(htallied.at_ r hr).1, hname r hr, htallied.refused r hr⟩, _, rfl, fun c hc => ?_, fun ht => ?_⟩
      · rcases htallied.children c hc with hc | ⟨r, hr, href, rfl⟩
        · exact (h.children i _ p₀ hi c hc).mono new
        · -- refused in a tracked directory, or found in one without a node
          cases htp : p₀.job.tracked with
          | true =>
            have hnode : r.job.node = p₀.job.node := congrArg Job.node (htallied.at_ r hr).1
            refine ⟨r, List.mem_append_right _ hr, href htp, hnode, [], fun _ hx => absurd hx List.not_mem_nil, ?_⟩
            unfold Tallied.path
            rw [(htallied.at_ r hr).1]
            rfl
          | false => exact ((h.origins _ hmem htp).mono new).child (hname r hr) rfl rfl
      · obtain ⟨hnodup, hpending⟩ := h.reading i _ p₀ hi ht
        rw [hl, List.map_cons] at hnodup
        rw [hkept.left, List.map_append, List.filter_append, List.map_append, hpending]
        refine ⟨?_, htallied.pending.symm⟩
        have hnames : new.map Tallied.name = [] ∨ new.map Tallied.name = [e.name] := by
          have hone := htallied.one
          cases new with
          | nil => exact .inl rfl
          | cons r new =>
            obtain rfl : new = [] := List.length_eq_zero_iff.1 (by simpa using hone)
            exact .inr (by rw [List.map_cons, List.map_nil, (htallied.at_ r (List.mem_cons_self ..)).2.1])
        rcases hnames with hnames | hnames
        · rw [hnames, List.append_nil]
          exact hnodup.sublist (List.Sublist.append_left (List.sublist_cons_self ..) _)
        · rw [hnames, List.append_assoc]
          exact hnodup
  obtain ⟨hnodes, hat, q, rfl, hchildren, hreading⟩ := hstep
  have hat' : ∀ r ∈ new, r.job = job := fun r hr => (hat r hr).1
  have happ : ∀ {P : Tallied → Prop}, (∀ r ∈ log, P r) → (∀ r ∈ new, P r) → ∀ r ∈ log ++ new, P r := fun hl hn r hr =>
    (List.mem_append.1 hr).elim (hl r) (hn r)
  refine ⟨happ h.refused fun r hr href => ?_, happ h.named fun r hr => (hat r hr).2.1, ?_, ?_, fun job' hj' ht' => ?_,
    fun i' job' job'' hp ht' => ?_, fun i' job' p' hp ht' => ?_, fun node hnode => ?_, ?_, fun i' job' p' hp => ?_,
    happ (fun r hr hu => (h.untracked r hr hu).mono new) fun r hr hu => ?_⟩
  · obtain ⟨hdir, ht'⟩ := (hat r hr).2.2 href
    exact ⟨hdir, (congrArg Job.tracked (hat' r hr)).trans ht'⟩
  · rw [hnodes]
    exact happ h.placed fun r hr => by rw [hat' r hr]; exact htr.placed job hmem
  · rw [hnodes]
    exact happ h.spelled fun r hr ht' => by rw [hat' r hr] at ht' ⊢; exact (hv.spelled job hmem ht').scan
  · rw [noted_of_ne hat' fun ht => (htr.apart hi ht).1 job' hj' ht']
    exact h.waiting job' hj' ht'
  · change Function.update b.active i _ i' = _ at hp
    rw [Function.update_apply] at hp
    split at hp
    · cases hp
    · rename_i hne
      rw [noted_of_ne hat' fun ht => (htr.apart hi ht).2 i' hne job' _ hp ht']
      exact h.opening i' job' job'' hp ht'
  · change Function.update b.active i _ i' = _ at hp
    rw [Function.update_apply] at hp
    split at hp
    · cases hp
      rw [noted_self hat' ht']
      exact hreading ht'
    · rename_i hne
      rw [noted_of_ne hat' fun ht => (htr.apart hi ht).2 i' hne job' _ hp ht']
      exact h.reading i' job' p' hp ht'
  · rw [hjobs] at hnode
    rw [noted_of_ne hat' fun ht => (hnode job hmem ht).symm, hnodes]
    exact h.read node hnode
  · rw [hjobs]
    exact fun job' hj' hu => (h.origins job' hj' hu).mono new
  · change Function.update b.active i _ i' = _ at hp
    rw [Function.update_apply] at hp
    split at hp
    · cases hp
      exact hchildren
    · exact fun c hc => (h.children i' job' p' hp c hc).mono new
  · rw [hat' r hr] at hu ⊢
    exact (h.origins job hmem hu).mono new

theorem Ledger.done (h : Ledger w b log) (htr : Tracked b) (hv : Visiting w kernel b) {job : Job} {p : Progress}
    {children : List Job} {d' : Worker} {s' : Shared} {interrupted : Bool} (hi : b.active i = some (job, p))
    (ht : ReadStep w kernel interrupted p (b.data i) b.shared (.done children d' s')) :
    Ledger w ⟨b.pending + children, Function.update b.active i none, Function.update b.data i d', s'⟩ log := by
  obtain ⟨hjob, hsound⟩ := htr.sound i job p hi
  have hmem : job ∈ b.jobs := Bag.mem_jobs hi
  have hplace := htr.placed job hmem
  obtain ⟨rest, hrest, hjobs⟩ := Bag.jobs_done hi (children : Multiset Job) (Function.update b.data i d') s'
  have hrestm : ∀ job' ∈ rest, job' ∈ b.jobs := fun job' hj' => by
    rw [hrest]
    exact Multiset.mem_add.2 (.inr hj')
  -- the directory's subdirectories are registered, and those without a node are to be read
  have hstep : ∃ pending : List PendingDir,
      s'.nodes.map TrackedNode.fixed = (b.shared.nodes ++ pending.map (register job)).map TrackedNode.fixed ∧
      (job.tracked = false → pending = []) ∧
      (∀ c ∈ children, Origin log c ∧ c.tracked = false ∨ c ∈ trackedJobs job b.shared.nodes.length pending) ∧
      (job.tracked = true → ((noted log job.node true).map Tallied.name).Nodup ∧
        ((noted log job.node true).filter Tallied.kept).map Tallied.name = pending.map PendingDir.name) := by
    have hclosed : ∀ (p₀ : InDir) (nodes : List TrackedNode), p₀.job = job → p₀.Sound → b.active i = some (job, .reading p₀) →
        p₀.left = [] → nodes.map TrackedNode.fixed = b.shared.nodes.map TrackedNode.fixed →
        (p₀.registered nodes).map TrackedNode.fixed = (b.shared.nodes ++ p₀.pending.map (register job)).map TrackedNode.fixed ∧
        (job.tracked = false → p₀.pending = []) ∧
        (∀ c ∈ p₀.jobs b.shared.nodes, Origin log c ∧ c.tracked = false ∨ c ∈ trackedJobs job b.shared.nodes.length p₀.pending) ∧
        (job.tracked = true → ((noted log job.node true).map Tallied.name).Nodup ∧
          ((noted log job.node true).filter Tallied.kept).map Tallied.name = p₀.pending.map PendingDir.name) := by
      rintro p₀ nodes rfl hs hi hl hn
      refine ⟨?_, hs.tracked, fun c hc => ?_, fun ht => ?_⟩
      · rw [fixed_registered, List.map_append, hn, List.map_append]
      · rcases List.mem_append.1 hc with hc | hc
        · exact .inl ⟨h.children i _ p₀ hi c hc, (hs.children c hc).1⟩
        · exact .inr hc
      · have hreading := h.reading i _ p₀ hi ht
        rw [hl, List.map_nil, List.append_nil] at hreading
        exact hreading
    cases ht with
    | @unopened job' _ _ _ _ _ _ =>
      refine ⟨[], ?_, fun _ => rfl, fun c hc => absurd hc List.not_mem_nil, fun ht => ?_⟩
      · rw [List.map_nil, List.append_nil]
        exact fixed_sealNode job' b.shared.nodes
      · rw [h.opening i job _ hi ht]
        exact ⟨List.nodup_nil, rfl⟩
    | @closed p₀ _ _ hl hf => exact ⟨p₀.pending, hclosed p₀ _ hjob hsound hi hl rfl⟩
    | @closedEarly p₀ _ _ _ _ hl hf htol => exact ⟨p₀.pending, hclosed p₀ _ hjob hsound hi hl (fixed_sealNode _ _)⟩
  obtain ⟨pending, hnodes, hnone, hchildren, hread⟩ := hstep
  have hlen : s'.nodes.length = b.shared.nodes.length + pending.length := by
    rw [length_of_fixed hnodes, List.length_append, List.length_map]
  have hkids : ∀ node, childNames s'.nodes node = childNames b.shared.nodes node ++
      if node = job.node then pending.map PendingDir.name else [] := fun node => by
    rw [childNames_of_fixed hnodes, childNames_append]
  refine ⟨h.refused, h.named, fun r hr => ?_, fun r hr ht' => ?_, fun job' hj' ht' => ?_, fun i' job' job'' hp ht' => ?_,
    fun i' job' p' hp ht' => ?_, fun node hnode => ?_, ?_, fun i' job' p' hp => ?_, h.untracked⟩
  · show _ < s'.nodes.length
    have := h.placed r hr
    omega
  · rw [h.spelled r hr ht']
    exact congrArg (DirTree.join w.target.scanPath)
      (components_extended hv.registering.nodes hnodes (fun j _ => sketch_node w s'.nodes j) (h.placed r hr)).symm
  · rcases Multiset.mem_add.1 hj' with hj' | hj'
    · exact h.waiting job' hj' ht'
    · -- a new node, of which nothing is noted
      rcases hchildren job' (Multiset.mem_coe.1 hj') with ⟨-, hu⟩ | hc
      · rw [hu] at ht'; cases ht'
      · have hge := (mem_trackedJobs hc).2.2.1
        refine List.filter_eq_nil_iff.2 fun r hr => ?_
        have := h.placed r hr
        simp only [Bool.and_eq_true, decide_eq_true_eq, Bool.decide_and, not_and]
        omega
  · change Function.update b.active i _ i' = _ at hp
    rw [Function.update_apply] at hp
    split at hp
    · cases hp
    · exact h.opening i' job' job'' hp ht'
  · change Function.update b.active i _ i' = _ at hp
    rw [Function.update_apply] at hp
    split at hp
    · cases hp
    · exact h.reading i' job' p' hp ht'
  · rw [hkids]
    rw [hjobs] at hnode
    by_cases hn : node = job.node ∧ job.tracked = true
    · obtain ⟨rfl, htj⟩ := hn
      rw [if_pos rfl, childNames_nil (htr.unread job hmem htj).2, List.nil_append]
      exact hread htj
    · have hsame : (if node = job.node then pending.map PendingDir.name else []) = [] := by
        split
        · rename_i he
          rw [hnone (by simpa [he] using hn)]
          rfl
        · rfl
      rw [hsame, List.append_nil]
      refine h.read node fun job' hj' ht' => ?_
      rw [hrest] at hj'
      rcases Multiset.mem_add.1 hj' with hj' | hj'
      · rw [Multiset.mem_singleton.1 hj'] at ht' ⊢
        exact fun he => hn ⟨he.symm, ht'⟩
      · exact hnode job' (Multiset.mem_add.2 (.inl hj')) ht'
  · rw [hjobs]
    intro job' hj' hu
    rcases Multiset.mem_add.1 hj' with hj' | hj'
    · exact h.origins job' (hrestm job' hj') hu
    · rcases hchildren job' (Multiset.mem_coe.1 hj') with ⟨ho, -⟩ | hc
      · exact ho
      · rw [(mem_trackedJobs hc).1] at hu; cases hu
  · change Function.update b.active i _ i' = _ at hp
    rw [Function.update_apply] at hp
    split at hp
    · cases hp
    · exact h.children i' job' p' hp

/-- The invariant holds in every state of a walk. -/
theorem Logging.ledger {host : Host} (hk : host.listing.Proper) {data : Fin (n + 1) → Worker} {root : TrackedNode}
    (hd : ∀ i, (data i).links = .empty) (hd' : ∀ i k, (data i).tallies k = {}) (hp : root.parent = none) (hdepth : root.depth = 0)
    (h : Logging w host data root b log) : Ledger w b log := by
  induction h with
  | initial =>
    refine ⟨fun r hr => absurd hr List.not_mem_nil, fun r hr => absurd hr List.not_mem_nil, fun r hr => absurd hr List.not_mem_nil,
      fun r hr => absurd hr List.not_mem_nil, fun _ _ _ => rfl, fun _ _ _ _ _ => rfl, fun _ _ _ h => (by cases h),
      fun node _ => ⟨List.nodup_nil, ?_⟩, fun job hj hu => ?_, fun _ _ _ h => (by cases h), fun r hr => absurd hr List.not_mem_nil⟩
    · exact (childNames_nil fun n hn => by rw [List.mem_singleton.1 hn, hp]; exact fun h => by cases h).symm
    · have hjob : job = rootJob w.target := by simpa [Bag.jobs, Bag.atWork_none] using hj
      rw [hjob] at hu
      cases hu
  | start h hi hj ih => exact ih.start hi hj
  | more h hi ht ih =>
    exact ih.more hk (tracked_of_reachable hk hd hp hdepth h.reachable) (visiting_of_reachable hd' hp h.reachable) hi ht
  | done h hi ht ih =>
    exact ih.done (tracked_of_reachable hk hd hp hdepth h.reachable) (visiting_of_reachable hd' hp h.reachable) hi ht

end Steps

/-! ## Lineage -/

section Lineage

variable {t : DirTree}

/-- The next name on a directory's path is a child's. -/
theorem exists_child (h : Shape t) {i k : Nat} {name : Bytes} (hi : (t.node i).alive = true) (hk : (t.node k).alive = true)
    (hp : t.components i ++ [name] <+: t.components k) : ∃ a, (t.node a).alive = true ∧ (t.node a).parent = some i ∧ (t.node a).name = name := by
  obtain ⟨a, ha, hc, -⟩ := exists_above h hk hp
  have hpos : 0 < a := by
    by_contra h0
    obtain rfl : a = 0 := by omega
    rw [Shape.components_zero] at hc
    simp at hc
  obtain ⟨q, hq⟩ := h.hasParent a hpos (DirTree.lt_of_alive ha)
  have hqa := (h.listed a q ha hq).1
  rw [h.components_of_parent hq] at hc
  obtain ⟨hq', hname⟩ := List.append_inj' hc rfl
  obtain rfl := components_inj h hqa hi hq'
  exact ⟨a, ha, hq, by simpa using hname⟩

/-- A path that leaves the tracked directories leaves them at one place only. -/
theorem leaves_once (h : Shape t) {i j : Nat} (hi : (t.node i).alive = true) (hj : (t.node j).alive = true) {name : Bytes}
    {names extra : List Bytes} (hn : ∀ a, (t.node a).parent = some i → (t.node a).alive = true → (t.node a).name ≠ name)
    (he : ∀ a, (t.node a).parent = some j → (t.node a).alive = true → ∀ other ∈ extra.head?, (t.node a).name ≠ other)
    (hp : t.components j ++ extra = t.components i ++ name :: names) : j = i := by
  have h1 : t.components j <+: t.components i ++ name :: names := ⟨extra, hp⟩
  have h2 : t.components i <+: t.components i ++ name :: names := List.prefix_append ..
  rcases Nat.lt_trichotomy (t.components j).length (t.components i).length with hlt | heq | hlt
  · -- the other directory's path goes on with a name it has no child of
    obtain ⟨rest, hrest⟩ := List.prefix_of_prefix_length_le h1 h2 hlt.le
    rw [← hrest, List.append_assoc] at hp
    have hextra := List.append_cancel_left hp
    cases rest with
    | nil =>
      rw [← hrest] at hlt
      simp at hlt
    | cons other rest =>
      have hpre : t.components j ++ [other] <+: t.components i := ⟨rest, by rw [← hrest]; simp⟩
      obtain ⟨a, ha, hpar, hname⟩ := exists_child h hj hi hpre
      exact absurd hname (he a hpar ha other (by rw [hextra]; rfl))
  · obtain ⟨rest, hrest⟩ := List.prefix_of_prefix_length_le h1 h2 heq.le
    have hnil : rest = [] := by
      rw [← hrest] at heq
      simpa using heq
    rw [hnil, List.append_nil] at hrest
    exact components_inj h hj hi hrest
  · obtain ⟨rest, hrest⟩ := List.prefix_of_prefix_length_le h2 h1 hlt.le
    rw [← hrest, List.append_assoc] at hp
    have hextra := List.append_cancel_left hp
    cases rest with
    | nil =>
      rw [← hrest] at hlt
      simp at hlt
    | cons other rest =>
      obtain rfl : other = name := by
        rw [List.cons_append] at hextra
        exact (List.cons.inj hextra).1
      have hpre : t.components i ++ [other] <+: t.components j := ⟨rest, by rw [← hrest]; simp⟩
      obtain ⟨a, ha, hpar, hname⟩ := exists_child h hi hj hpre
      exact absurd hname (hn a hpar ha)

end Lineage

/-! ## Counting subdirectories -/

theorem length_childrenOf (nodes : List TrackedNode) (i : Nat) :
    (childrenOf nodes i).length = (nodes.filter fun n => n.parent = some i).length := by
  have hnodes : nodes = (List.range nodes.length).map (nodeIn nodes) := by
    refine List.ext_getElem (by simp) fun k hk hk' => ?_
    rw [List.getElem_map, List.getElem_range, nodeIn, List.getD_eq_getElem _ _ hk]
  unfold childrenOf
  rw [List.length_insertionSort, List.length_reverse]
  conv_rhs => rw [hnodes, List.filter_map, List.length_map]
  rfl

theorem kept_le (log : List Tallied) : (log.filter Tallied.kept).length ≤ amounts log .dirs := by
  induction log with
  | nil => exact le_rfl
  | cons x log ih =>
    have hcons : amounts (x :: log) .dirs = x.amount .dirs + amounts log .dirs := rfl
    rw [hcons]
    by_cases hx : x.kept = true
    · have hone : x.amount .dirs = 1 := by
        unfold Tallied.kept at hx
        simp only [Bool.and_eq_true, decide_eq_true_eq] at hx
        exact if_pos hx.1.2
      rw [List.filter_cons_of_pos hx, List.length_cons]
      omega
    · rw [List.filter_cons_of_neg hx]
      omega

/-- Beside a refused subdirectory the kept ones are not all. -/
theorem kept_lt {r : Tallied} {log : List Tallied} (hr : r ∈ log) (href : r.refused = true) (hdir : r.stat.kind = .directory) :
    (log.filter Tallied.kept).length < amounts log .dirs := by
  obtain ⟨before, after, rfl⟩ := List.append_of_mem hr
  have hone : amounts (r :: after) .dirs = 1 + amounts after .dirs := by
    show r.amount .dirs + amounts after .dirs = _
    rw [show r.amount .dirs = 1 from if_pos hdir]
  rw [amounts_append, hone, List.filter_append, List.length_append, List.filter_cons_of_neg (by simp [Tallied.kept, href])]
  have h1 := kept_le before
  have h2 := kept_le after
  omega

/-! ## Scans -/

/-- A subdirectory refused a node is counted, with everything below it, in the tracked directory it was
found in, which is sealed. -/
structure CountedAbove (t : DirTree) (log : List Tallied) (r : Tallied) : Prop where
  tracked : r.job.node < t.nodes.length
  /-- The tracked directory nearest above it. -/
  nearest : r.job.path = t.scanPath r.job.node
  isSealed : (t.node r.job.node).isSealed = true
  /-- What is below it counts there. -/
  below : ∀ x ∈ log, r.Holds x.job.path → x.job.node = r.job.node ∧ x.job.tracked = false

/-- What the files won at and below a directory hold. -/
def wonBelow (t : DirTree) (won : Table Inode (Nat × Link)) (i : Nat) (c : Component) [∀ j, Decidable (Above t.parentOf i j)] : Nat :=
  ((won.entries.filter fun e => Above t.parentOf i e.2.2.node).map fun e => sizeAt e.2.2.blocks e.2.2.apparent c).sum

section Scans

variable {host : Host} {target : Target} {hash : Bytes → Nat} {t : DirTree} {log : List Tallied} {won : Table Inode (Nat × Link)}
  {w : Walk} {n : Nat} {b : Bag n Job Progress Worker Shared} {data : Fin (n + 1) → Worker} {root : TrackedNode}

theorem ScanBag.ledger (h : ScanBag logger host target t log won w b data root) (hk : host.listing.Proper) : Ledger w b log :=
  h.logging.ledger hk h.links h.tallies h.parent h.depth

theorem ScanBag.length (h : ScanBag logger host target t log won w b data root) : t.nodes.length = b.shared.nodes.length := by
  obtain ⟨tallies, hb, -⟩ := built_of_finish h.tree
  exact hb.length

/-- When nothing is left to be read, the subdirectories of a directory are those kept. -/
theorem ScanBag.read (h : ScanBag logger host target t log won w b data root) (hk : host.listing.Proper) {r : Tallied} (hr : r ∈ log)
    (node : Nat) : ((noted log node true).map Tallied.name).Nodup ∧
      ((noted log node true).filter Tallied.kept).map Tallied.name = childNames b.shared.nodes node := by
  have hpending : b.pending = 0 := h.done.resolve_right (List.ne_nil_of_mem hr)
  refine (h.ledger hk).read node fun job hj => ?_
  obtain hidle : ∀ i, b.active i = none := h.idle
  unfold Bag.jobs at hj
  rw [hpending, zero_add, Finset.sum_eq_zero fun i _ => by rw [hidle i]; rfl] at hj
  exact absurd hj (Multiset.notMem_zero job)

theorem ScanBag.components (h : ScanBag logger host target t log won w b data root) {i : Nat} (hi : i < b.shared.nodes.length) :
    t.scanRoot = w.target.scanPath ∧ t.components i = (w.sketch b.shared.nodes).components i := by
  have hreg := (visiting_of_reachable h.tallies h.parent h.logging.reachable).registering.nodes
  have hsame : b.shared.nodes.map TrackedNode.fixed = (b.shared.nodes ++ []).map TrackedNode.fixed := by rw [List.append_nil]
  obtain ⟨-, hscan, -, hcomponents⟩ := components_of_finish hreg hsame h.tree hi
  exact ⟨hscan, hcomponents⟩

theorem ScanBag.fresh (h : ScanBag logger host target t log won w b data root) (hk : host.listing.Proper) : Fresh t := by
  have htr := h.tracked hk
  refine fresh_of_finish htr.arena (fun d hd => ?_) (fun j c => ?_) h.tree
  · obtain ⟨i, rfl⟩ := List.mem_ofFn.1 hd
    exact htr.links i
  · rw [List.map_ofFn, List.sum_ofFn]
    exact htr.covered j c

/-- No child has a refused subdirectory's name. -/
theorem ScanBag.not_child (h : ScanBag logger host target t log won w b data root) (hk : host.listing.Proper) {r : Tallied} (hr : r ∈ log)
    (href : r.refused = true) {a : Nat} (ha : (t.node a).alive = true) (hp : (t.node a).parent = some r.job.node) :
    (t.node a).name ≠ r.name := by
  intro hname
  obtain ⟨hnodup, hkept⟩ := h.read hk hr r.job.node
  obtain ⟨tallies, hb, -⟩ := built_of_finish h.tree
  have hlt : a < b.shared.nodes.length := hb.length ▸ DirTree.lt_of_alive ha
  have hmem : r.name ∈ childNames b.shared.nodes r.job.node := by
    rw [hb.node a hlt] at hp hname
    have hp : (nodeIn b.shared.nodes a).parent = some r.job.node := hp
    refine List.mem_map.2 ⟨nodeIn b.shared.nodes a, List.mem_filter.2 ⟨?_, by simpa using hp⟩, hname⟩
    unfold nodeIn
    rw [List.getD_eq_getElem _ _ hlt]
    exact List.getElem_mem hlt
  rw [← hkept] at hmem
  obtain ⟨r', hr', he⟩ := List.mem_map.1 hmem
  obtain ⟨hr', hk'⟩ := List.mem_filter.1 hr'
  have htr := ((h.ledger hk).refused r hr href).2
  obtain rfl := List.inj_on_of_nodup_map hnodup hr' (List.mem_filter.2 ⟨hr, by simpa using htr⟩) he
  unfold Tallied.kept at hk'
  rw [href] at hk'
  simp at hk'

/-- An entry was found in its node's directory, or in one below that is not a child. -/
theorem ScanBag.spells (h : ScanBag logger host target t log won w b data root) (hk : host.listing.Proper) {x : Tallied} (hx : x ∈ log) :
    ∃ extra : List Bytes, (∀ name ∈ extra, ProperName name) ∧ x.job.path = DirTree.join t.scanRoot (t.components x.job.node ++ extra) ∧
      (x.job.tracked = true ↔ extra = []) ∧
      ∀ a, (t.node a).parent = some x.job.node → (t.node a).alive = true → ∀ other ∈ extra.head?, (t.node a).name ≠ other := by
  have hl := h.ledger hk
  have htracked : ∀ y ∈ log, y.job.tracked = true → y.job.path = DirTree.join t.scanRoot (t.components y.job.node) := fun y hy ht => by
    obtain ⟨hscan, hcomponents⟩ := h.components (hl.placed y hy)
    rw [hscan, hcomponents]
    exact hl.spelled y hy ht
  cases ht : x.job.tracked with
  | true =>
    refine ⟨[], fun name hn => absurd hn List.not_mem_nil, ?_, by simp, fun a _ _ other ho => by cases ho⟩
    rw [List.append_nil]
    exact htracked x hx ht
  | false =>
    obtain ⟨r, hr, href, hnode, names, hnames, hpath⟩ := hl.untracked x hx ht
    refine ⟨r.name :: names, fun name hn => ?_, ?_, by simp, fun a hp ha other ho => ?_⟩
    · rcases List.mem_cons.1 hn with rfl | hn
      · exact hl.named r hr
      · exact hnames name hn
    · rw [hpath, Tallied.path, htracked r hr (hl.refused r hr href).2, hnode]
      unfold DirTree.join
      rw [List.foldl_append]
      rfl
    · cases ho
      exact h.not_child hk hr href ha (hnode ▸ hp)

/-- What is found at or below a refused subdirectory counts for the directory it was refused in. -/
theorem ScanBag.below (h : ScanBag logger host target t log won w b data root) (hk : host.listing.Proper) {r x : Tallied} (hr : r ∈ log)
    (href : r.refused = true) (hx : x ∈ log) (hholds : r.Holds x.job.path) :
    x.job.node = r.job.node ∧ x.job.tracked = false := by
  have hl := h.ledger hk
  have hfresh := h.fresh hk
  have halive : ∀ y ∈ log, (t.node y.job.node).alive = true := fun y hy => hfresh.alive _ (h.length ▸ hl.placed y hy)
  have hproper := fun y hy => hfresh.shape.components_proper hfresh.names (halive y hy)
  obtain ⟨extra, hextra, hspells, htracked, hother⟩ := h.spells hk hx
  obtain ⟨own, -, hown, hnil, -⟩ := h.spells hk hr
  obtain rfl := hnil.1 (hl.refused r hr href).2
  rw [List.append_nil] at hown
  obtain ⟨names, hnames, hpath⟩ := hholds
  have hjoin : DirTree.join t.scanRoot (t.components x.job.node ++ extra) =
      DirTree.join t.scanRoot (t.components r.job.node ++ r.name :: names) := by
    rw [← hspells, hpath, Tallied.path, hown]
    unfold DirTree.join
    rw [List.foldl_append]
    rfl
  have hlists := join_injective
    (fun name hn => (List.mem_append.1 hn).elim (hproper x hx name) (hextra name))
    (fun name hn => (List.mem_append.1 hn).elim (hproper r hr name) fun hn =>
      (List.mem_cons.1 hn).elim (fun he => he ▸ hl.named r hr) (hnames name)) hjoin
  have hnode := leaves_once hfresh.shape (halive r hr) (halive x hx) (fun a hp ha => h.not_child hk hr href ha hp) hother hlists
  refine ⟨hnode, ?_⟩
  rw [hnode] at hlists
  have hextra := List.append_cancel_left hlists
  rw [← Bool.not_eq_true, htracked, hextra]
  exact List.cons_ne_nil _ _

/-- A directory that a subdirectory was refused in counts more subdirectories than it has children. -/
theorem ScanBag.sealed (h : ScanBag logger host target t log won w b data root) (hk : host.listing.Proper) (hlen : t.nodes.length < u64Max)
    {r : Tallied} (hr : r ∈ log) (href : r.refused = true) : (t.node r.job.node).isSealed = true := by
  have hl := h.ledger hk
  obtain ⟨tallies, hb, hseal, htallies⟩ := built_of_finish h.tree
  refine hseal r.job.node (hl.placed r hr) ?_
  have hdirs : min (tallies r.job.node).direct.dirs u64Max = min (amounts (noted log r.job.node true) .dirs) u64Max := by
    have h1 := htallies r.job.node true .dirs
    have h2 := h.sums r.job.node true .dirs
    have hwon : wonIn (Worker.mergeLinks 0 (List.ofFn b.data) .empty).entries r.job.node true .dirs = 0 :=
      List.sum_eq_zero fun x hx => by
        obtain ⟨e, -, rfl⟩ := List.mem_map.1 hx
        split <;> rfl
    rw [hwon, Nat.add_zero, h2] at h1
    exact h1
  have hchildren : (childrenOf b.shared.nodes r.job.node).length = ((noted log r.job.node true).filter Tallied.kept).length := by
    have hkept := congrArg List.length (h.read hk hr r.job.node).2
    rw [List.length_map] at hkept
    rw [hkept, length_childrenOf]
    unfold childNames
    rw [List.length_map]
  have hmore : ((noted log r.job.node true).filter Tallied.kept).length < amounts (noted log r.job.node true) .dirs :=
    kept_lt (List.mem_filter.2 ⟨hr, by simpa using (hl.refused r hr href).2⟩) href (hl.refused r hr href).1
  have hle : (childrenOf b.shared.nodes r.job.node).length ≤ t.nodes.length := by
    rw [length_childrenOf, h.length]
    exact List.length_filter_le _ _
  omega

/-- Everything found at or below a subdirectory refused by a scan is counted in the tracked directory it
was found in, which is sealed. -/
theorem LogScan.countedAbove (h : LogScan host target hash t log won) (hk : host.listing.Proper) (hlen : t.nodes.length < u64Max)
    {r : Tallied} (hr : r ∈ log) (href : r.refused = true) : CountedAbove t log r := by
  obtain ⟨w, n, b, data, root, hb⟩ := h.bag
  have hl := hb.ledger hk
  obtain ⟨own, -, hown, hnil, -⟩ := hb.spells hk hr
  obtain rfl := hnil.1 (hl.refused r hr href).2
  rw [List.append_nil] at hown
  exact ⟨hb.length ▸ hl.placed r hr, hown, hb.sealed hk hlen hr href, fun x hx => hb.below hk hr href hx⟩

open Classical in
/-- A directory's total is all that was found at and below it, with the files won there. -/
theorem LogScan.total (h : LogScan host target hash t log won) (hk : host.listing.Proper) {i : Nat} (hi : i < t.nodes.length)
    (c : Component) : min ((t.node i).sub.get c) u64Max =
      min (amounts (log.filter fun x => Above t.parentOf i x.job.node) c + wonBelow t won i c) u64Max := by
  obtain ⟨w, n, b, data, root, hb⟩ := h.bag
  have hwin := hb.winners hk
  have htotal := capped_total (hb.tracked hk).arena hb.tree hb.sums (hb.ledger hk).placed (fun e he => hwin e (hb.won_eq ▸ he))
    (hb.length ▸ hi) c
  rw [htotal, hb.won_eq]
  rfl

theorem amounts_filter_le {p q : Tallied → Prop} [DecidablePred p] [DecidablePred q] {c : Component} : ∀ log : List Tallied,
    (∀ x ∈ log, p x → q x) → amounts (log.filter p) c ≤ amounts (log.filter q) c
  | [], _ => le_rfl
  | x :: log, h => by
    have hrest := amounts_filter_le (c := c) log fun y hy => h y (List.mem_cons_of_mem _ hy)
    have hcons : ∀ l : List Tallied, amounts (x :: l) c = x.amount c + amounts l c := fun _ => rfl
    by_cases hp : p x
    · rw [List.filter_cons_of_pos (by simpa using hp), List.filter_cons_of_pos (by simpa using h x (List.mem_cons_self ..) hp), hcons, hcons]
      omega
    · rw [List.filter_cons_of_neg (by simpa using hp)]
      by_cases hq : q x
      · rw [List.filter_cons_of_pos (by simpa using hq), hcons]
        omega
      · rwa [List.filter_cons_of_neg (by simpa using hq)]

/-- A directory does not hold the one it was found in. -/
theorem not_holds_self {r : Tallied} (hr : ProperName r.name) : ¬r.Holds r.job.path := by
  rintro ⟨names, hnames, h⟩
  have hjoin : DirTree.join r.job.path [] = DirTree.join r.job.path (r.name :: names) := h
  have hnil := join_injective (fun name hn => absurd hn List.not_mem_nil)
    (fun name hn => (List.mem_cons.1 hn).elim (fun he => he ▸ hr) (hnames name)) hjoin
  exact List.cons_ne_nil _ _ hnil.symm

open Classical in
/-- A directory's total has each subdirectory refused in it, and everything found at or below that one, up
to the limit of a `u64`. -/
theorem LogScan.refused_le (h : LogScan host target hash t log won) (hk : host.listing.Proper) (hlen : t.nodes.length < u64Max)
    {r : Tallied} (hr : r ∈ log) (href : r.refused = true) (c : Component) :
    min (r.amount c + amounts (log.filter fun x => r.Holds x.job.path) c) u64Max ≤ (t.node r.job.node).sub.get c := by
  have hcounted := h.countedAbove hk hlen hr href
  have htotal := h.total hk hcounted.tracked c
  have hname : ProperName r.name := by
    obtain ⟨w, n, b, data, root, hb⟩ := h.bag
    exact (hb.ledger hk).named r hr
  obtain ⟨before, after, hsplit⟩ := List.append_of_mem hr
  have hone : ∀ l : List Tallied, amounts (r :: l) c = r.amount c + amounts l c := fun _ => rfl
  have hboth : r.amount c + amounts (log.filter fun x => r.Holds x.job.path) c ≤
      amounts (log.filter fun x => Above t.parentOf r.job.node x.job.node) c := by
    have hwithin : ∀ x ∈ log, r.Holds x.job.path → Above t.parentOf r.job.node x.job.node := fun x hx hheld =>
      (hcounted.below x hx hheld).1 ▸ .refl
    rw [hsplit] at hwithin ⊢
    have h1 := amounts_filter_le (c := c) before fun x hx => hwithin x (List.mem_append_left _ hx)
    have h2 := amounts_filter_le (c := c) after fun x hx => hwithin x (List.mem_append_right _ (List.mem_cons_of_mem _ hx))
    rw [List.filter_append, List.filter_append, amounts_append, amounts_append, List.filter_cons_of_neg (by simpa using not_holds_self hname),
      List.filter_cons_of_pos (by simpa using Above.refl), hone]
    omega
  omega

/-- A directory's total has beyond its entries and its children what was found in the untracked directories
below it, with the files won there. -/
theorem LogScan.surplus (h : LogScan host target hash t log won) (hk : host.listing.Proper) {c : Component}
    (hroot : (t.node 0).sub.get c < u64Max) {i : Nat} (hi : i < t.nodes.length) :
    t.surplus i c = amounts (noted log i false) c + wonIn won.entries i false c := by
  obtain ⟨w, n, b, data, root, hb⟩ := h.bag
  have hfresh := hb.fresh hk
  obtain ⟨tallies, hbuilt, -, htallies⟩ := built_of_finish hb.tree
  have hsurplus := hbuilt.surplus (hb.tracked hk).arena hroot (hbuilt.length ▸ hi)
  have hbelow : t.surplus i c ≤ (t.node 0).sub.get c := by
    have hrolled := fun j hj => (hfresh.rolled c hroot j (DirTree.lt_of_alive hj)).1
    have hle := sub_le_above hfresh.shape hrolled (hfresh.shape.root_above hi) (hfresh.alive i hi)
    have hkids := DirTree.overChildren_nonneg (t := t) (i := i) (f := fun n => (n.sub.get c : Int)) fun n => Int.natCast_nonneg _
    unfold DirTree.surplus
    omega
  have h1 := htallies i false c
  have h2 := hb.sums i false c
  rw [← hb.won_eq] at h1
  rw [show (tallies i).part false = (tallies i).below from rfl] at h1
  omega

/-- The root's total is all that was found, with the files won. -/
theorem LogScan.amounts_le (h : LogScan host target hash t log won) (hk : host.listing.Proper) {c : Component}
    (hroot : (t.node 0).sub.get c < u64Max) : (amounts log c : Int) + t.linked c ≤ (t.node 0).sub.get c := by
  classical
  obtain ⟨w, n, b, data, root, hb⟩ := h.bag
  have hshape := (hb.fresh hk).shape
  have habove : ∀ node < b.shared.nodes.length, Above t.parentOf 0 node := fun node hn => hshape.root_above (hb.length ▸ hn)
  have htotal := h.total hk (DirTree.lt_of_alive hshape.root.1) c
  have hall : (log.filter fun x => Above t.parentOf 0 x.job.node) = log :=
    List.filter_eq_self.2 fun x hx => by simpa using habove _ ((hb.ledger hk).placed x hx)
  have hwon : wonBelow t won 0 c = (won.entries.map fun e => sizeAt e.2.2.blocks e.2.2.apparent c).sum := by
    unfold wonBelow
    rw [List.filter_eq_self.2 fun e he => by simpa using habove _ (hb.winners hk e he)]
  have hlinked := linked_of_finish hb.tree c
  rw [← hb.won_eq, ← hwon] at hlinked
  rw [hall] at htotal
  omega

end Scans

end Walk

end StorageHarvester
