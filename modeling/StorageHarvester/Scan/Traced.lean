/-
What is recorded beside a walk. The record is no data of the scanner: each step of a worker adds to it what
the tracer makes of the entry that is next. A scan comes back with its tree and with what was recorded until
the pool was done; every scan has a record.
-/
import StorageHarvester.Scan.Tracked

namespace StorageHarvester

open WorkPool (Bag BagReachable)

namespace Walk

/-! ## Records of walks -/

/-- What is on record of a walk that has done nothing, and what a worker that reads on adds to a record when so many
directories are tracked. -/
structure Tracer (α : Type) where
  first : α
  record : Walk → Progress → Nat → α → α

/-- The states of a walk's bag of jobs, each with what the steps on the way to it recorded. -/
inductive Tracing {α : Type} (tracer : Tracer α) (w : Walk) (host : Host) {n : Nat} (data : Fin (n + 1) → Worker)
    (root : TrackedNode) : Bag n Job Progress Worker Shared → α → Prop
  | initial : Tracing tracer w host data root ⟨{rootJob w.target}, fun _ => none, data, { nodes := [root], tracked := 1 }⟩
      tracer.first
  | start {b : Bag n Job Progress Worker Shared} {record : α} {i : Fin (n + 1)} {job : Job} {rest : Multiset Job}
      (h : Tracing tracer w host data root b record) (hi : b.active i = none) (hj : b.pending = {job} + rest) :
      Tracing tracer w host data root
        { b with pending := rest, active := Function.update b.active i (some (job, .opening job)) } record
  | more {b : Bag n Job Progress Worker Shared} {record : α} {i : Fin (n + 1)} {interrupted : Bool} {job : Job}
      {p p' : Progress} {d' : Worker} {s' : Shared} (h : Tracing tracer w host data root b record)
      (hi : b.active i = some (job, p)) (ht : ReadStep w host.listing interrupted p (b.data i) b.shared (.more p' d' s')) :
      Tracing tracer w host data root
        { b with active := Function.update b.active i (some (job, p')), data := Function.update b.data i d', shared := s' }
        (tracer.record w p b.shared.tracked record)
  | done {b : Bag n Job Progress Worker Shared} {record : α} {i : Fin (n + 1)} {interrupted : Bool} {job : Job}
      {p : Progress} {children : List Job} {d' : Worker} {s' : Shared} (h : Tracing tracer w host data root b record)
      (hi : b.active i = some (job, p))
      (ht : ReadStep w host.listing interrupted p (b.data i) b.shared (.done children d' s')) :
      Tracing tracer w host data root
        ⟨b.pending + children, Function.update b.active i none, Function.update b.data i d', s'⟩ record

section Reachable

variable {α : Type} {tracer : Tracer α} {w : Walk} {host : Host} {n : Nat} {data : Fin (n + 1) → Worker}
  {root : TrackedNode} {b : Bag n Job Progress Worker Shared} {record : α}

theorem Tracing.reachable (h : Tracing tracer w host data root b record) :
    BagReachable (w.readDir host.listing host.answers) (rootJob w.target) data { nodes := [root], tracked := 1 } b := by
  induction h with
  | initial => exact .initial
  | start h hi hj ih => exact .start ih hi hj
  | more h hi ht ih => exact .more ih hi ht
  | done h hi ht ih => exact .done ih hi ht

/-- Every walk has its record. -/
theorem tracing_of_reachable (tracer : Tracer α)
    (h : BagReachable (w.readDir host.listing host.answers) (rootJob w.target) data { nodes := [root], tracked := 1 } b) :
    ∃ record, Tracing tracer w host data root b record := by
  induction h with
  | initial => exact ⟨_, .initial⟩
  | start h hi hj ih =>
    obtain ⟨record, hr⟩ := ih
    exact ⟨_, hr.start hi hj⟩
  | more h hi ht ih =>
    obtain ⟨record, hr⟩ := ih
    exact ⟨_, hr.more hi ht⟩
  | done h hi ht ih =>
    obtain ⟨record, hr⟩ := ih
    exact ⟨_, hr.done hi ht⟩

end Reachable

/-- Notes of each directory: what is met in it is noted at its node. -/
abbrev noter {α : Type} (note : Walk → Progress → Nat → α → Prop) : Tracer (Nat → α → Prop) where
  first := fun _ _ => False
  record := fun w p _ noted node a => noted node a ∨ note w p node a

/-! ## Records of scans -/

/-- A tree a scan comes back with, what was recorded beside its walk, and the link each multiply linked file
is counted at. -/
inductive TracedScan {α : Type} (tracer : Tracer α) (host : Host) (target : Target) (hash : Bytes → Nat) :
    DirTree → α → Table Inode (Nat × Link) → Prop
  /-- The root is not read. -/
  | unread {result : ScanResult} {t : DirTree} (h : Scans host target hash (.ok result)) (hm : target.maxDepth = some 0)
      (ht : result.tree = some t) : TracedScan tracer host target hash t tracer.first .empty
  | walked {root : Stat} {handle : Option Handle} {n : Nat} {s : WorkPool.State n Job Progress Worker Shared Failure}
      {record : α} {result : ScanResult} {t : DirTree}
      (hs : host.stat target.scanPath target.followSymlinks (.ok root)) (hx : excludesRoot target = false)
      (hk : root.kind = .directory) (hh : RootHandle host target handle) (hm : target.maxDepth ≠ some 0)
      (hz : 0 ∉ target.scanPath) (hn : n + 1 = max target.scanThreads 1)
      (hr : Walking host (start target root hash) root handle s) (ho : ∀ i, (s.phase i).isOver = true)
      (hd : Tracing tracer (start target root hash) host (workerData n target root) (rootNode target root handle) s.bag record)
      (hok : (start target root hash).outcome s = .ok result) (ht : result.tree = some t) :
      TracedScan tracer host target hash t record (Worker.mergeLinks 0 (List.ofFn s.data) .empty)

section Scans

variable {α : Type} {tracer : Tracer α} {host : Host} {target : Target} {hash : Bytes → Nat} {t : DirTree} {record : α}
  {won : Table Inode (Nat × Link)}

/-- Every scan that comes back with a tree has its record. -/
theorem tracedScan_of_scan (tracer : Tracer α) {result : ScanResult} (h : Scans host target hash (.ok result))
    (ht : result.tree = some t) : ∃ record won, TracedScan tracer host target hash t record won := by
  by_cases hm : target.maxDepth = some 0
  · exact ⟨_, _, .unread h hm ht⟩
  · generalize hr : Except.ok result = r at h
    cases h with
    | unstated | nul => cases hr
    | excluded | single =>
      cases hr
      cases ht
    | shallow hs hx hk hh hm' => exact absurd hm' hm
    | @walked root handle n s hs hx hk hh hm' hz hn hw ho =>
      obtain ⟨hv, -⟩ := outcome_ok hr.symm
      have hi : WorkPool.Inv s := hw.inv
      obtain ⟨record, hd⟩ := tracing_of_reachable tracer (hw.bag (hi.ok ho hv))
      exact ⟨record, _, .walked hs hx hk hh hm' hz hn hw ho hd hr.symm ht⟩

/-- Another tracer records the same scan. -/
theorem TracedScan.retrace {β : Type} (h : TracedScan tracer host target hash t record won) (other : Tracer β) :
    ∃ record', TracedScan other host target hash t record' won := by
  cases h with
  | unread h hm ht => exact ⟨_, .unread h hm ht⟩
  | walked hs hx hk hh hm hz hn hr ho hd hok ht =>
    obtain ⟨record', hd'⟩ := tracing_of_reachable other hd.reachable
    exact ⟨record', .walked hs hx hk hh hm hz hn hr ho hd' hok ht⟩

/-- What a scan makes of its bag when the pool is done. -/
structure ScanBag (tracer : Tracer α) (host : Host) (target : Target) (t : DirTree) (record : α) (won : Table Inode (Nat × Link))
    (w : Walk) {n : Nat} (b : Bag n Job Progress Worker Shared) (data : Fin (n + 1) → Worker) (root : TrackedNode) : Prop where
  target_eq : w.target = target
  parent : root.parent = none
  depth : root.depth = 0
  links : ∀ i, (data i).links = .empty
  plain : ∀ i, (data i).plain = []
  tallies : ∀ i k, (data i).tallies k = {}
  traced : Tracing tracer w host data root b record
  idle : ∀ i, b.active i = none
  /-- Nothing is left to be read, or nothing was. -/
  done : b.pending = 0 ∨ record = tracer.first
  tree : (finish w b.shared.nodes (List.ofFn b.data)).tree = some t
  won_eq : won = Worker.mergeLinks 0 (List.ofFn b.data) .empty

/-- The bag of a scan, with the root it started from. -/
theorem TracedScan.started (h : TracedScan tracer host target hash t record won) :
    ∃ (root : Stat) (handle : Option Handle) (n : Nat) (b : Bag n Job Progress Worker Shared) (data : Fin (n + 1) → Worker),
      host.stat target.scanPath target.followSymlinks (.ok root) ∧
      ScanBag tracer host target t record won (start target root hash) b data (rootNode target root handle) ∧
      (target.maxDepth = some 0 ∧ record = tracer.first ∧ b.shared.nodes = [rootNode target root handle] ∨
        target.maxDepth ≠ some 0 ∧ b.pending = 0) := by
  cases h with
  | @unread result _ h hm ht =>
    generalize hr : Except.ok result = r at h
    cases h with
    | unstated | nul => cases hr
    | excluded | single =>
      cases hr
      cases ht
    | @shallow root handle hs hx hk hh hm' =>
      cases hr
      exact ⟨root, handle, 0, _, fun _ => { counts := rootCounts target root }, hs, ⟨rfl, rfl, rfl, fun _ => rfl, fun _ => rfl,
        fun _ _ => rfl, .initial, fun _ => rfl, .inr rfl, ht, rfl⟩, .inl ⟨hm, rfl, rfl⟩⟩
    | walked hs hx hk hh hm' => exact absurd hm hm'
  | @walked root handle n s _ result _ hs hx hk hh hm hz hn hr ho hd hok ht =>
    obtain ⟨hv, rfl⟩ := outcome_ok hok
    have hi : WorkPool.Inv s := hr.inv
    have hdone := hi.bag_done ho (hi.ok ho hv)
    have hpending : s.bag.pending = 0 := by rw [hdone]
    refine ⟨root, handle, n, s.bag, workerData n target root, hs, ⟨rfl, rfl, rfl, fun i => ?_, fun i => ?_, fun i k => ?_, hd, fun i => ?_,
      .inl hpending, ht, rfl⟩, .inr ⟨hm, hpending⟩⟩
    · unfold workerData
      split <;> rfl
    · unfold workerData
      split <;> rfl
    · unfold workerData
      split <;> rfl
    · rw [hdone]

theorem TracedScan.bag (h : TracedScan tracer host target hash t record won) :
    ∃ (w : Walk) (n : Nat) (b : Bag n Job Progress Worker Shared) (data : Fin (n + 1) → Worker) (root : TrackedNode),
      ScanBag tracer host target t record won w b data root := by
  obtain ⟨root, handle, n, b, data, -, hb, -⟩ := h.started
  exact ⟨_, n, b, data, _, hb⟩

end Scans

end Walk

end StorageHarvester
