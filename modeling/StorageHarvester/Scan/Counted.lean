/-
What a scan counts of multiply linked files, each at one link, and how many directories it tracks:
beyond the ones to report no more than its cap, since every directory it offers a node is given a
place first.
-/
import Mathlib.Algebra.BigOperators.Fin
import StorageHarvester.Scan.Fresh
import StorageHarvester.Scan.Traced

namespace StorageHarvester

open WorkPool (Bag BagReachable)

namespace Walk

/-! ## The cap -/

/-- The subdirectories offered a node that are not registered yet. -/
def Progress.offered : Progress → Nat
  | .opening _ => 0
  | .reading p => p.pending.length

/-- What a worker's directory offers. -/
def offeredAt : Option (Job × Progress) → Nat
  | none => 0
  | some (_, p) => p.offered

/-- What all directories being read offer. -/
def offered {n : Nat} (active : Fin (n + 1) → Option (Job × Progress)) : Nat := ∑ i, offeredAt (active i)

theorem offered_update {n : Nat} (active : Fin (n + 1) → Option (Job × Progress)) (i : Fin (n + 1)) (a : Option (Job × Progress)) :
    offered (Function.update active i a) + offeredAt (active i) = offered active + offeredAt a :=
  Bag.sum_update offeredAt active i a

theorem offered_none {n : Nat} : offered (fun _ : Fin (n + 1) => none) = 0 := Finset.sum_const_zero

/-- Every directory tracked, or offered to be, has a place, and below the root there are as many as
the cap allows. -/
structure Placed {n : Nat} (cap : Nat) (b : Bag n Job Progress Worker Shared) : Prop where
  reserved : b.shared.nodes.length + offered b.active ≤ b.shared.tracked
  within : b.shared.nodes.length + offered b.active ≤ max 1 cap

theorem length_sealNode (job : Job) (nodes : List TrackedNode) : (sealNode job nodes).length = nodes.length :=
  length_of_fixed (fixed_sealNode job nodes)

theorem length_registered (p : InDir) (nodes : List TrackedNode) :
    (p.registered nodes).length = nodes.length + p.pending.length := by
  have h := congrArg List.length (fixed_registered p nodes)
  simpa using h

/-- An entry offers one subdirectory a node, in a place kept for it, or none. -/
theorem readEntry_offers (w : Walk) (e : Entry) (p : InDir) (d : Worker) (k : Nat) :
    ((w.readEntry e p d k).1.pending.length = p.pending.length ∧ k ≤ (w.readEntry e p d k).2.2) ∨
      (w.readEntry e p d k).1.pending.length = p.pending.length + 1 ∧ (w.readEntry e p d k).2.2 = k + 1 ∧
        w.keeps (p.job.depth + 1) k = true := by
  unfold readEntry
  split
  · exact .inl ⟨rfl, le_rfl⟩
  · split
    · exact .inl ⟨rfl, le_rfl⟩
    · split
      · split <;> exact .inl ⟨rfl, le_rfl⟩
      · split
        · exact .inl ⟨rfl, le_rfl⟩
        · dsimp only
          split
          · unfold readSubdir
            dsimp only
            split
            · split
              · rename_i hkeeps
                exact .inr ⟨List.length_append, rfl, hkeeps⟩
              · split <;> exact .inl ⟨rfl, Nat.le_succ k⟩
            · split <;> exact .inl ⟨rfl, le_rfl⟩
          · exact .inl ⟨rfl, le_rfl⟩

section Steps

variable {n : Nat} {w : Walk} {kernel : Kernel} {b : Bag n Job Progress Worker Shared} {i : Fin (n + 1)}

theorem Placed.start {cap : Nat} (h : Placed cap b) (job : Job) (hi : b.active i = none) (pending : Multiset Job) :
    Placed cap { b with pending := pending, active := Function.update b.active i (some (job, .opening job)) } := by
  have hsum := offered_update b.active i (some (job, .opening job))
  rw [hi] at hsum
  have hsame : offered (Function.update b.active i (some (job, .opening job))) = offered b.active := hsum
  exact ⟨by rw [hsame]; exact h.reserved, by rw [hsame]; exact h.within⟩

theorem Placed.more (h : Placed w.target.treeMaxDirectories b) (hd : w.target.reportDepth = 0) {job : Job} {p p' : Progress}
    {d' : Worker} {s' : Shared} {interrupted : Bool} (hi : b.active i = some (job, p))
    (ht : ReadStep w kernel interrupted p (b.data i) b.shared (.more p' d' s')) :
    Placed w.target.treeMaxDirectories
      { b with active := Function.update b.active i (some (job, p')), data := Function.update b.data i d', shared := s' } := by
  have hsum := offered_update b.active i (some (job, p'))
  rw [hi] at hsum
  have hsum : offered (Function.update b.active i (some (job, p'))) + p.offered = offered b.active + p'.offered := hsum
  have hr := h.reserved
  have hw := h.within
  have hstep : s'.nodes = b.shared.nodes ∧ (p'.offered ≤ p.offered ∧ b.shared.tracked ≤ s'.tracked ∨
      p'.offered = p.offered + 1 ∧ s'.tracked = b.shared.tracked + 1 ∧ b.shared.tracked < w.target.treeMaxDirectories) := by
    cases ht with
    | opened hr => exact ⟨rfl, .inl ⟨Nat.zero_le _, le_rfl⟩⟩
    | @entry p₀ e rest _ _ hl hi' =>
      refine ⟨rfl, ?_⟩
      rcases readEntry_offers w e { p₀ with left := rest } (b.data i) b.shared.tracked with ⟨h1, h2⟩ | ⟨h1, h2, h3⟩
      · exact .inl ⟨le_of_eq h1, h2⟩
      · refine .inr ⟨h1, h2, ?_⟩
        -- no directory below the root is one to report
        unfold keeps at h3
        rw [hd, Bool.or_eq_true, decide_eq_true_eq, decide_eq_true_eq] at h3
        exact h3.resolve_left (Nat.not_succ_le_zero _)
  obtain ⟨hnodes, hoffer⟩ := hstep
  refine ⟨?_, ?_⟩
  · show s'.nodes.length + offered (Function.update b.active i _) ≤ s'.tracked
    rw [hnodes]
    omega
  · show s'.nodes.length + offered (Function.update b.active i _) ≤ _
    rw [hnodes]
    omega

theorem Placed.done {cap : Nat} (h : Placed cap b) {job : Job} {p : Progress} {children : List Job} {d' : Worker}
    {s' : Shared} {interrupted : Bool} (hi : b.active i = some (job, p))
    (ht : ReadStep w kernel interrupted p (b.data i) b.shared (.done children d' s')) (pending : Multiset Job) :
    Placed cap ⟨pending, Function.update b.active i none, Function.update b.data i d', s'⟩ := by
  have hsum := offered_update b.active i none
  rw [hi] at hsum
  have hsum : offered (Function.update b.active i none) + p.offered = offered b.active := hsum
  have hr := h.reserved
  have hw := h.within
  have hstep : s'.nodes.length ≤ b.shared.nodes.length + p.offered ∧ s'.tracked = b.shared.tracked := by
    cases ht with
    | @unopened job' _ _ _ _ _ _ => exact ⟨(length_sealNode job' _).trans_le (Nat.le_add_right _ _), rfl⟩
    | closed hl hf => exact ⟨(length_registered _ _).le, rfl⟩
    | @closedEarly p₀ _ _ _ _ hl hf htol =>
      refine ⟨?_, rfl⟩
      show (p₀.registered (sealNode p₀.job b.shared.nodes)).length ≤ _
      rw [length_registered, length_sealNode]
      exact le_rfl
  refine ⟨?_, ?_⟩
  · show s'.nodes.length + offered (Function.update b.active i none) ≤ s'.tracked
    rw [hstep.2]
    omega
  · show s'.nodes.length + offered (Function.update b.active i none) ≤ _
    omega

theorem placed_of_reachable {host : Host} {data : Fin (n + 1) → Worker} {root : TrackedNode} (hd : w.target.reportDepth = 0)
    (h : BagReachable (w.readDir host.listing host.answers) (rootJob w.target) data { nodes := [root], tracked := 1 } b) :
    Placed w.target.treeMaxDirectories b := by
  induction h with
  | initial =>
    refine ⟨?_, ?_⟩
    · show 1 + offered (fun _ : Fin (n + 1) => none) ≤ 1
      rw [offered_none]
    · show 1 + offered (fun _ : Fin (n + 1) => none) ≤ _
      rw [offered_none]
      exact le_max_left _ _
  | start h hi hj ih => exact ih.start _ hi _
  | more h hi ht ih => exact ih.more hd hi ht
  | done h hi ht ih => exact ih.done hi ht _

end Steps

/-! ## Scans -/

/-- Nothing is recorded. -/
abbrev untraced : Tracer Unit := ⟨(), fun _ _ _ _ => ()⟩

/-- A tree a scan comes back with, and the multiply linked files it counted: each at one link. -/
abbrev CountScan (host : Host) (target : Target) (hash : Bytes → Nat) (t : DirTree) (counted : Table Inode (Nat × Link)) : Prop :=
  TracedScan untraced host target hash t () counted

section Finished

variable {w : Walk} {nodes : List TrackedNode} {workers : List Worker} {t : DirTree}

/-- A file counted directly in a tracked directory has that directory as its owner. -/
theorem owner_of_finish (ht : (finish w nodes workers).tree = some t) (inode : Inode) :
    (t.links.get inode).isSome = true ↔
      ∃ link, (Worker.mergeLinks 0 workers .empty).get inode = some link ∧ link.2.direct = true := by
  obtain ⟨u, hu, hut⟩ := Option.map_eq_some_iff.1 ht
  have hlinks : t.links = u.links := by rw [← hut]
  rw [hlinks, (built_of_buildTree hu).2.1, Option.isSome_iff_exists]
  constructor
  · rintro ⟨owner, ho⟩
    obtain ⟨e, he, heq⟩ := List.mem_filterMap.1 (Table.mem_of_get_ofList ho)
    split at heq
    · rename_i hd
      cases heq
      exact ⟨e.2, Table.get_eq_some.2 he, hd⟩
    · cases heq
  · rintro ⟨link, hl, hd⟩
    exact Table.get_ofList_isSome (v := linkOwner workers inode link.2)
      (List.mem_filterMap.2 ⟨(inode, link), Table.get_eq_some.1 hl, if_pos hd⟩)

end Finished

section Scans

variable {host : Host} {target : Target} {hash : Bytes → Nat} {t : DirTree} {counted : Table Inode (Nat × Link)}

theorem CountScan.walked {root : Stat} {handle : Option Handle} {n : Nat} {s : WorkPool.State n Job Progress Worker Shared Failure}
    {result : ScanResult} (hs : host.stat target.scanPath target.followSymlinks (.ok root)) (hx : excludesRoot target = false)
    (hk : root.kind = .directory) (hh : RootHandle host target handle) (hm : target.maxDepth ≠ some 0) (hz : 0 ∉ target.scanPath)
    (hn : n + 1 = max target.scanThreads 1) (hr : Walking host (start target root hash) root handle s)
    (ho : ∀ i, (s.phase i).isOver = true) (hok : (start target root hash).outcome s = .ok result) (ht : result.tree = some t) :
    CountScan host target hash t (Worker.mergeLinks 0 (List.ofFn s.data) .empty) := by
  have hi : WorkPool.Inv s := hr.inv
  obtain ⟨_, hd⟩ := tracing_of_reachable untraced (hr.bag (hi.ok ho (outcome_ok hok).1))
  exact TracedScan.walked hs hx hk hh hm hz hn hr ho hd hok ht

/-- The tree of a scan is fresh. -/
theorem CountScan.fresh (h : CountScan host target hash t counted) (hk : host.listing.Proper) : Fresh t := by
  obtain ⟨w, n, b, data, root, hb⟩ := h.bag
  have htracked := tracked_of_reachable hk hb.links hb.parent hb.depth hb.traced.reachable
  refine fresh_of_finish htracked.arena (fun d hd => ?_) (fun j c => ?_) hb.tree
  · obtain ⟨i, rfl⟩ := List.mem_ofFn.1 hd
    exact htracked.links i
  · rw [List.map_ofFn, List.sum_ofFn]
    exact htracked.covered j c

/-- A scan that reports no directory below the root tracks as many as the cap allows. -/
theorem CountScan.within (h : CountScan host target hash t counted) (hd : target.reportDepth = 0) :
    t.nodes.length ≤ max 1 target.treeMaxDirectories := by
  obtain ⟨w, n, b, data, root, hb⟩ := h.bag
  obtain ⟨u, hu, rfl⟩ := Option.map_eq_some_iff.1 hb.tree
  have hlen : u.nodes.length = b.shared.nodes.length := (built_of_buildTree hu).1.length
  have hdepth : w.target.reportDepth = 0 := by rw [hb.target_eq, hd]
  have := (placed_of_reachable hdepth hb.traced.reachable).within
  rw [hb.target_eq] at this
  show u.nodes.length ≤ _
  omega

theorem CountScan.owner (h : CountScan host target hash t counted) (inode : Inode) :
    (t.links.get inode).isSome = true ↔ ∃ link, counted.get inode = some link ∧ link.2.direct = true := by
  obtain ⟨w, n, b, data, root, hb⟩ := h.bag
  rw [hb.won_eq]
  exact owner_of_finish hb.tree inode

end Scans

end Walk

end StorageHarvester
