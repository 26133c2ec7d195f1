/-
Which link of a multiply linked file a scan counts it at: the one whose path hashes lowest of all its links
met, whichever workers met them and in whatever order. Each worker keeps the lowest of its own, and the
merge the lowest of those.
-/
import StorageHarvester.Scan.Logged

namespace StorageHarvester

open WorkPool (Bag BagReachable)

namespace Walk

/-! ## Keeping the lowest -/

theorem keepLowest_le {V : Type} {links : Table Inode V} {inode' : Inode} {held : V} (inode : Inode) (candidate : V) (key : V → Nat)
    (h : links.get inode' = some held) :
    ∃ held', (keepLowest links inode candidate key).get inode' = some held' ∧ key held' ≤ key held := by
  unfold keepLowest
  split
  · rename_i first hf
    split
    · rename_i hlt
      rw [Table.get_put]
      split
      · rename_i he
        rw [he, hf] at h
        cases h
        exact ⟨candidate, rfl, hlt.le⟩
      · exact ⟨held, h, le_rfl⟩
    · exact ⟨held, h, le_rfl⟩
  · rename_i hf
    rw [Table.get_put, if_neg fun he => by rw [he, hf] at h; cases h]
    exact ⟨held, h, le_rfl⟩

theorem keepLowest_self {V : Type} (links : Table Inode V) (inode : Inode) (candidate : V) (key : V → Nat) : ∃ held, (keepLowest links inode candidate key).get inode = some held ∧ key held ≤ key candidate := by
  unfold keepLowest
  split
  · rename_i first hf
    split
    · exact ⟨candidate, Table.get_put_self .., le_rfl⟩
    · rename_i hlt
      exact ⟨first, hf, Nat.le_of_not_lt hlt⟩
  · exact ⟨candidate, Table.get_put_self .., le_rfl⟩

/-- A merge goes no higher than what it starts from, nor than any worker's link. -/
theorem mergeLinks_le : ∀ (offset : Nat) (workers : List Worker) (winners : Table Inode (Nat × Link)) {inode : Inode} {bound : Nat},
    (∃ held, winners.get inode = some held ∧ held.2.key ≤ bound) ∨
      (∃ d ∈ workers, ∃ link, d.links.get inode = some link ∧ link.key ≤ bound) →
    ∃ winner, (Worker.mergeLinks offset workers winners).get inode = some winner ∧ winner.2.key ≤ bound
  | _, [], winners, inode, bound, h => by
    rcases h with h | ⟨d, hd, -⟩
    · exact h
    · exact absurd hd List.not_mem_nil
  | offset, d :: workers, winners, inode, bound, h => by
    have hfold : ∀ (l : List (Inode × Link)) (winners : Table Inode (Nat × Link)),
        (∃ held, winners.get inode = some held ∧ held.2.key ≤ bound) ∨ (∃ link, (inode, link) ∈ l ∧ link.key ≤ bound) →
        ∃ held, (l.foldl (fun winners e => keepLowest winners e.1 (offset, e.2) fun link => link.2.key) winners).get inode = some held ∧
          held.2.key ≤ bound := by
      intro l
      induction l with
      | nil =>
        rintro winners (h | ⟨link, hl, -⟩)
        · exact h
        · exact absurd hl List.not_mem_nil
      | cons e l ih =>
        rintro winners h
        rw [List.foldl_cons]
        apply ih
        rcases h with ⟨held, hg, hle⟩ | ⟨link, hl, hle⟩
        · obtain ⟨held', hg', hle'⟩ := keepLowest_le e.1 (offset, e.2) (fun link => link.2.key) hg
          exact .inl ⟨held', hg', hle'.trans hle⟩
        · rcases List.mem_cons.1 hl with rfl | hl
          · obtain ⟨held, hg, hle'⟩ := keepLowest_self winners inode (offset, link) fun link => link.2.key
            exact .inl ⟨held, hg, hle'.trans hle⟩
          · exact .inr ⟨link, hl, hle⟩
    rw [Worker.mergeLinks]
    apply mergeLinks_le (offset + d.entries.length) workers
    rcases h with h | ⟨d', hd', link, hg, hle⟩
    · exact .inl (hfold _ _ (.inl h))
    · rcases List.mem_cons.1 hd' with rfl | hd'
      · exact .inl (hfold _ _ (.inr ⟨link, Table.get_eq_some.1 hg, hle⟩))
      · exact .inr ⟨d', hd', link, hg, hle⟩

/-! ## The links met -/

/-- An entry that is one link of several, perhaps. -/
def Tallied.isShared (r : Tallied) : Bool := r.stat.kind ≠ .directory && 1 < r.stat.nlink

def Tallied.inode (r : Tallied) : Inode := (r.stat.dev, r.stat.ino)

def Tallied.key (w : Walk) (r : Tallied) : Nat := w.linkKey r.job.path r.name

/-- A link kept for an entry. -/
structure Tallied.Carries (w : Walk) (r : Tallied) (link : Link) : Prop where
  key : link.key = r.key w
  node : link.node = r.job.node
  direct : link.direct = r.job.tracked
  blocks : link.blocks = r.stat.blocks
  apparent : link.apparent = r.stat.size

/-- Reading an entry keeps the link it is, if it is one. -/
theorem readEntry_links (w : Walk) (e : Entry) (p : InDir) (d : Worker) (k : Nat) :
    ((w.readEntry e p d k).2.1.links = d.links ∧ ∀ r ∈ w.tallies p.job e k, r.isShared = false) ∨
      ∃ r link, w.tallies p.job e k = [r] ∧ r.isShared = true ∧ r.Carries w link ∧
        (w.readEntry e p d k).2.1.links = keepLowest d.links r.inode link Link.key := by
  have hnone : ∀ r ∈ ([] : List Tallied), r.isShared = false := fun r hr => absurd hr List.not_mem_nil
  unfold readEntry tallies
  by_cases hdot : isDot e.name = true
  · rw [if_pos hdot, if_pos (by simp [hdot])]
    exact .inl ⟨rfl, hnone⟩
  rw [if_neg hdot]
  by_cases hx : w.excludes p.job e.name = true
  · rw [if_pos hx, if_pos (by simp [hx])]
    exact .inl ⟨rfl, hnone⟩
  rw [if_neg hx, if_neg (by simp [hdot, hx])]
  cases e.stat with
  | error err =>
    dsimp only
    split <;> exact .inl ⟨rfl, hnone⟩
  | ok stat =>
    dsimp only
    by_cases hdev : (w.target.noCrossFilesystem && decide (stat.dev ≠ w.rootDev)) = true
    · rw [if_pos hdev, if_pos hdev]
      exact .inl ⟨rfl, hnone⟩
    rw [if_neg hdev, if_neg hdev]
    -- any entry but a directory is offered as a link if it has several names
    have hfile : ∀ (q : InDir) (d' : Worker) (refused : Bool), stat.kind ≠ .directory → q.job = p.job → d'.links = d.links →
        ((w.readFile e stat q d').2.links = d.links ∧ ∀ r ∈ [(⟨p.job, e.name, stat, refused⟩ : Tallied)], r.isShared = false) ∨
          ∃ r link, [(⟨p.job, e.name, stat, refused⟩ : Tallied)] = [r] ∧ r.isShared = true ∧ r.Carries w link ∧
            (w.readFile e stat q d').2.links = keepLowest d.links r.inode link Link.key := by
      intro q d' refused hk hq hd
      by_cases hl : 1 < stat.nlink
      · let link : Link :=
          { key := w.linkKey q.job.path e.name, node := q.job.node, direct := q.job.tracked, blocks := stat.blocks, apparent := stat.size
            entry := if (q.job.tracked && isReported w.target q.job.depth) = true then some d'.entries.length else none }
        have hcarries : Tallied.Carries w ⟨p.job, e.name, stat, refused⟩ link := by
          constructor
          · exact congrArg (fun job : Job => w.linkKey job.path e.name) hq
          · exact congrArg Job.node hq
          · exact congrArg Job.tracked hq
          · rfl
          · rfl
        refine .inr ⟨_, link, rfl, by simp [Tallied.isShared, hk, hl], hcarries, ?_⟩
        unfold readFile
        simp only [hl, if_true, hd]
        rfl
      · refine .inl ⟨?_, fun r hr => ?_⟩
        · unfold readFile
          simp only [hl, if_false, hd]
        · rw [List.mem_singleton.1 hr]
          simp [Tallied.isShared, hl]
    cases hk : stat.kind with
    | directory =>
      refine .inl ⟨?_, fun r hr => ?_⟩
      · unfold readSubdir
        dsimp only
        split
        · split
          · rfl
          · split <;> rfl
        · split <;> rfl
      · rw [List.mem_singleton.1 hr]
        simp [Tallied.isShared, hk]
    | file => exact hfile _ _ _ (by rw [hk]; decide) rfl rfl
    | symlink => exact hfile _ _ _ (by rw [hk]; decide) rfl rfl
    | other => exact hfile _ _ _ (by rw [hk]; decide) rfl rfl

/-- The workers hold links that were met, and one no higher than each. -/
structure Carried {n : Nat} (w : Walk) (log : List Tallied) (data : Fin (n + 1) → Worker) : Prop where
  met : ∀ i inode link, (data i).links.get inode = some link → ∃ r ∈ log, r.isShared = true ∧ r.inode = inode ∧ r.Carries w link
  lowest : ∀ r ∈ log, r.isShared = true → ∃ i link, (data i).links.get r.inode = some link ∧ link.key ≤ r.key w

section Carried

variable {n : Nat} {w : Walk} {host : Host} {log : List Tallied} {data : Fin (n + 1) → Worker} {i : Fin (n + 1)} {d' : Worker}

/-- A step that keeps the worker's links and meets none. -/
theorem Carried.keep (h : Carried w log data) (hd : d'.links = (data i).links) {new : List Tallied}
    (hnew : ∀ r ∈ new, r.isShared = false) : Carried w (log ++ new) (Function.update data i d') := by
  have hget : ∀ j inode, (Function.update data i d' j).links.get inode = (data j).links.get inode := by
    rintro j inode
    rw [Function.update_apply]
    split
    · rename_i he
      rw [hd, he]
    · rfl
  constructor
  · rintro j inode link hl
    rw [hget] at hl
    obtain ⟨r, hr, hrest⟩ := h.met j inode link hl
    exact ⟨r, List.mem_append_left _ hr, hrest⟩
  · rintro r hr hs
    rcases List.mem_append.1 hr with hr | hr
    · obtain ⟨j, link, hl, hle⟩ := h.lowest r hr hs
      exact ⟨j, link, by rw [hget]; exact hl, hle⟩
    · rw [hnew r hr] at hs
      cases hs

/-- A step that keeps the link it met. -/
theorem Carried.add (h : Carried w log data) {r : Tallied} {link : Link} (hs : r.isShared = true) (hc : r.Carries w link)
    (hd : d'.links = keepLowest (data i).links r.inode link Link.key) : Carried w (log ++ [r]) (Function.update data i d') := by
  constructor
  · rintro j inode held hl
    rw [Function.update_apply] at hl
    split at hl
    · rw [hd] at hl
      rcases get_keepLowest hl with hl | ⟨rfl, rfl⟩
      · obtain ⟨r', hr', hrest⟩ := h.met i inode held hl
        exact ⟨r', List.mem_append_left _ hr', hrest⟩
      · exact ⟨r, List.mem_append_right _ (List.mem_singleton_self r), hs, rfl, hc⟩
    · obtain ⟨r', hr', hrest⟩ := h.met j inode held hl
      exact ⟨r', List.mem_append_left _ hr', hrest⟩
  · rintro r' hr' hs'
    rcases List.mem_append.1 hr' with hr' | hr'
    · obtain ⟨j, held, hl, hle⟩ := h.lowest r' hr' hs'
      by_cases hj : j = i
      · rw [hj] at hl
        obtain ⟨held', hl', hle'⟩ := keepLowest_le r.inode link Link.key hl
        exact ⟨i, held', by rw [Function.update_self, hd]; exact hl', hle'.trans hle⟩
      · exact ⟨j, held, by rw [Function.update_of_ne hj]; exact hl, hle⟩
    · rw [List.mem_singleton.1 hr']
      obtain ⟨held, hl, hle⟩ := keepLowest_self (data i).links r.inode link Link.key
      exact ⟨i, held, by rw [Function.update_self, hd]; exact hl, hle.trans_eq hc.key⟩

theorem Logging.carried {start : Fin (n + 1) → Worker} {root : TrackedNode} {b : Bag n Job Progress Worker Shared}
    (hstart : ∀ i, (start i).links = .empty) (h : Logging w host start root b log) : Carried w log b.data := by
  induction h with
  | initial =>
    constructor
    · rintro i inode link hl
      rw [hstart i, Table.get_empty] at hl
      cases hl
    · exact fun r hr => absurd hr List.not_mem_nil
  | start h hi hj ih => exact ih
  | @more b log i _ job p p' d' s' h hi ht ih =>
    cases ht with
    | opened hr => exact ih.keep rfl fun r hr => absurd hr List.not_mem_nil
    | @entry p₀ e rest _ _ hl hint =>
      show Carried w (log ++ (Progress.reading p₀).tallies w b.shared.tracked) _
      rw [tallies_reading w hl]
      rcases readEntry_links w e { p₀ with left := rest } (b.data i) b.shared.tracked with ⟨hd, hnew⟩ | ⟨r, link, hnew, hs, hc, hd⟩
      · exact ih.keep hd hnew
      · rw [show w.tallies p₀.job e b.shared.tracked = [r] from hnew]
        exact ih.add hs hc hd
  | @done b log i _ job p children d' s' h hi ht ih =>
    have hd : d'.links = (b.data i).links := by cases ht <;> rfl
    rw [← List.append_nil log]
    exact ih.keep hd fun r hr => absurd hr List.not_mem_nil

end Carried

/-! ## Scans -/

/-- What a scan counts multiply linked files at: links that were met, each no higher than the others of its file. -/
structure WonLowest (w : Walk) (log : List Tallied) (won : Table Inode (Nat × Link)) : Prop where
  met : ∀ inode winner, won.get inode = some winner → ∃ r ∈ log, r.isShared = true ∧ r.inode = inode ∧ r.Carries w winner.2
  lowest : ∀ r ∈ log, r.isShared = true → ∃ winner, won.get r.inode = some winner ∧ winner.2.key ≤ r.key w

theorem ScanBag.lowest {host : Host} {target : Target} {t : DirTree} {log : List Tallied} {won : Table Inode (Nat × Link)} {w : Walk}
    {n : Nat} {b : Bag n Job Progress Worker Shared} {data : Fin (n + 1) → Worker} {root : TrackedNode}
    (h : ScanBag logger host target t log won w b data root) : WonLowest w log won := by
  have hcarried := h.logging.carried h.links
  rw [h.won_eq]
  constructor
  · rintro inode winner hw
    rcases get_mergeLinks 0 (List.ofFn b.data) .empty hw with hg | ⟨d, hd, hg⟩
    · rw [Table.get_empty] at hg
      cases hg
    · obtain ⟨i, rfl⟩ := List.mem_ofFn.1 hd
      exact hcarried.met i inode _ hg
  · rintro r hr hs
    obtain ⟨i, link, hg, hle⟩ := hcarried.lowest r hr hs
    exact mergeLinks_le 0 (List.ofFn b.data) .empty (.inr ⟨b.data i, List.mem_ofFn.2 ⟨i, rfl⟩, link, hg, hle⟩)

end Walk

end StorageHarvester
