/-
Which directories a walk reads. On a file system that answers every request as it is, a walk opens the
directory at a path exactly if each name on the way is kept: not excluded, a directory as `stat` sees
it, on the root's device where the walk stays on one, and within the depth limit.
-/
import StorageHarvester.Scan.Plain
import StorageHarvester.Scan.Visits

namespace StorageHarvester

open WorkPool (Bag BagReachable)

/-! ## The file system -/

/-- A file system during one scan, by what a path is with and without following a symlink there. -/
structure FileTree where
  lstat : Bytes → Except Errno Stat
  stat : Bytes → Except Errno Stat
  /-- What is no symlink is itself. -/
  plain : ∀ path s, lstat path = .ok s → s.kind ≠ .symlink → stat path = .ok s
  /-- The empty path is none. -/
  named : ∀ s, lstat [] ≠ .ok s
  /-- Only a directory has entries. -/
  above : ∀ path name s, path ≠ [] → ProperName name → lstat (pushComponent path name) = .ok s →
    ∃ d, stat path = .ok d ∧ d.kind = .directory
  /-- A symlink is followed to its end, and is there itself. -/
  below : ∀ path s, stat path = .ok s → s.kind ≠ .symlink ∧ ∃ l, lstat path = .ok l

/-- What a path is, through symlinks if they are followed. -/
def FileTree.look (fs : FileTree) (follow : Bool) (path : Bytes) : Except Errno Stat :=
  if follow then fs.stat path else fs.lstat path

/-- What listing a directory of this file system comes to: every entry, and nothing else. -/
structure FileTree.Lists (fs : FileTree) (follow : Bool) (path : Bytes) (reading : Reading) : Prop where
  fail : reading.fail = none
  entry : ∀ e ∈ reading.entries, Walk.isDot e.name = true ∨ ProperName e.name ∧ e.stat = fs.look follow (pushComponent path e.name)
  all : ∀ name, ProperName name → (∃ s, fs.lstat (pushComponent path name) = .ok s) → ∃ e ∈ reading.entries, e.name = name

/-- A host whose answers are this file system's, and that lists every directory. -/
structure Host.Shows (host : Host) (fs : FileTree) (follow : Bool) : Prop where
  stat : ∀ path answer, host.stat path follow answer → answer = fs.look follow path
  listing : ∀ path s, fs.look follow path = .ok s → s.kind = .directory → ∀ answer, host.listing path answer →
    ∃ reading, answer = .ok reading ∧ fs.Lists follow path reading

theorem isDot_of_proper {name : Bytes} (h : ProperName name) : Walk.isDot name = false := by
  unfold Walk.isDot
  simp [h.2.2.1, h.2.2.2]

namespace Walk

/-! ## Which directories are gone into -/

/-- Reading this entry of a job's directory, the walk goes on into it. -/
def Enters (w : Walk) (job : Job) (e : Entry) : Prop :=
  isDot e.name = false ∧ w.excludes job e.name = false ∧
    ∃ stat, e.stat = .ok stat ∧ (w.target.noCrossFilesystem && decide (stat.dev ≠ w.rootDev)) = false ∧ stat.kind = .directory ∧
      w.descends (job.depth + 1) = true

/-- Below the directory that `names` lead to, the walk goes on into `name`. -/
structure Kept (w : Walk) (fs : FileTree) (names : List Bytes) (name : Bytes) : Prop where
  proper : ProperName name
  shown : (!w.target.exclude.isEmpty && w.target.exclude.isMatch (DirTree.join w.target.displayPath (names ++ [name]))) = false
  directory : ∃ stat, fs.look w.target.followSymlinks (DirTree.join w.target.scanPath (names ++ [name])) = .ok stat ∧
    (w.target.noCrossFilesystem && decide (stat.dev ≠ w.rootDev)) = false ∧ stat.kind = .directory
  shallow : w.descends (names.length + 1) = true

/-- The walk goes into each of these names, one below the other. -/
inductive Leads (w : Walk) (fs : FileTree) : List Bytes → Prop
  | nil : Leads w fs []
  | snoc {names : List Bytes} {name : Bytes} (h : Leads w fs names) (hk : w.Kept fs names name) : Leads w fs (names ++ [name])

theorem join_snoc (base : Bytes) (names : List Bytes) (name : Bytes) :
    DirTree.join base (names ++ [name]) = pushComponent (DirTree.join base names) name := by
  unfold DirTree.join
  rw [List.foldl_append]
  rfl

/-- The directories met so far that are still to be read: where, and how deep. -/
def InDir.ahead (p : InDir) : List (Bytes × Nat) :=
  p.children.map (fun c => (c.path, c.depth)) ++
    (p.pending.filter fun dir => dir.descend).map fun dir => (childPath p.job.path dir.name, p.job.depth + 1)

/-- Reading an entry adds it to what is ahead if the walk goes into it, and adds nothing else. -/
theorem readEntry_ahead (w : Walk) (e : Entry) (p : InDir) (d : Worker) (k : Nat) (x : Bytes × Nat) :
    x ∈ (w.readEntry e p d k).1.ahead ↔
      x ∈ p.ahead ∨ w.Enters p.job e ∧ x = (childPath p.job.path e.name, p.job.depth + 1) := by
  have hnone : ∀ q : InDir, q.ahead = p.ahead → ¬w.Enters p.job e →
      (x ∈ q.ahead ↔ x ∈ p.ahead ∨ w.Enters p.job e ∧ x = (childPath p.job.path e.name, p.job.depth + 1)) := by
    intro q hq hno
    rw [hq]
    exact ⟨.inl, fun h => h.elim id fun h => absurd h.1 hno⟩
  unfold readEntry
  by_cases hdot : isDot e.name = true
  · rw [if_pos hdot]
    exact hnone p rfl fun h => by rw [h.1] at hdot; cases hdot
  rw [if_neg hdot]
  by_cases hx : w.excludes p.job e.name = true
  · rw [if_pos hx]
    exact hnone _ rfl fun h => by rw [h.2.1] at hx; cases hx
  rw [if_neg hx]
  cases he : e.stat with
  | error err =>
    have hno : ¬w.Enters p.job e := by
      rintro ⟨-, -, stat, hs, -⟩
      rw [he] at hs
      cases hs
    dsimp only
    split
    · exact hnone _ rfl hno
    · exact hnone _ rfl hno
  | ok stat =>
    have hstat : w.Enters p.job e → (w.target.noCrossFilesystem && decide (stat.dev ≠ w.rootDev)) = false ∧ stat.kind = .directory ∧
        w.descends (p.job.depth + 1) = true := by
      rintro ⟨-, -, stat', hs, hrest⟩
      rw [he] at hs
      cases hs
      exact hrest
    dsimp only
    by_cases hdev : (w.target.noCrossFilesystem && decide (stat.dev ≠ w.rootDev)) = true
    · rw [if_pos hdev]
      exact hnone _ rfl fun h => by rw [(hstat h).1] at hdev; cases hdev
    rw [if_neg hdev]
    cases hk : stat.kind with
    | directory =>
      -- the entry is a directory: read only above the depth limit, and tracked or not
      unfold readSubdir
      dsimp only
      cases hd : w.descends (p.job.depth + 1) with
      | false =>
        have hno : ¬w.Enters p.job e := fun h => Bool.false_ne_true (hd.symm.trans (hstat h).2.2)
        split
        · split
          · refine hnone _ ?_ hno
            unfold InDir.ahead
            dsimp only
            rw [List.filter_append, List.filter_cons_of_neg (by simp), List.filter_nil, List.append_nil]
          · exact hnone _ rfl hno
        · exact hnone _ rfl hno
      | true =>
        have hin : w.Enters p.job e := ⟨by simpa using hdot, by simpa using hx, stat, he, by simpa using hdev, hk, hd⟩
        have hadded : ∀ q : InDir, (∀ y, y ∈ q.ahead ↔ y ∈ p.ahead ∨ y = (childPath p.job.path e.name, p.job.depth + 1)) →
            (x ∈ q.ahead ↔ x ∈ p.ahead ∨ w.Enters p.job e ∧ x = (childPath p.job.path e.name, p.job.depth + 1)) := by
          intro q hq
          rw [hq]
          exact or_congr Iff.rfl ⟨fun h => ⟨hin, h⟩, And.right⟩
        have hchild : ∀ q : InDir, q.job = p.job → q.pending = p.pending →
            q.children = p.children ++ [{ path := childPath p.job.path e.name, depth := p.job.depth + 1, node := p.job.node, tracked := false }] →
            ∀ y, y ∈ q.ahead ↔ y ∈ p.ahead ∨ y = (childPath p.job.path e.name, p.job.depth + 1) := by
          intro q hj hp hc y
          unfold InDir.ahead
          rw [hj, hp, hc, List.map_append]
          simp only [List.mem_append, List.map_cons, List.map_nil, List.mem_singleton]
          tauto
        split
        · split
          · refine hadded _ fun y => ?_
            unfold InDir.ahead
            dsimp only
            rw [List.filter_append, List.filter_cons_of_pos rfl, List.filter_nil, List.map_append]
            simp only [List.mem_append, List.map_cons, List.map_nil, List.mem_singleton]
            tauto
          · exact hadded _ (hchild _ rfl rfl rfl)
        · exact hadded _ (hchild _ rfl rfl rfl)
    | file => exact hnone _ rfl fun h => by rw [(hstat h).2.1] at hk; cases hk
    | symlink => exact hnone _ rfl fun h => by rw [(hstat h).2.1] at hk; cases hk
    | other => exact hnone _ rfl fun h => by rw [(hstat h).2.1] at hk; cases hk

/-- What is ahead at a directory's end is read next. -/
theorem places_jobs (p : InDir) (nodes : List TrackedNode) : (p.jobs nodes).map (fun c => (c.path, c.depth)) = p.ahead := by
  have htracked : ∀ (pending : List PendingDir) (first : Nat), (trackedJobs p.job first pending).map (fun c => (c.path, c.depth)) =
      (pending.filter fun dir => dir.descend).map fun dir => (childPath p.job.path dir.name, p.job.depth + 1) := by
    intro pending
    induction pending with
    | nil => exact fun _ => rfl
    | cons dir pending ih =>
      intro first
      rw [trackedJobs]
      by_cases hd : dir.descend = true
      · rw [if_pos hd, List.filter_cons_of_pos hd, List.map_cons, List.map_cons, ih]
      · rw [if_neg hd, List.filter_cons_of_neg hd, ih]
  unfold InDir.jobs InDir.ahead
  rw [List.map_append, htracked]

/-! ## Names and paths -/

section Names

variable {w : Walk} {fs : FileTree}

theorem Leads.proper {names : List Bytes} (h : w.Leads fs names) : ∀ name ∈ names, ProperName name := by
  induction h with
  | nil => exact fun _ hm => absurd hm List.not_mem_nil
  | snoc _ hk ih => exact fun name hm => (List.mem_append.1 hm).elim (ih name) fun hm => List.mem_singleton.1 hm ▸ hk.proper

theorem Leads.unsnoc {names : List Bytes} {name : Bytes} (h : w.Leads fs (names ++ [name])) : w.Leads fs names ∧ w.Kept fs names name := by
  generalize he : names ++ [name] = all at h
  cases h with
  | nil => exact absurd he (by simp)
  | snoc h hk =>
    obtain ⟨rfl, hname⟩ := List.append_inj' he rfl
    cases hname
    exact ⟨h, hk⟩

theorem pathBody_join (base : Bytes) (names : List Bytes) (h : ∀ name ∈ names, ProperName name) :
    pathBody (DirTree.join base names) = pathBody base ++ names.map .normal := by
  induction names using List.reverseRecOn with
  | nil => exact (List.append_nil _).symm
  | append_singleton names name ih =>
    rw [join_snoc, pathBody_pushComponent _ (h name (by simp)), ih fun n hm => h n (List.mem_append_left _ hm), List.map_append,
      List.append_assoc]
    rfl

/-- Proper names are told by the path they make. -/
theorem join_injective {base : Bytes} {names names' : List Bytes} (h : ∀ name ∈ names, ProperName name)
    (h' : ∀ name ∈ names', ProperName name) (he : DirTree.join base names = DirTree.join base names') : names = names' := by
  have hbody := congrArg pathBody he
  rw [pathBody_join base names h, pathBody_join base names' h'] at hbody
  exact List.map_injective_iff.2 (fun a b hab => by cases hab; rfl) (List.append_cancel_left hbody)

/-- A job that reads where the names lead. -/
def At (w : Walk) (job : Job) (names : List Bytes) : Prop :=
  job.path = DirTree.join w.target.scanPath names ∧ job.depth = names.length

theorem At.spells {job : Job} {names : List Bytes} (h : w.At job names) : Spells w job names :=
  ⟨h.1, by rw [h.2, List.length_pos_iff]⟩

/-- In a listing of this file system the walk goes into the names it keeps. -/
theorem enters_iff {job : Job} {names : List Bytes} (h : w.At job names) {e : Entry} (hp : ProperName e.name)
    (hs : e.stat = fs.look w.target.followSymlinks (pushComponent job.path e.name)) : w.Enters job e ↔ w.Kept fs names e.name := by
  have hshown : w.excludes job e.name =
      (!w.target.exclude.isEmpty && w.target.exclude.isMatch (DirTree.join w.target.displayPath (names ++ [e.name]))) := by
    unfold excludes
    rw [h.spells.displayDir, join_snoc]
  rw [h.1, ← join_snoc] at hs
  constructor
  · rintro ⟨-, hx, stat, he, hdev, hk, hd⟩
    exact ⟨hp, hshown ▸ hx, ⟨stat, hs ▸ he, hdev, hk⟩, h.2 ▸ hd⟩
  · rintro ⟨-, hx, ⟨stat, he, hdev, hk⟩, hd⟩
    exact ⟨isDot_of_proper hp, hshown ▸ hx, stat, hs ▸ he, hdev, hk, h.2 ▸ hd⟩

/-- Where a walk goes there is a directory. -/
theorem Leads.directory {names : List Bytes} (h : w.Leads fs names)
    (hr : ∃ s, fs.look w.target.followSymlinks w.target.scanPath = .ok s ∧ s.kind = .directory) :
    ∃ s, fs.look w.target.followSymlinks (DirTree.join w.target.scanPath names) = .ok s ∧ s.kind = .directory := by
  cases h with
  | nil => exact hr
  | snoc _ hk =>
    obtain ⟨stat, hs, -, hd⟩ := hk.directory
    exact ⟨stat, hs, hd⟩

/-- What is kept is listed. -/
theorem Kept.listed {names : List Bytes} {name : Bytes} (h : w.Kept fs names name) :
    ∃ s, fs.lstat (DirTree.join w.target.scanPath (names ++ [name])) = .ok s := by
  obtain ⟨stat, hs, -, -⟩ := h.directory
  unfold FileTree.look at hs
  split at hs
  · exact (fs.below _ _ hs).2
  · exact ⟨stat, hs⟩

end Names

/-! ## The walk -/

/-- Opening a directory, before anything else is done with it. -/
def Progress.opens : Progress → Nat → Bytes → Prop
  | .opening job => fun node path => node = job.node ∧ path = job.path
  | .reading _ => fun _ _ => False

/-- What will be read on account of a job: its directory, then what that has in it. -/
def Progress.expects (w : Walk) : Progress → Bytes × Nat → Prop
  | .opening job => fun x => x = (job.path, job.depth)
  | .reading p => fun x => x ∈ p.ahead ∨ ∃ e ∈ p.left, w.Enters p.job e ∧ x = (childPath p.job.path e.name, p.job.depth + 1)

/-- A directory is queued, or will be by a worker at work. -/
def Waiting {n : Nat} (w : Walk) (b : Bag n Job Progress Worker Shared) (x : Bytes × Nat) : Prop :=
  (∃ job ∈ b.pending, x = (job.path, job.depth)) ∨ ∃ i job p, b.active i = some (job, p) ∧ p.expects w x

section Waiting

variable {n : Nat} {w : Walk} {b : Bag n Job Progress Worker Shared} {i : Fin (n + 1)} {job : Job} {p : Progress} {x : Bytes × Nat}

theorem waiting_start {rest : Multiset Job} (hi : b.active i = none) (hj : b.pending = {job} + rest) :
    Waiting w { b with pending := rest, active := Function.update b.active i (some (job, .opening job)) } x ↔ Waiting w b x := by
  constructor
  · rintro (⟨job', hm, hx⟩ | ⟨i', job', p', ha, hx⟩)
    · exact .inl ⟨job', by rw [hj]; exact Multiset.mem_add.2 (.inr hm), hx⟩
    · change Function.update b.active i _ i' = _ at ha
      rw [Function.update_apply] at ha
      split at ha
      · cases ha
        exact .inl ⟨job, by rw [hj]; exact Multiset.mem_add.2 (.inl (Multiset.mem_singleton_self job)), hx⟩
      · exact .inr ⟨i', job', p', ha, hx⟩
  · rintro (⟨job', hm, hx⟩ | ⟨i', job', p', ha, hx⟩)
    · rw [hj] at hm
      rcases Multiset.mem_add.1 hm with hm | hm
      · rw [Multiset.mem_singleton.1 hm] at hx
        exact .inr ⟨i, job, .opening job, Function.update_self .., hx⟩
      · exact .inl ⟨job', hm, hx⟩
    · refine .inr ⟨i', job', p', ?_, hx⟩
      show Function.update b.active i _ i' = _
      rw [Function.update_of_ne (fun he => by rw [he, hi] at ha; cases ha)]
      exact ha

/-- Another worker's step, or none of this one's, leaves what it waits for. -/
theorem waiting_step (hi : b.active i = some (job, p)) (h : Waiting w b x) :
    p.expects w x ∨ ∀ (a : Option (Job × Progress)) (more : Multiset Job) (data : Fin (n + 1) → Worker) (shared : Shared),
      Waiting w ⟨b.pending + more, Function.update b.active i a, data, shared⟩ x := by
  rcases h with ⟨job', hm, hx⟩ | ⟨i', job', p', ha, hx⟩
  · exact .inr fun a more data shared => .inl ⟨job', Multiset.mem_add.2 (.inl hm), hx⟩
  · by_cases he : i' = i
    · rw [he, hi] at ha
      cases ha
      exact .inl hx
    · exact .inr fun a more data shared => .inr ⟨i', job', p', (Function.update_of_ne he ..).trans ha, hx⟩

theorem of_waiting_step {a : Option (Job × Progress)} {more : Multiset Job} {data : Fin (n + 1) → Worker} {shared : Shared}
    (h : Waiting w ⟨b.pending + more, Function.update b.active i a, data, shared⟩ x) :
    Waiting w b x ∨ (∃ job ∈ more, x = (job.path, job.depth)) ∨ ∃ job p, a = some (job, p) ∧ p.expects w x := by
  rcases h with ⟨job', hm, hx⟩ | ⟨i', job', p', ha, hx⟩
  · rcases Multiset.mem_add.1 hm with hm | hm
    · exact .inl (.inl ⟨job', hm, hx⟩)
    · exact .inr (.inl ⟨job', hm, hx⟩)
  · change Function.update b.active i a i' = _ at ha
    rw [Function.update_apply] at ha
    split at ha
    · exact .inr (.inr ⟨job', p', ha, hx⟩)
    · exact .inl (.inr ⟨i', job', p', ha, hx⟩)

/-- Reading an entry leaves what is expected of the directory. -/
theorem expects_entry {p : InDir} {e : Entry} {rest : List Entry} (hl : p.left = e :: rest) (d : Worker) (k : Nat) :
    (Progress.reading (w.readEntry e { p with left := rest } d k).1).expects w x ↔ (Progress.reading p).expects w x := by
  have hkept := readEntry_kept w e { p with left := rest } d k
  show x ∈ (w.readEntry e { p with left := rest } d k).1.ahead ∨ (∃ e' ∈ (w.readEntry e { p with left := rest } d k).1.left, _) ↔ _
  rw [readEntry_ahead, hkept.left, hkept.job]
  show (x ∈ p.ahead ∨ _) ∨ _ ↔ x ∈ p.ahead ∨ ∃ e' ∈ p.left, _
  rw [hl]
  simp only [List.mem_cons, exists_eq_or_imp]
  tauto

end Waiting

/-- A walk has opened, or will, whatever is kept of what it has opened, and nothing else. -/
structure Roaming {n : Nat} (w : Walk) (fs : FileTree) (b : Bag n Job Progress Worker Shared) (noted : Nat → Bytes → Prop) : Prop where
  sound : ∀ x, Waiting w b x → ∃ names, w.Leads fs names ∧ x = (DirTree.join w.target.scanPath names, names.length)
  went : ∀ node path, noted node path → ∃ names, w.Leads fs names ∧ path = DirTree.join w.target.scanPath names
  root : (∃ node, noted node w.target.scanPath) ∨ Waiting w b (w.target.scanPath, 0)
  closed : ∀ names, w.Leads fs names → (∃ node, noted node (DirTree.join w.target.scanPath names)) → ∀ name, w.Kept fs names name →
    (∃ node, noted node (DirTree.join w.target.scanPath (names ++ [name]))) ∨
      Waiting w b (DirTree.join w.target.scanPath (names ++ [name]), names.length + 1)

section Roaming

variable {n : Nat} {w : Walk} {fs : FileTree} {b : Bag n Job Progress Worker Shared} {noted : Nat → Bytes → Prop} {i : Fin (n + 1)}

theorem Roaming.start (h : Roaming w fs b noted) {job : Job} {rest : Multiset Job} (hi : b.active i = none)
    (hj : b.pending = {job} + rest) :
    Roaming w fs { b with pending := rest, active := Function.update b.active i (some (job, .opening job)) } noted :=
  ⟨fun x hx => h.sound x ((waiting_start hi hj).1 hx), h.went, h.root.imp id (waiting_start hi hj).2,
    fun names hl hn name hk => (h.closed names hl hn name hk).imp id (waiting_start hi hj).2⟩

/-- A step after which all that was expected is expected still, or opened. -/
theorem Roaming.step (h : Roaming w fs b noted) {job : Job} {p : Progress} (hi : b.active i = some (job, p)) {a : Option (Job × Progress)}
    {more : Multiset Job} {data : Fin (n + 1) → Worker} {shared : Shared} {news : Nat → Bytes → Prop}
    (hkept : ∀ x, p.expects w x → (∃ node, news node x.1) ∨ Waiting w ⟨b.pending + more, Function.update b.active i a, data, shared⟩ x)
    (hmore : ∀ c ∈ more, p.expects w (c.path, c.depth))
    (hnext : ∀ job p', a = some (job, p') → ∀ x, p'.expects w x → ∃ names, w.Leads fs names ∧
      x = (DirTree.join w.target.scanPath names, names.length))
    (hnews : ∀ node path, news node path → ∃ names, w.Leads fs names ∧ path = DirTree.join w.target.scanPath names ∧
      ∀ name, w.Kept fs names name →
        Waiting w ⟨b.pending + more, Function.update b.active i a, data, shared⟩
          (DirTree.join w.target.scanPath (names ++ [name]), names.length + 1)) :
    Roaming w fs ⟨b.pending + more, Function.update b.active i a, data, shared⟩ fun node path => noted node path ∨ news node path := by
  have hknown : ∀ x, ((∃ node, noted node x.1) ∨ Waiting w b x) → (∃ node, noted node x.1 ∨ news node x.1) ∨
      Waiting w ⟨b.pending + more, Function.update b.active i a, data, shared⟩ x := by
    rintro x (⟨node, hx⟩ | hx)
    · exact .inl ⟨node, .inl hx⟩
    · rcases waiting_step hi hx with hx | hx
      · exact (hkept x hx).imp (fun ⟨node, hn⟩ => ⟨node, .inr hn⟩) id
      · exact .inr (hx ..)
  refine ⟨fun x hx => ?_, fun node path hn => ?_, hknown (w.target.scanPath, 0) h.root,
    fun names hl hn name hk => ?_⟩
  · rcases of_waiting_step hx with hx | ⟨c, hc, rfl⟩ | ⟨job', p', ha, hx⟩
    · exact h.sound x hx
    · exact h.sound _ (.inr ⟨i, job, p, hi, hmore c hc⟩)
    · exact hnext job' p' ha x hx
  · rcases hn with hn | hn
    · exact h.went node path hn
    · obtain ⟨names, hl, hp, -⟩ := hnews node path hn
      exact ⟨names, hl, hp⟩
  · obtain ⟨node, hn | hn⟩ := hn
    · exact hknown (DirTree.join w.target.scanPath (names ++ [name]), names.length + 1) (h.closed names hl ⟨node, hn⟩ name hk)
    · obtain ⟨names', hl', hp, hwait⟩ := hnews node _ hn
      obtain rfl := join_injective hl.proper hl'.proper hp
      exact .inr (hwait name hk)

theorem Roaming.more {host : Host} (hs : host.Shows fs w.target.followSymlinks) (h : Roaming w fs b noted)
    (hr : ∃ s, fs.look w.target.followSymlinks w.target.scanPath = .ok s ∧ s.kind = .directory) {job : Job} {p p' : Progress}
    {d' : Worker} {s' : Shared} {interrupted : Bool} (hi : b.active i = some (job, p))
    (ht : ReadStep w host.listing interrupted p (b.data i) b.shared (.more p' d' s')) :
    Roaming w fs { b with active := Function.update b.active i (some (job, p')), data := Function.update b.data i d', shared := s' }
      fun node path => noted node path ∨ p.opens node path := by
  have hwhole : ∀ {names : List Bytes} {job' : Job}, (job'.path, job'.depth) = (DirTree.join w.target.scanPath names, names.length) →
      w.At job' names := fun h => ⟨congrArg Prod.fst h, congrArg Prod.snd h⟩
  rw [← add_zero b.pending]
  have hexpected : ∀ x, p'.expects w x → Waiting w ⟨b.pending + 0, Function.update b.active i (some (job, p')),
      Function.update b.data i d', s'⟩ x := fun x hx => .inr ⟨i, job, p', Function.update_self .., hx⟩
  cases ht with
  | @opened job' reading _ _ hread =>
    -- the job's directory is opened, and what it keeps is left to be read
    obtain ⟨names, hl, hat⟩ := h.sound (job'.path, job'.depth) (.inr ⟨i, job, _, hi, rfl⟩)
    have hat := hwhole hat
    obtain ⟨stat, hstat, hdir⟩ := hl.directory hr
    obtain ⟨_, he, hlists⟩ := hs.listing _ _ (hat.1 ▸ hstat) hdir _ hread
    cases he
    refine h.step hi (fun x hx => .inl ⟨job'.node, rfl, congrArg Prod.fst hx⟩) (fun c hc => absurd hc (Multiset.notMem_zero c)) ?_ ?_
    · rintro job p' hp x hx
      cases hp
      rcases hx with hx | ⟨e, he, hin, rfl⟩
      · cases hx
      · rcases hlists.entry e he with hdot | ⟨hproper, hlook⟩
        · exact absurd (hin.1.symm.trans hdot) Bool.false_ne_true
        · refine ⟨names ++ [e.name], hl.snoc ((enters_iff hat hproper hlook).1 hin), ?_⟩
          rw [join_snoc, List.length_append, ← hat.1]
          exact congrArg (Prod.mk _) (congrArg Nat.succ hat.2)
    · rintro node path ⟨-, rfl⟩
      refine ⟨names, hl, hat.1, fun name hk => hexpected _ (.inr ?_)⟩
      obtain ⟨s, hlstat⟩ := hk.listed
      rw [join_snoc, ← hat.1] at hlstat
      obtain ⟨e, he, rfl⟩ := hlists.all name hk.proper ⟨s, hlstat⟩
      rcases hlists.entry e he with hdot | ⟨hproper, hlook⟩
      · exact absurd ((isDot_of_proper hk.proper).symm.trans hdot) Bool.false_ne_true
      · refine ⟨e, he, (enters_iff hat hproper hlook).2 hk, ?_⟩
        rw [join_snoc, ← hat.1]
        exact congrArg (Prod.mk _) (congrArg Nat.succ hat.2.symm)
  | @entry p₀ e rest _ _ hl hint =>
    refine h.step hi (fun x hx => .inr (hexpected x ((expects_entry hl _ _).2 hx))) (fun c hc => absurd hc (Multiset.notMem_zero c))
      ?_ fun _ _ hn => hn.elim
    rintro job p' hp x hx
    cases hp
    exact h.sound x (.inr ⟨i, _, _, hi, (expects_entry hl _ _).1 hx⟩)

theorem Roaming.done {host : Host} (hs : host.Shows fs w.target.followSymlinks) (h : Roaming w fs b noted)
    (hr : ∃ s, fs.look w.target.followSymlinks w.target.scanPath = .ok s ∧ s.kind = .directory) {job : Job} {p : Progress}
    {children : List Job} {d' : Worker} {s' : Shared} {interrupted : Bool} (hi : b.active i = some (job, p))
    (ht : ReadStep w host.listing interrupted p (b.data i) b.shared (.done children d' s')) :
    Roaming w fs ⟨b.pending + children, Function.update b.active i none, Function.update b.data i d', s'⟩ noted := by
  have hend : ∀ x, p.expects w x ↔ ∃ c ∈ children, x = (c.path, c.depth) := by
    have hplaces : ∀ (p₀ : InDir) (nodes : List TrackedNode) x, p₀.left = [] →
        ((Progress.reading p₀).expects w x ↔ ∃ c ∈ p₀.jobs nodes, x = (c.path, c.depth)) := by
      intro p₀ nodes x hl
      show x ∈ p₀.ahead ∨ (∃ e ∈ p₀.left, _) ↔ _
      rw [hl, ← places_jobs p₀ nodes, List.mem_map]
      simp [eq_comm]
    cases ht with
    | @unopened job' _ _ _ _ hread =>
      -- a directory of this file system is always opened
      obtain ⟨names, hl, hat⟩ := h.sound (job'.path, job'.depth) (.inr ⟨i, job, _, hi, rfl⟩)
      obtain ⟨stat, hstat, hdir⟩ := hl.directory hr
      have hpath : job'.path = _ := congrArg Prod.fst hat
      obtain ⟨_, he, -⟩ := hs.listing _ _ (hpath ▸ hstat) hdir _ hread
      cases he
    | closed hl hf => exact fun x => hplaces _ _ x hl
    | closedEarly hl hf htol => exact fun x => hplaces _ _ x hl
  have hstep : Roaming w fs ⟨b.pending + children, Function.update b.active i none, Function.update b.data i d', s'⟩
      fun node path => noted node path ∨ False := by
    refine h.step hi (fun x hx => .inr (.inl ?_)) (fun c hc => (hend _).2 ⟨c, Multiset.mem_coe.1 hc, rfl⟩)
      (fun _ _ ha => by cases ha) fun _ _ hn => hn.elim
    obtain ⟨c, hc, rfl⟩ := (hend x).1 hx
    exact ⟨c, Multiset.mem_add.2 (.inr (Multiset.mem_coe.2 hc)), rfl⟩
  simpa only [or_false] using hstep

/-- In every state of a walk of this file system. -/
theorem roaming_of_noting {host : Host} (hs : host.Shows fs w.target.followSymlinks)
    (hr : ∃ s, fs.look w.target.followSymlinks w.target.scanPath = .ok s ∧ s.kind = .directory) {data : Fin (n + 1) → Worker}
    {root : TrackedNode} (h : Noting (fun _ => Progress.opens) w host data root b noted) : Roaming w fs b noted := by
  induction h with
  | initial =>
    refine ⟨fun x hx => ?_, fun _ _ hn => hn.elim, .inr (.inl ⟨_, Multiset.mem_singleton_self _, rfl⟩), fun names _ hn => ?_⟩
    · rcases hx with ⟨job, hj, rfl⟩ | ⟨_, _, _, ha, -⟩
      · rw [Multiset.mem_singleton.1 hj]
        exact ⟨[], .nil, rfl⟩
      · cases ha
    · obtain ⟨_, hn⟩ := hn
      exact hn.elim
  | start h hi hj ih => exact ih.start hi hj
  | more h hi ht ih => exact ih.more hs hr hi ht
  | done h hi ht ih => exact ih.done hs hr hi ht

/-- When no directory is left to read, those opened are those the kept names lead to. -/
theorem Roaming.opened (h : Roaming w fs b noted) (hp : b.pending = 0) (ha : ∀ i, b.active i = none) (path : Bytes) :
    (∃ node, noted node path) ↔ ∃ names, w.Leads fs names ∧ path = DirTree.join w.target.scanPath names := by
  have hnone : ∀ x, ¬Waiting w b x := by
    rintro x (⟨job, hj, -⟩ | ⟨i, _, _, hi, -⟩)
    · rw [hp] at hj
      exact Multiset.notMem_zero job hj
    · rw [ha i] at hi
      cases hi
  constructor
  · rintro ⟨node, hn⟩
    exact h.went node path hn
  · rintro ⟨names, hl, rfl⟩
    induction hl with
    | nil => exact h.root.resolve_right (hnone _)
    | snoc hl hk ih => exact (h.closed _ hl ih _ hk).resolve_right (hnone _)

end Roaming

/-! ## Scans -/

/-- A scan that comes back with a result, and the directories it opened. -/
inductive OpenScan (host : Host) (target : Target) (hash : Bytes → Nat) : (Bytes → Prop) → Prop
  /-- The root is left out, no directory, or not to be read. -/
  | unread {result : ScanResult} {root : Stat} (h : Scans host target hash (.ok result))
      (hs : host.stat target.scanPath target.followSymlinks (.ok root))
      (hn : excludesRoot target = true ∨ root.kind ≠ .directory ∨ target.maxDepth = some 0) :
      OpenScan host target hash fun _ => False
  | walked {root : Stat} {handle : Option Handle} {n : Nat} {s : WorkPool.State n Job Progress Worker Shared Failure}
      {noted : Nat → Bytes → Prop} {result : ScanResult} (hs : host.stat target.scanPath target.followSymlinks (.ok root))
      (hx : excludesRoot target = false) (hk : root.kind = .directory) (hh : RootHandle host target handle)
      (hm : target.maxDepth ≠ some 0) (hz : 0 ∉ target.scanPath) (hn : n + 1 = max target.scanThreads 1)
      (hr : Walking host (start target root hash) root handle s) (ho : ∀ i, (s.phase i).isOver = true)
      (hd : Noting (fun _ => Progress.opens) (start target root hash) host (workerData n target root) (rootNode target root handle) s.bag noted)
      (hok : (start target root hash).outcome s = .ok result) :
      OpenScan host target hash fun path => ∃ node, noted node path

section Scans

variable {host : Host} {target : Target} {hash : Bytes → Nat} {fs : FileTree}

/-- Every scan that comes back with a result opened some directories, or none. -/
theorem openScan_of_scan {result : ScanResult} (h : Scans host target hash (.ok result)) :
    ∃ opened, OpenScan host target hash opened := by
  have hscan := h
  generalize hr : Except.ok result = r at h
  cases h with
  | unstated | nul => cases hr
  | excluded hs hx => exact ⟨_, .unread hscan hs (.inl hx)⟩
  | single hs hx hk => exact ⟨_, .unread hscan hs (.inr (.inl hk))⟩
  | shallow hs hx hk hh hm => exact ⟨_, .unread hscan hs (.inr (.inr hm))⟩
  | @walked root handle n s hs hx hk hh hm hz hn hw ho =>
    obtain ⟨hv, -⟩ := outcome_ok hr.symm
    have hi : WorkPool.Inv s := hw.inv
    obtain ⟨noted, hd⟩ := tracing_of_reachable (noter fun _ => Progress.opens) (hw.bag (hi.ok ho hv))
    exact ⟨_, .walked hs hx hk hh hm hz hn hw ho hd hr.symm⟩

/-- A scan of `target` reads the directory that `names` lead to. -/
structure Reads (fs : FileTree) (target : Target) (hash : Bytes → Nat) (root : Stat) (names : List Bytes) : Prop where
  found : fs.look target.followSymlinks target.scanPath = .ok root
  directory : root.kind = .directory
  shown : excludesRoot target = false
  deep : target.maxDepth ≠ some 0
  leads : (start target root hash).Leads fs names

/-- A scan opens the directories that kept names lead to, and no others. -/
theorem OpenScan.opened_iff {opened : Bytes → Prop} (h : OpenScan host target hash opened) (hs : host.Shows fs target.followSymlinks)
    (path : Bytes) : opened path ↔ ∃ root names, Reads fs target hash root names ∧ path = DirTree.join target.scanPath names := by
  cases h with
  | @unread result root h hstat hn =>
    refine ⟨fun hf => hf.elim, ?_⟩
    rintro ⟨root', names, hr, -⟩
    have hroot := (hs.stat _ _ hstat).trans hr.found
    cases hroot
    rcases hn with hn | hn | hn
    · exact absurd (hr.shown.symm.trans hn) Bool.false_ne_true
    · exact hn hr.directory
    · exact hr.deep hn
  | @walked root handle n s noted result hstat hx hk hh hm hz hn hw ho hd hok =>
    have hroot := (hs.stat _ _ hstat).symm
    obtain ⟨hv, -⟩ := outcome_ok hok
    have hi : WorkPool.Inv s := hw.inv
    have hempty := hi.bag_done ho (hi.ok ho hv)
    have hroam := roaming_of_noting (w := start target root hash) hs ⟨root, hroot, hk⟩ hd
    rw [hempty] at hroam
    refine (hroam.opened rfl (fun _ => rfl) path).trans ?_
    constructor
    · rintro ⟨names, hl, hp⟩
      exact ⟨root, names, ⟨hroot, hk, hx, hm, hl⟩, hp⟩
    · rintro ⟨root', names, hr, hp⟩
      cases hroot.symm.trans hr.found
      exact ⟨names, hr.leads, hp⟩

end Scans

end Walk

end StorageHarvester
