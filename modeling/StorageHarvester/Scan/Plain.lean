/-
The singly linked files a walk for fanotify records. Which ones it met in a directory is no data of
the scanner: it is noted beside the walk, and when the walk is over each has its key in the tree's
record, under the directory it was met in.
-/
import StorageHarvester.Scan.Times
import StorageHarvester.Scan.Traced

namespace StorageHarvester

open WorkPool (Bag BagReachable)

/-- The regular files with one link that were met in each directory when it was last read. -/
abbrev Seen := Nat → Inode → Prop

/-- An entry that reading a directory counts, and counts as a regular file with one link. -/
def SingleEntry (target : Target) (displayPath : Bytes) (rootDev : Nat) (e : Entry) (inode : Inode) : Prop :=
  Walk.isDot e.name = false ∧
    (!target.exclude.isEmpty && target.exclude.isMatch (pushComponent displayPath e.name)) = false ∧
    ∃ stat, e.stat = .ok stat ∧ (target.noCrossFilesystem && decide (stat.dev ≠ rootDev)) = false ∧ stat.kind = .file ∧
      stat.nlink ≤ 1 ∧ inode = (stat.dev, stat.ino)

namespace Walk

/-- The states of a walk's bag of jobs, each with what the steps on the way to it noted. -/
abbrev Noting {α : Type} (note : Walk → Progress → Nat → α → Prop) (w : Walk) (host : Host) {n : Nat} (data : Fin (n + 1) → Worker)
    (root : TrackedNode) : Bag n Job Progress Worker Shared → (Nat → α → Prop) → Prop :=
  Tracing (noter note) w host data root

/-! ## What a walk meets -/

/-- The singly linked file that reading the next entry meets directly in a tracked directory. -/
def Progress.meets (w : Walk) : Progress → Seen
  | .opening _ => fun _ _ => False
  | .reading p => fun node inode =>
    p.job.tracked = true ∧ p.job.node = node ∧
      ∃ e rest, p.left = e :: rest ∧ SingleEntry w.target (w.displayDir p.job) w.rootDev e inode

/-- The key of a file as the walk and the index spell it. -/
def keyOf (inode : Inode) : Nat := plainKey inode.1 inode.2

/-- Reading an entry adds to the record only under the directory's node, and adds what it meets. -/
theorem readEntry_plain (w : Walk) (e : Entry) (p : InDir) (d : Worker) (k : Nat) :
    ∃ added, (w.readEntry e p d k).2.1.plain = d.plain ++ added ∧ (∀ x ∈ added, x.2 = p.job.node) ∧
      ∀ inode, w.target.collectHandles = true → SingleEntry w.target (w.displayDir p.job) w.rootDev e inode →
        (keyOf inode, p.job.node) ∈ added := by
  -- where the worker records nothing it is enough that the entry is no singly linked file
  have hnone : ∀ d' : Worker, d'.plain = d.plain → (∀ inode, ¬SingleEntry w.target (w.displayDir p.job) w.rootDev e inode) →
      ∃ added, d'.plain = d.plain ++ added ∧ (∀ x ∈ added, x.2 = p.job.node) ∧
        ∀ inode, w.target.collectHandles = true → SingleEntry w.target (w.displayDir p.job) w.rootDev e inode →
          (keyOf inode, p.job.node) ∈ added :=
    fun d' hd hno => ⟨[], by rw [hd, List.append_nil], fun x hx => absurd hx List.not_mem_nil, fun inode _ hs => absurd hs (hno inode)⟩
  unfold readEntry
  by_cases hdot : isDot e.name = true
  · rw [if_pos hdot]
    exact hnone d rfl fun inode hs => by rw [hs.1] at hdot; cases hdot
  rw [if_neg hdot]
  by_cases hx : w.excludes p.job e.name = true
  · rw [if_pos hx]
    refine hnone _ rfl fun inode hs => ?_
    have hx' : w.excludes p.job e.name = false := hs.2.1
    rw [hx'] at hx
    cases hx
  rw [if_neg hx]
  cases he : e.stat with
  | error err =>
    simp only
    have hno : ∀ inode, ¬SingleEntry w.target (w.displayDir p.job) w.rootDev e inode := by
      rintro inode ⟨-, -, stat, hs, -⟩
      rw [he] at hs
      cases hs
    split
    · exact hnone _ rfl hno
    · exact hnone _ rfl hno
  | ok stat =>
    simp only
    have hstat : ∀ {inode}, SingleEntry w.target (w.displayDir p.job) w.rootDev e inode →
        (w.target.noCrossFilesystem && decide (stat.dev ≠ w.rootDev)) = false ∧ stat.kind = .file ∧ stat.nlink ≤ 1 ∧
          inode = (stat.dev, stat.ino) := by
      rintro inode ⟨-, -, stat', hs, hrest⟩
      rw [he] at hs
      cases hs
      exact hrest
    by_cases hdev : (w.target.noCrossFilesystem && decide (stat.dev ≠ w.rootDev)) = true
    · rw [if_pos hdev]
      refine hnone _ rfl fun inode hs => ?_
      rw [(hstat hs).1] at hdev
      cases hdev
    rw [if_neg hdev]
    -- files, symlinks and others go the same way; only a file's key is recorded
    have hfile : ∀ (q : InDir) (d' : Worker), q.job = p.job → d'.plain = d.plain →
        ∃ added, (w.readFile e stat q d').2.plain = d.plain ++ added ∧ (∀ x ∈ added, x.2 = p.job.node) ∧
          ∀ inode, w.target.collectHandles = true → SingleEntry w.target (w.displayDir p.job) w.rootDev e inode →
            (keyOf inode, p.job.node) ∈ added := by
      intro q d' hq hd
      by_cases hs : 1 < stat.nlink ∨ w.target.collectHandles = false ∨ stat.kind ≠ .file
      · refine ⟨[], ?_, fun x hx => absurd hx List.not_mem_nil, fun inode hc hse => ?_⟩
        · show (if (!decide (1 < stat.nlink) && w.target.collectHandles && decide (stat.kind = .file)) = true then _ else _) = _
          rw [if_neg (by rcases hs with hs | hs | hs <;> simp [hs]), hd, List.append_nil]
        · obtain ⟨-, hk, hl, -⟩ := hstat hse
          rcases hs with hs | hs | hs
          · omega
          · exact absurd (hs.symm.trans hc) Bool.false_ne_true
          · exact absurd hk hs
      · rw [not_or, not_or, not_lt, Bool.not_eq_false, not_not] at hs
        obtain ⟨hl, hc, hk⟩ := hs
        refine ⟨[(plainKey stat.dev stat.ino, p.job.node)], ?_, fun x hx => ?_, fun inode _ hse => ?_⟩
        · show (if (!decide (1 < stat.nlink) && w.target.collectHandles && decide (stat.kind = .file)) = true then
              d'.plain ++ [(plainKey stat.dev stat.ino, q.job.node)] else _) = _
          rw [if_pos (by simp [hl, hc, hk]), hd, hq]
        · rw [List.mem_singleton.1 hx]
        · rw [(hstat hse).2.2.2]
          exact List.mem_singleton_self _
    cases hk : stat.kind with
    | directory =>
      have hsub : ∀ (q : InDir) (d' : Worker), (w.readSubdir e stat q d' k).2.1.plain = d'.plain := by
        intro q d'
        unfold readSubdir
        dsimp only
        split
        · split
          · rfl
          · split <;> rfl
        · split <;> rfl
      refine hnone _ (hsub _ _) fun inode hs => ?_
      rw [(hstat hs).2.1] at hk
      cases hk
    | file => exact hfile _ _ rfl rfl
    | symlink => exact hfile _ _ rfl rfl
    | other => exact hfile _ _ rfl rfl

/-- What was met is on record, and the record is of directories with a node. -/
structure Recording {n : Nat} (b : Bag n Job Progress Worker Shared) (seen : Seen) : Prop extends Registering b where
  recorded : ∀ node inode, seen node inode → ∃ i, (keyOf inode, node) ∈ (b.data i).plain
  below : ∀ i, ∀ x ∈ (b.data i).plain, x.2 < b.shared.nodes.length

section Steps

variable {n : Nat} {w : Walk} {kernel : Kernel} {b : Bag n Job Progress Worker Shared} {seen : Seen} {i : Fin (n + 1)}

/-- A worker's record grew. -/
theorem recorded_update {d' : Worker} (hd : ∀ x ∈ (b.data i).plain, x ∈ d'.plain) {x : Nat × Nat}
    (h : ∃ j, x ∈ (b.data j).plain) : ∃ j, x ∈ (Function.update b.data i d' j).plain := by
  obtain ⟨j, hj⟩ := h
  refine ⟨j, ?_⟩
  rw [Function.update_apply]
  split
  · rename_i he
    exact hd x (he ▸ hj)
  · exact hj

theorem Recording.start (h : Recording b seen) {job : Job} {rest : Multiset Job} (hi : b.active i = none)
    (hj : b.pending = {job} + rest) :
    Recording { b with pending := rest, active := Function.update b.active i (some (job, .opening job)) } seen :=
  ⟨h.toRegistering.start hi hj, h.recorded, h.below⟩

theorem Recording.more (h : Recording b seen) (hc : w.target.collectHandles = true) {job : Job} {p p' : Progress} {d' : Worker}
    {s' : Shared} {interrupted : Bool} (hi : b.active i = some (job, p))
    (ht : ReadStep w kernel interrupted p (b.data i) b.shared (.more p' d' s')) :
    Recording { b with active := Function.update b.active i (some (job, p')), data := Function.update b.data i d', shared := s' }
      fun node inode => seen node inode ∨ p.meets w node inode := by
  have hplace := h.placed job (Bag.mem_jobs hi)
  have hjob := (h.active i job p hi).1
  have hstep : s'.nodes = b.shared.nodes ∧ ∃ added, d'.plain = (b.data i).plain ++ added ∧ (∀ x ∈ added, x.2 = job.node) ∧
      ∀ node inode, p.meets w node inode → (keyOf inode, node) ∈ added := by
    cases ht with
    | opened hr =>
      exact ⟨rfl, [], (List.append_nil _).symm, fun x hx => absurd hx List.not_mem_nil, fun _ _ hm => hm.elim⟩
    | @entry p₀ e rest _ _ hl hi' =>
      obtain ⟨added, hplain, hat, hmeets⟩ := readEntry_plain w e { p₀ with left := rest } (b.data i) b.shared.tracked
      refine ⟨rfl, added, hplain, fun x hx => (hat x hx).trans (congrArg Job.node hjob), ?_⟩
      rintro node inode ⟨-, rfl, e', rest', hl', hs⟩
      rw [hl] at hl'
      cases hl'
      exact hmeets inode hc hs
  obtain ⟨hnodes, added, hplain, hat, hmeets⟩ := hstep
  refine ⟨h.toRegistering.more hi ht, fun node inode hs => ?_, fun i' x hx => ?_⟩
  · rcases hs with hs | hs
    · exact recorded_update (fun x hx => by rw [hplain]; exact List.mem_append_left _ hx) (h.recorded node inode hs)
    · refine ⟨i, ?_⟩
      show _ ∈ (Function.update b.data i d' i).plain
      rw [Function.update_self, hplain]
      exact List.mem_append_right _ (hmeets node inode hs)
  · show x.2 < s'.nodes.length
    rw [hnodes]
    change x ∈ (Function.update b.data i d' i').plain at hx
    rw [Function.update_apply] at hx
    split at hx
    · rw [hplain] at hx
      rcases List.mem_append.1 hx with hx | hx
      · exact h.below i x hx
      · rw [hat x hx]
        exact hplace
    · exact h.below i' x hx

theorem Recording.done (h : Recording b seen) {job : Job} {p : Progress} {children : List Job} {d' : Worker} {s' : Shared}
    {interrupted : Bool} (hi : b.active i = some (job, p))
    (ht : ReadStep w kernel interrupted p (b.data i) b.shared (.done children d' s')) :
    Recording ⟨b.pending + children, Function.update b.active i none, Function.update b.data i d', s'⟩ seen := by
  have hstep : b.shared.nodes.length ≤ s'.nodes.length ∧ d'.plain = (b.data i).plain := by
    cases ht with
    | @unopened job' _ _ _ _ _ _ => exact ⟨(length_of_fixed (fixed_sealNode job' _)).ge, rfl⟩
    | @closed p₀ _ _ hl hf =>
      refine ⟨?_, rfl⟩
      rw [length_of_fixed (fixed_registered p₀ b.shared.nodes), List.length_append]
      exact Nat.le_add_right _ _
    | @closedEarly p₀ _ _ _ _ hl hf htol =>
      refine ⟨?_, rfl⟩
      show _ ≤ (p₀.registered (sealNode p₀.job b.shared.nodes)).length
      rw [length_of_fixed (fixed_registered p₀ _), List.length_append, length_of_fixed (fixed_sealNode _ _)]
      exact Nat.le_add_right _ _
  obtain ⟨hlen, hplain⟩ := hstep
  refine ⟨h.toRegistering.done hi ht, fun node inode hs => ?_, fun i' x hx => ?_⟩
  · exact recorded_update (fun x hx => by rw [hplain]; exact hx) (h.recorded node inode hs)
  · refine Nat.lt_of_lt_of_le ?_ hlen
    change x ∈ (Function.update b.data i d' i').plain at hx
    rw [Function.update_apply] at hx
    split at hx
    · rw [hplain] at hx
      exact h.below i x hx
    · exact h.below i' x hx

theorem Noting.recording {host : Host} {data : Fin (n + 1) → Worker} {root : TrackedNode}
    (hc : w.target.collectHandles = true) (hd : ∀ i, (data i).plain = []) (hp : root.parent = none)
    (h : Noting Progress.meets w host data root b seen) : Recording b seen := by
  induction h with
  | initial =>
    refine ⟨registering_of_reachable hp (@Tracing.initial _ (noter Progress.meets) w host n data root).reachable,
      fun _ _ hs => hs.elim, fun i x hx => ?_⟩
    change x ∈ (data i).plain at hx
    rw [hd i] at hx
    cases hx
  | start h hi hj ih => exact ih.start hi hj
  | more h hi ht ih => exact ih.more hc hi ht
  | done h hi ht ih => exact ih.done hi ht

end Steps

/-! ## Scans -/

/-- A tree a scan comes back with, and the singly linked files it met in each directory. -/
abbrev SeenScan (host : Host) (target : Target) (hash : Bytes → Nat) (t : DirTree) (seen : Seen) : Prop :=
  ∃ won, TracedScan (noter Progress.meets) host target hash t seen won

section Scans

variable {host : Host} {target : Target} {hash : Bytes → Nat} {t : DirTree} {seen : Seen}

/-- The record of singly linked files a tree of `count` directories comes with: in order of keys, and
of directories it has. -/
structure PlainRecord (plain : List (Nat × Nat)) (count : Nat) : Prop where
  sorted : plain.Pairwise fun a b => a.1 ≤ b.1
  below : ∀ x ∈ plain, x.2 < count

/-- What the workers recorded is in the tree, in order. -/
theorem plain_of_finish {w : Walk} {nodes : List TrackedNode} {workers : List Worker} (ht : (finish w nodes workers).tree = some t) :
    t.plain.Pairwise (fun a b => a.1 ≤ b.1) ∧ (∀ x, x ∈ t.plain ↔ ∃ d ∈ workers, x ∈ d.plain) ∧
      t.nodes.length = nodes.length := by
  obtain ⟨u, hu, rfl⟩ := Option.map_eq_some_iff.1 ht
  have hplain : u.plain = (workers.flatMap Worker.plain).insertionSort fun a b => a.1 < b.1 ∨ a.1 = b.1 ∧ a.2 ≤ b.2 := by
    unfold buildTree at hu
    split at hu
    · cases hu
    · cases hu
      rfl
  have htotal : Std.Total fun a b : Nat × Nat => a.1 < b.1 ∨ a.1 = b.1 ∧ a.2 ≤ b.2 := ⟨fun a b => by omega⟩
  have htrans : IsTrans (Nat × Nat) fun a b => a.1 < b.1 ∨ a.1 = b.1 ∧ a.2 ≤ b.2 := ⟨fun a b c => by omega⟩
  refine ⟨?_, fun x => ?_, (built_of_buildTree hu).1.length⟩
  · show u.plain.Pairwise _
    rw [hplain]
    refine (List.pairwise_insertionSort _ _).imp fun {a b} hab => ?_
    omega
  · show x ∈ u.plain ↔ _
    rw [hplain, List.mem_insertionSort, List.mem_flatMap]

/-- After a scan for fanotify every singly linked file met is on record. -/
theorem SeenScan.recorded (h : SeenScan host target hash t seen) (hc : target.collectHandles = true) :
    PlainRecord t.plain t.nodes.length ∧ ∀ node inode, seen node inode → (keyOf inode, node) ∈ t.plain := by
  obtain ⟨won, hscan⟩ := h
  obtain ⟨w, n, b, data, root, hb⟩ := hscan.bag
  have hrec := Noting.recording (hb.target_eq ▸ hc) hb.plain hb.parent hb.traced
  obtain ⟨hsorted, hmem, hlen⟩ := plain_of_finish hb.tree
  refine ⟨⟨hsorted, fun x hx => ?_⟩, fun node inode hs => ?_⟩
  · obtain ⟨d, hd, hxd⟩ := (hmem x).1 hx
    obtain ⟨i, rfl⟩ := List.mem_ofFn.1 hd
    rw [hlen]
    exact hrec.below i x hxd
  · obtain ⟨i, hi⟩ := hrec.recorded node inode hs
    exact (hmem _).2 ⟨b.data i, List.mem_ofFn.2 ⟨i, rfl⟩, hi⟩

end Scans

end Walk

end StorageHarvester
