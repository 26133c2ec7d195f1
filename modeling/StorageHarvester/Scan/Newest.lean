/-
The newest times of a scan. A file system's timestamps are in seconds and nanoseconds, which `to_stat`
makes nanoseconds of in 64 bits. What a walk examines in each directory is noted beside it, and the
newest time of a directory is the greatest of what the timestamps of the directory and of everything
examined below it are read as: the true seconds, where they fit.
-/
import StorageHarvester.Scan.Plain
import StorageHarvester.Scan.Visits

namespace StorageHarvester

open Forest
open WorkPool (Bag BagReachable)

/-! ## Timestamps -/

/-- A timestamp as `stat` gives it. -/
structure Stamp where
  sec : Int
  nsec : Nat
  sec_fits : i64Min ≤ sec ∧ sec ≤ i64Max
  nsec_lt : nsec < 1000000000

namespace Stamp

/-- What `to_stat` makes of it. The sum wraps, as arithmetic on `i64` does in a release build. -/
def nanos (s : Stamp) : Int := wrapI64 (wrapI64 (s.sec * 1000000000) + s.nsec)

/-- The timestamp in nanoseconds is an `i64`, and not the one that says there is no time. -/
def Fits (s : Stamp) : Prop := i64Min < s.sec * 1000000000 + s.nsec ∧ s.sec * 1000000000 + s.nsec ≤ i64Max

theorem nanos_eq (s : Stamp) : s.nanos = wrapI64 (s.sec * 1000000000 + s.nsec) := Int.bmod_add_bmod

/-- What a wrapped number is off by. -/
theorem wrapI64_spec (x : Int) : i64Min ≤ wrapI64 x ∧ wrapI64 x ≤ i64Max ∧ ∃ q, x = wrapI64 x + 2 ^ 64 * q := by
  unfold i64Min i64Max wrapI64
  have hpos : 0 < 2 ^ 64 := by decide
  have hlow := Int.le_bmod (x := x) hpos
  have hhigh := Int.bmod_lt (x := x) hpos
  refine ⟨by omega, by omega, x.bdiv (2 ^ 64), ?_⟩
  have := Int.bmod_add_bdiv x (2 ^ 64)
  omega

theorem noTime_le_nanos (s : Stamp) : noTime ≤ s.nanos := by
  rw [nanos_eq]
  exact (wrapI64_spec _).1

/-- A timestamp is read as its true seconds exactly when it fits. -/
theorem fits_iff (s : Stamp) : s.Fits ↔ toSeconds s.nanos = s.sec := by
  obtain ⟨hlow, hhigh, q, hq⟩ := wrapI64_spec (s.sec * 1000000000 + s.nsec)
  rw [← nanos_eq] at hlow hhigh hq
  have hsec := s.sec_fits
  have hnsec := s.nsec_lt
  unfold Fits toSeconds noTime
  unfold i64Min i64Max at *
  constructor
  · rintro ⟨h1, h2⟩
    have hq0 : q = 0 := by omega
    rw [hq0] at hq
    rw [if_neg (by omega)]
    omega
  · intro h
    by_cases hn : s.nanos = -2 ^ 63
    · -- no timestamp as far back as that wraps to the mark of none
      rw [if_pos hn] at h
      omega
    · rw [if_neg hn] at h
      have hq0 : q = 0 := by omega
      rw [hq0] at hq
      omega

end Stamp

/-! ## What a walk examines -/

/-- The paths examined in each directory, and in the directories below it without a node. -/
abbrev Examined := Nat → Bytes → Prop

namespace Walk

/-- An entry the directory being read takes the time of: it is not excluded, and on the file system. -/
def Examines (w : Walk) (job : Job) (e : Entry) (stat : Stat) : Prop :=
  isDot e.name = false ∧ w.excludes job e.name = false ∧ e.stat = .ok stat ∧
    (w.target.noCrossFilesystem && decide (stat.dev ≠ w.rootDev)) = false

/-- What reading the next entry examines. -/
def Progress.examines (w : Walk) : Progress → Examined
  | .opening _ => fun _ _ => False
  | .reading p => fun node path =>
    p.job.node = node ∧ ∃ e rest stat, p.left = e :: rest ∧ w.Examines p.job e stat ∧ path = childPath p.job.path e.name

/-- What reading an entry does to the newest time of the directory, and to the subdirectories to
register. -/
theorem readEntry_times (w : Walk) (e : Entry) (p : InDir) (d : Worker) (k : Nat) :
    ((∀ stat, ¬w.Examines p.job e stat) ∧ (w.readEntry e p d k).1.newest = p.newest ∧
        (w.readEntry e p d k).1.pending = p.pending) ∨
      ∃ stat, w.Examines p.job e stat ∧ (w.readEntry e p d k).1.newest = max p.newest stat.mtime ∧
        ((w.readEntry e p d k).1.pending = p.pending ∨ ∃ dir : PendingDir,
          (w.readEntry e p d k).1.pending = p.pending ++ [dir] ∧ dir.name = e.name ∧ dir.stat = stat) := by
  unfold readEntry
  by_cases hdot : isDot e.name = true
  · rw [if_pos hdot]
    exact .inl ⟨fun stat hs => Bool.false_ne_true (hs.1.symm.trans hdot), rfl, rfl⟩
  rw [if_neg hdot]
  by_cases hx : w.excludes p.job e.name = true
  · rw [if_pos hx]
    exact .inl ⟨fun stat hs => Bool.false_ne_true (hs.2.1.symm.trans hx), rfl, rfl⟩
  rw [if_neg hx]
  cases he : e.stat with
  | error err =>
    have hno : ∀ stat, ¬w.Examines p.job e stat := fun stat hs => by
      have hsame := he.symm.trans hs.2.2.1
      cases hsame
    simp only
    split <;> exact .inl ⟨hno, rfl, rfl⟩
  | ok stat =>
    simp only
    by_cases hdev : (w.target.noCrossFilesystem && decide (stat.dev ≠ w.rootDev)) = true
    · rw [if_pos hdev]
      refine .inl ⟨fun stat' hs => ?_, rfl, rfl⟩
      have hsame := he.symm.trans hs.2.2.1
      cases hsame
      exact Bool.false_ne_true (hs.2.2.2.symm.trans hdev)
    · rw [if_neg hdev]
      have hexamines : w.Examines p.job e stat :=
        ⟨Bool.not_eq_true _ ▸ hdot, Bool.not_eq_true _ ▸ hx, he, Bool.not_eq_true _ ▸ hdev⟩
      refine .inr ⟨stat, hexamines, ?_⟩
      split
      · unfold readSubdir
        dsimp only
        split
        · split
          · exact ⟨rfl, .inr ⟨_, rfl, rfl, rfl⟩⟩
          · split <;> exact ⟨rfl, .inl rfl⟩
        · split <;> exact ⟨rfl, .inl rfl⟩
      · exact ⟨rfl, .inl rfl⟩

/-! ## The invariant -/

/-- The newest time so far is one of those seen, or none. -/
structure InDir.Timed (mtimes : Bytes → Int) (job : Job) (seen : Bytes → Prop) (p : InDir) : Prop where
  left : ∀ e ∈ p.left, ∀ stat, e.stat = .ok stat → stat.mtime = mtimes (childPath job.path e.name)
  pending : ∀ dir ∈ p.pending, dir.stat.mtime = mtimes (childPath job.path dir.name)
  newest : p.newest = noTime ∨ ∃ path, seen path ∧ p.newest = mtimes path

theorem InDir.Timed.entry {mtimes : Bytes → Int} {w : Walk} {job : Job} {seen : Bytes → Prop} {p : InDir} (h : p.Timed mtimes job seen)
    (hj : p.job = job) {e : Entry} {rest : List Entry} (hl : p.left = e :: rest) (d : Worker) (k : Nat) :
    let p' := (w.readEntry e { p with left := rest } d k).1
    p'.Timed mtimes job (fun path => seen path ∨ (Progress.reading p).examines w job.node path) ∧ p.newest ≤ p'.newest ∧
      ∀ path, (Progress.reading p).examines w job.node path → mtimes path ≤ p'.newest := by
  intro p'
  have hkept := readEntry_kept w e { p with left := rest } d k
  have hrest : p'.left = rest := hkept.left
  have hleft : ∀ e' ∈ p'.left, ∀ stat, e'.stat = .ok stat → stat.mtime = mtimes (childPath job.path e'.name) := by
    rw [hrest]
    exact fun e' he' => h.left e' (by rw [hl]; exact List.mem_cons_of_mem _ he')
  rcases readEntry_times w e { p with left := rest } d k with ⟨hno, hnewest, hpending⟩ | ⟨stat, hex, hnewest, hpending⟩
  · refine ⟨⟨hleft, fun dir hd => h.pending dir (hpending ▸ hd), ?_⟩, hnewest.ge, ?_⟩
    · rcases h.newest with hn | ⟨path, hp, hn⟩
      · exact .inl (hnewest.trans hn)
      · exact .inr ⟨path, .inl hp, hnewest.trans hn⟩
    · rintro path ⟨-, e', rest', stat, hl', hs, -⟩
      rw [hl] at hl'
      cases hl'
      exact absurd hs (hno stat)
  · have htime := h.left e (by rw [hl]; exact List.mem_cons_self) stat hex.2.2.1
    refine ⟨⟨hleft, fun dir hd => ?_, ?_⟩, hnewest ▸ le_max_left _ _, ?_⟩
    · rcases hpending with hpending | ⟨new, hpending, hname, hstat⟩
      · exact h.pending dir (hpending ▸ hd)
      · have hd : dir ∈ p.pending ++ [new] := hpending ▸ hd
        rcases List.mem_append.1 hd with hd | hd
        · exact h.pending dir hd
        · rw [List.mem_singleton.1 hd, hname, hstat]
          exact htime
    · have hnewest : p'.newest = max p.newest stat.mtime := hnewest
      rcases max_choice p.newest stat.mtime with hm | hm
      · rw [hnewest, hm]
        rcases h.newest with hn | ⟨path, hp, hn⟩
        · exact .inl hn
        · exact .inr ⟨path, .inl hp, hn⟩
      · rw [hnewest, hm]
        exact .inr ⟨_, .inr ⟨congrArg Job.node hj, e, rest, stat, hl, hex, rfl⟩, hj ▸ htime⟩
    · rintro path ⟨-, e', rest', stat', hl', hs, rfl⟩
      rw [hl] at hl'
      cases hl'
      have hsame := hex.2.2.1.symm.trans hs.2.2.1
      cases hsame
      rw [hj, ← htime]
      exact hnewest ▸ le_max_right _ _

/-- What holds of the times at any moment of a walk: the directories and what is gathered have those of
their paths, and nothing examined is newer than what is gathered for its directory. -/
structure Dating {n : Nat} (w : Walk) (kernel : Kernel) (mtimes : Bytes → Int) (b : Bag n Job Progress Worker Shared)
    (examined : Examined) : Prop extends Visiting w kernel b where
  own : ∀ k < b.shared.nodes.length, (nodeIn b.shared.nodes k).mtime =
    mtimes (DirTree.join w.target.scanPath ((w.sketch b.shared.nodes).components k))
  timed : ∀ i job p, b.active i = some (job, .reading p) → p.Timed mtimes job (examined job.node)
  tallied : ∀ i k, ((b.data i).tallies k).newest = noTime ∨
    ∃ path, examined k path ∧ ((b.data i).tallies k).newest = toSeconds (mtimes path)
  reached : ∀ k path, examined k path → (∃ i, toSeconds (mtimes path) ≤ ((b.data i).tallies k).newest) ∨
    ∃ i job p, b.active i = some (job, .reading p) ∧ job.node = k ∧ mtimes path ≤ p.newest

/-- The times a walk's requests are answered with: those of the paths. -/
structure Kernel.Times (kernel : Kernel) (mtimes : Bytes → Int) : Prop where
  listed : ∀ path reading, kernel path (.ok reading) → ∀ e ∈ reading.entries, ∀ stat, e.stat = .ok stat →
    stat.mtime = mtimes (childPath path e.name)
  some : ∀ path, noTime ≤ mtimes path

section Steps

variable {n : Nat} {w : Walk} {kernel : Kernel} {mtimes : Bytes → Int} {b : Bag n Job Progress Worker Shared} {examined : Examined}
  {i : Fin (n + 1)}

theorem Dating.start (h : Dating w kernel mtimes b examined) {job : Job} {rest : Multiset Job} (hi : b.active i = none)
    (hj : b.pending = {job} + rest) :
    Dating w kernel mtimes { b with pending := rest, active := Function.update b.active i (some (job, .opening job)) } examined := by
  refine ⟨h.toVisiting.start hi hj, h.own, fun i' job' p hp => ?_, h.tallied, fun k path he => ?_⟩
  · change Function.update b.active i _ i' = _ at hp
    rw [Function.update_apply] at hp
    split at hp
    · cases hp
    · exact h.timed i' job' p hp
  · rcases h.reached k path he with hr | ⟨i', job', p, hp, hk, hle⟩
    · exact .inl hr
    · refine .inr ⟨i', job', p, ?_, hk, hle⟩
      have hne : i' ≠ i := by
        rintro rfl
        rw [hi] at hp
        cases hp
      exact (Function.update_of_ne hne ..).trans hp

theorem Dating.more (h : Dating w kernel mtimes b examined) (hm : kernel.Times mtimes) {job : Job} {p p' : Progress} {d' : Worker}
    {s' : Shared} {interrupted : Bool} (hi : b.active i = some (job, p))
    (ht : ReadStep w kernel interrupted p (b.data i) b.shared (.more p' d' s')) :
    Dating w kernel mtimes
      { b with active := Function.update b.active i (some (job, p')), data := Function.update b.data i d', shared := s' }
      fun node path => examined node path ∨ p.examines w node path := by
  have hjob := (h.registering.active i job p hi).1
  have hstep : s'.nodes = b.shared.nodes ∧ d'.tallies = (b.data i).tallies ∧ ∃ q', p' = .reading q' ∧
      q'.Timed mtimes job (fun path => examined job.node path ∨ p.examines w job.node path) ∧
      (∀ q, p = .reading q → q.newest ≤ q'.newest) ∧ ∀ path, p.examines w job.node path → mtimes path ≤ q'.newest := by
    cases ht with
    | @opened job' reading _ _ hr =>
      cases hjob
      refine ⟨rfl, rfl, _, rfl, ⟨hm.listed _ reading hr, fun dir hd => absurd hd List.not_mem_nil, .inl rfl⟩, fun q hq => ?_,
        fun path hp => False.elim hp⟩
      cases hq
    | @entry p₀ e rest _ _ hl hi' =>
      obtain ⟨htimed, hle, hex⟩ := (h.timed i job p₀ hi).entry (w := w) hjob hl (b.data i) b.shared.tracked
      exact ⟨rfl, (readEntry_kept w e { p₀ with left := rest } (b.data i) b.shared.tracked).tallies, _, rfl, htimed,
        fun q hq => by cases hq; exact hle, hex⟩
  obtain ⟨hnodes, htallies, q', rfl, htimed, hgrown, hex⟩ := hstep
  -- a time read goes to the directory being read; the worker's tallies get it when the directory is done
  have hdata : ∀ i' k, (Function.update b.data i d' i').tallies k = (b.data i').tallies k := by
    intro i' k
    rw [Function.update_apply]
    split
    · rename_i he
      rw [htallies, he]
    · rfl
  refine ⟨h.toVisiting.more hi ht, by rw [hnodes]; exact h.own, fun i' job' p hp => ?_, fun i' k => ?_, fun k path he => ?_⟩
  · change Function.update b.active i _ i' = _ at hp
    rw [Function.update_apply] at hp
    split at hp
    · cases hp
      exact htimed
    · obtain ⟨hleft, hpending, hnewest⟩ := h.timed i' job' p hp
      exact ⟨hleft, hpending, hnewest.imp_right fun ⟨path, hp, hn⟩ => ⟨path, .inl hp, hn⟩⟩
  · show ((Function.update b.data i d' i').tallies k).newest = noTime ∨ ∃ path, _ ∧
      ((Function.update b.data i d' i').tallies k).newest = _
    rw [hdata]
    exact (h.tallied i' k).imp_right fun ⟨path, hp, hn⟩ => ⟨path, .inl hp, hn⟩
  · show (∃ i', _ ≤ ((Function.update b.data i d' i').tallies k).newest) ∨
      ∃ i' job' p, Function.update b.active i (some (job, .reading q')) i' = some (job', .reading p) ∧ job'.node = k ∧ _
    rcases he with he | he
    · rcases h.reached k path he with ⟨i', hr⟩ | ⟨i', job', q, hp, hk, hle⟩
      · exact .inl ⟨i', by rw [hdata]; exact hr⟩
      · by_cases hii : i' = i
        · subst hii
          rw [hi] at hp
          cases hp
          exact .inr ⟨i', job, q', Function.update_self .., hk, hle.trans (hgrown q rfl)⟩
        · exact .inr ⟨i', job', q, (Function.update_of_ne hii ..).trans hp, hk, hle⟩
    · have hk : job.node = k := by
        cases p with
        | opening job' => exact he.elim
        | reading q => exact (congrArg Job.node hjob).symm.trans he.1
      subst hk
      exact .inr ⟨i, job, q', Function.update_self .., rfl, hex path he⟩

/-- The end of a directory takes its newest time into its tally. -/
theorem newest_tallied (p : InDir) (d : Worker) (k : Nat) : ((p.tallied d).tallies k).newest =
    if k = p.job.node then max (d.tallies k).newest (toSeconds p.newest) else (d.tallies k).newest := by
  unfold InDir.tallied
  simp only
  rw [Function.update_apply]
  split
  · rename_i hk
    rw [hk]
  · rfl

theorem Dating.done (h : Dating w kernel mtimes b examined) (hm : kernel.Times mtimes) {job : Job} {p : Progress} {children : List Job}
    {d' : Worker} {s' : Shared} {interrupted : Bool} (hi : b.active i = some (job, p))
    (ht : ReadStep w kernel interrupted p (b.data i) b.shared (.done children d' s')) :
    Dating w kernel mtimes ⟨b.pending + children, Function.update b.active i none, Function.update b.data i d', s'⟩ examined := by
  have hreg := h.registering
  have hmem := Bag.mem_jobs hi
  have hplace := hreg.placed job hmem
  have hjob := (hreg.active i job p hi).1
  have hstep : ∃ pending : List PendingDir,
      s'.nodes.map TrackedNode.fixed = (b.shared.nodes ++ pending.map (register job)).map TrackedNode.fixed ∧
      (job.tracked = false → pending = []) ∧ (∀ dir ∈ pending, dir.stat.mtime = mtimes (childPath job.path dir.name)) ∧
      ((∀ k, (d'.tallies k).newest = ((b.data i).tallies k).newest) ∧ (∀ q, p ≠ .reading q) ∨ ∃ q, p = .reading q ∧
        ∀ k, (d'.tallies k).newest =
          if k = job.node then max ((b.data i).tallies k).newest (toSeconds q.newest) else ((b.data i).tallies k).newest) := by
    cases ht with
    | @unopened job' _ _ _ _ _ _ =>
      refine ⟨[], ?_, fun _ => rfl, fun dir hd => absurd hd List.not_mem_nil, .inl ⟨fun _ => rfl, nofun⟩⟩
      rw [List.map_nil, List.append_nil]
      exact fixed_sealNode job' b.shared.nodes
    | @closed p₀ _ _ hl hf =>
      obtain ⟨reading, before, k, -, hv⟩ := h.visits i job p₀ hi
      have hat : p₀.job = job := hjob
      refine ⟨p₀.pending, ?_, hv.on.none, (h.timed i job p₀ hi).pending, .inr ⟨p₀, rfl, fun k => ?_⟩⟩
      · rw [fixed_registered, hat]
      · rw [newest_tallied, hat]
    | @closedEarly p₀ _ _ _ _ hl hf htol =>
      obtain ⟨reading, before, k, -, hv⟩ := h.visits i job p₀ hi
      have hat : p₀.job = job := hjob
      refine ⟨p₀.pending, ?_, hv.on.none, (h.timed i job p₀ hi).pending, .inr ⟨p₀, rfl, fun k => ?_⟩⟩
      · rw [fixed_registered, hat, List.map_append, fixed_sealNode, List.map_append]
      · rw [newest_tallied, hat]
  obtain ⟨pending, hregisters, hnone, htimes, htallies⟩ := hstep
  have hlen : s'.nodes.length = b.shared.nodes.length + pending.length := by
    rw [length_of_fixed hregisters, List.length_append, List.length_map]
  have hgrown : ∀ k, ((b.data i).tallies k).newest ≤ (d'.tallies k).newest := by
    intro k
    rcases htallies with ⟨hsame, -⟩ | ⟨q, -, hmax⟩
    · exact (hsame k).ge
    · rw [hmax]
      split
      · exact le_max_left _ _
      · exact le_rfl
  refine ⟨h.toVisiting.done hi ht, fun k hk => ?own, fun i' job' p' hp => ?timed, fun i' k => ?tallied, fun k path he => ?reached⟩
  case own =>
    show (nodeIn s'.nodes k).mtime = mtimes (DirTree.join w.target.scanPath ((w.sketch s'.nodes).components k))
    have hk : k < s'.nodes.length := hk
    rcases Nat.lt_or_ge k b.shared.nodes.length with hkl | hkl
    · have hfixed := fixed_nodeIn hregisters k
      rw [nodeIn_append_left hkl] at hfixed
      have hmtime := congrArg TrackedNode.mtime hfixed
      rw [components_extended hreg.nodes hregisters (fun j _ => sketch_node w s'.nodes j) hkl]
      exact hmtime.trans (h.own k hkl)
    · obtain ⟨m, rfl⟩ := Nat.exists_eq_add_of_le hkl
      have hm' : m < pending.length := by omega
      obtain ⟨hfixed, hcomponents⟩ := registered_child (w := w) hreg.nodes (hreg.done hi ht).nodes hregisters hplace hm'
      have hmtime := congrArg TrackedNode.mtime hfixed
      have htracked : job.tracked = true := by
        by_contra hu
        rw [hnone (by simpa using hu)] at hm'
        exact absurd hm' (Nat.not_lt_zero m)
      -- a subdirectory's path is its directory's and its name
      have hpath : childPath job.path pending[m].name =
          DirTree.join w.target.scanPath ((w.sketch s'.nodes).components (b.shared.nodes.length + m)) := by
        rw [hcomponents, (h.spelled job hmem htracked).scan]
        unfold DirTree.join
        rw [List.foldl_append]
        rfl
      rw [← hpath]
      exact hmtime.trans (htimes _ (List.getElem_mem hm'))
  case timed =>
    change Function.update b.active i none i' = _ at hp
    rw [Function.update_apply] at hp
    split at hp
    · cases hp
    · exact h.timed i' job' p' hp
  case tallied =>
    show ((Function.update b.data i d' i').tallies k).newest = noTime ∨ ∃ path, _ ∧
      ((Function.update b.data i d' i').tallies k).newest = _
    rw [Function.update_apply]
    split
    · rcases htallies with ⟨hsame, -⟩ | ⟨q, rfl, hmax⟩
      · rw [hsame]
        exact h.tallied i k
      · rw [hmax]
        split
        · rename_i hk
          rcases max_choice ((b.data i).tallies k).newest (toSeconds q.newest) with hc | hc
          · rw [hc]
            exact h.tallied i k
          · rw [hc, hk]
            rcases (h.timed i job q hi).newest with hn | ⟨path, hp, hn⟩
            · exact .inl (by rw [hn]; rfl)
            · exact .inr ⟨path, hp, by rw [hn]⟩
        · exact h.tallied i k
    · exact h.tallied i' k
  case reached =>
    show (∃ i', _ ≤ ((Function.update b.data i d' i').tallies k).newest) ∨
      ∃ i' job' p', Function.update b.active i none i' = some (job', .reading p') ∧ job'.node = k ∧ _
    rcases h.reached k path he with ⟨i', hr⟩ | ⟨i', job', q, hp, hk, hle⟩
    · refine .inl ⟨i', ?_⟩
      rw [Function.update_apply]
      split
      · rename_i hii
        exact (hii ▸ hr).trans (hgrown k)
      · exact hr
    · by_cases hii : i' = i
      · subst hii
        rw [hi] at hp
        cases hp
        rcases htallies with ⟨-, hno⟩ | ⟨q', hq, hmax⟩
        · exact absurd rfl (hno q)
        · cases hq
          refine .inl ⟨i', ?_⟩
          rw [Function.update_self, hmax, if_pos hk.symm]
          exact (toSeconds_mono (hm.some path) hle).trans (le_max_right _ _)
      · exact .inr ⟨i', job', q, (Function.update_of_ne hii ..).trans hp, hk, hle⟩

/-- In every state of a walk the times gathered are of what was examined. -/
theorem Noting.dating {host : Host} {data : Fin (n + 1) → Worker} {root : TrackedNode} (hm : host.listing.Times mtimes)
    (hd : ∀ i k, (data i).tallies k = {}) (hp : root.parent = none) (hr : root.mtime = mtimes w.target.scanPath)
    (h : Noting Progress.examines w host data root b examined) : Dating w host.listing mtimes b examined := by
  induction h with
  | initial =>
    refine ⟨visiting_of_reachable hd hp (@Tracing.initial _ (noter Progress.examines) w host n data root).reachable, fun k hk => ?_,
      fun i job p hp => ?_, fun i k => .inl (by rw [hd i k]), fun _ _ he => False.elim he⟩
    swap
    · cases hp
    obtain rfl : k = 0 := Nat.lt_one_iff.1 hk
    rw [Shape.components_zero]
    exact hr
  | start h hi hj ih => exact ih.start hi hj
  | more h hi ht ih => exact ih.more hm hi ht
  | done h hi ht ih => exact ih.done hm hi ht

end Steps

/-! ## The tree -/

/-- The newest of the workers' times of a directory. -/
theorem newest_mergeTally (workers : List Worker) (k : Nat) :
    (∀ d ∈ workers, (d.tallies k).newest ≤ (Worker.mergeTally workers k).newest) ∧
      ((Worker.mergeTally workers k).newest = noTime ∨
        ∃ d ∈ workers, (Worker.mergeTally workers k).newest = (d.tallies k).newest) := by
  have hfold : ∀ (workers : List Worker) (t merged : NodeTally), workers.foldl (fun t w =>
      { direct := t.direct.add (w.tallies k).direct, below := t.below.add (w.tallies k).below
        newest := max t.newest (w.tallies k).newest }) t = merged →
      t.newest ≤ merged.newest ∧ (∀ d ∈ workers, (d.tallies k).newest ≤ merged.newest) ∧
        (merged.newest = t.newest ∨ ∃ d ∈ workers, merged.newest = (d.tallies k).newest) := by
    intro workers
    induction workers with
    | nil =>
      rintro t merged rfl
      exact ⟨le_rfl, fun d hd => absurd hd List.not_mem_nil, .inl rfl⟩
    | cons d workers ih =>
      intro t merged hfold
      obtain ⟨hstart, hle, hmem⟩ := ih _ merged hfold
      have hstart : max t.newest (d.tallies k).newest ≤ merged.newest := hstart
      refine ⟨(le_max_left _ _).trans hstart, fun d' hd => ?_, ?_⟩
      · rcases List.mem_cons.1 hd with rfl | hd
        · exact (le_max_right _ _).trans hstart
        · exact hle d' hd
      · rcases hmem with hm | ⟨d', hd, hm⟩
        · rcases max_choice t.newest (d.tallies k).newest with hc | hc
          · exact .inl (hm.trans hc)
          · exact .inr ⟨d, List.mem_cons_self, hm.trans hc⟩
        · exact .inr ⟨d', List.mem_cons_of_mem _ hd, hm⟩
  obtain ⟨-, hle, hmem⟩ := hfold workers {} (Worker.mergeTally workers k) rfl
  exact ⟨hle, hmem⟩

/-- The winning links leave the times as they are. -/
theorem newest_addWinners (winners : List (Inode × Nat × Link)) (tallies : Nat → NodeTally) (k : Nat) :
    (winners.foldl (fun tallies e => addWinner tallies e.2.2) tallies k).newest = (tallies k).newest := by
  induction winners generalizing tallies with
  | nil => rfl
  | cons e winners ih =>
    rw [List.foldl_cons, ih]
    unfold addWinner
    rw [Function.update_apply]
    split
    · rename_i hk
      rw [hk]
      unfold NodeTally.modifyPart
      split <;> rfl
    · rfl

/-- The paths a directory's newest time is of: its own, those of the directories below it, and those
examined in them. -/
def Covered (t : DirTree) (examined : Examined) (i : Nat) : Set Bytes :=
  { path | ∃ j < t.nodes.length, Above t.parentOf i j ∧ (path = t.scanPath j ∨ examined j path) }

section Finished

variable {n : Nat} {w : Walk} {kernel : Kernel} {mtimes : Bytes → Int} {b : Bag n Job Progress Worker Shared} {examined : Examined}
  {t : DirTree}

/-- What a directory has before the roll-up: its own time, or one examined in it. -/
theorem Dating.before (h : Dating w kernel mtimes b examined) (hm : kernel.Times mtimes) (ha : ∀ i, b.active i = none)
    {j : Nat} (hj : j < b.shared.nodes.length) {own : Bytes}
    (ho : own = DirTree.join w.target.scanPath ((w.sketch b.shared.nodes).components j)) :
    IsGreatest ((fun path => toSeconds (mtimes path)) '' { path | path = own ∨ examined j path })
      (max (toSeconds (nodeIn b.shared.nodes j).mtime) (Worker.mergeTally (List.ofFn b.data) j).newest) := by
  obtain ⟨hle, hmem⟩ := newest_mergeTally (List.ofFn b.data) j
  rw [h.own j hj, ← ho]
  have hown : toSeconds (mtimes own) ∈ (fun path => toSeconds (mtimes path)) '' { path | path = own ∨ examined j path } :=
    ⟨own, .inl rfl, rfl⟩
  constructor
  · rcases max_choice (toSeconds (mtimes own)) (Worker.mergeTally (List.ofFn b.data) j).newest with hc | hc
    · rw [hc]
      exact hown
    · have hlast : ∀ x, (Worker.mergeTally (List.ofFn b.data) j).newest = x → x = noTime →
          max (toSeconds (mtimes own)) (Worker.mergeTally (List.ofFn b.data) j).newest = toSeconds (mtimes own) := by
        rintro x hx rfl
        rw [hx]
        exact max_eq_left (noTime_le_toSeconds (hm.some own))
      rcases hmem with hn | ⟨d, hd, hn⟩
      · rw [hlast _ hn rfl]
        exact hown
      · obtain ⟨i, rfl⟩ := List.mem_ofFn.1 hd
        rcases h.tallied i j with hi | ⟨path, hp, hi⟩
        · rw [hlast _ hn hi]
          exact hown
        · rw [hc, hn]
          exact ⟨path, .inr hp, hi.symm⟩
  · rintro x ⟨path, rfl | hp, rfl⟩
    · exact le_max_left _ _
    · rcases h.reached j path hp with ⟨i, hr⟩ | ⟨i, job, p, hi, -⟩
      · exact (hr.trans (hle _ (List.mem_ofFn.2 ⟨i, rfl⟩))).trans (le_max_right _ _)
      · rw [ha i] at hi
        cases hi

/-- When a walk is over, every directory of its tree has the newest time of what it covers. -/
theorem Dating.newest (h : Dating w kernel mtimes b examined) (hm : kernel.Times mtimes) (ha : ∀ i, b.active i = none)
    (ht : (finish w b.shared.nodes (List.ofFn b.data)).tree = some t) {i : Nat} (hi : i < t.nodes.length) :
    IsGreatest ((fun path => toSeconds (mtimes path)) '' Covered t examined i) (t.node i).newest := by
  obtain ⟨u, hu, hut⟩ := Option.map_eq_some_iff.1 ht
  obtain ⟨hb, -, -, -⟩ := built_of_buildTree hu
  have hn := h.registering.nodes
  have hnodes : t.nodes = u.nodes := by rw [← hut]
  have hnode : ∀ k, t.node k = u.node k := fun k => congrArg (fun nodes : List DirNode => nodes.getD k default) hnodes
  have hlen : t.nodes.length = b.shared.nodes.length := by rw [hnodes, hb.length]
  have hparents : t.parentOf = parentIn b.shared.nodes := by
    rw [← hb.parentOf]
    funext k
    exact congrArg DirNode.parent (hnode k)
  have hpath : ∀ j < b.shared.nodes.length,
      t.scanPath j = DirTree.join w.target.scanPath ((w.sketch b.shared.nodes).components j) := by
    intro j hj
    have hroot : t.scanRoot = w.target.scanPath := by
      rw [← hut]
      unfold buildTree at hu
      split at hu
      · cases hu
      · cases hu
        rfl
    unfold DirTree.scanPath
    rw [hroot, components_congr (hn.down w) fun k hk => ?_]
    rw [hnode, hb.node k (Nat.lt_of_le_of_lt hk hj)]
    exact ⟨(sketch_node w _ k).1.symm, (sketch_node w _ k).2.symm⟩
  have hbefore : ∀ j < b.shared.nodes.length, _ := fun j hj => h.before hm ha hj (hpath j hj)
  have hrolled : (t.node i).newest = rollUp max (parentIn b.shared.nodes) (b.shared.nodes.length - 1)
      (fun j => max (toSeconds (nodeIn b.shared.nodes j).mtime) (Worker.mergeTally (List.ofFn b.data) j).newest) i := by
    rw [hnode, newest_of_buildTree hu (hlen ▸ hi)]
    congr 1
    funext j
    exact congrArg (max _) (newest_addWinners _ _ j)
  rw [hrolled]
  constructor
  · obtain ⟨j, hj, habove, he⟩ := @rollUp_max_mem (parentIn b.shared.nodes) _ _ (b.shared.nodes.length - 1) i
      fun j => max (toSeconds (nodeIn b.shared.nodes j).mtime) (Worker.mergeTally (List.ofFn b.data) j).newest
    have hjl : j < b.shared.nodes.length := by omega
    rw [he]
    obtain ⟨path, hp, hx⟩ := (hbefore j hjl).1
    exact ⟨path, ⟨j, hlen ▸ hjl, hparents ▸ habove, hp⟩, hx⟩
  · rintro x ⟨path, ⟨j, hj, habove, hp⟩, rfl⟩
    have hjl : j < b.shared.nodes.length := hlen ▸ hj
    have habove : Above (parentIn b.shared.nodes) i j := hparents ▸ habove
    exact ((hbefore j hjl).2 ⟨path, hp, rfl⟩).trans (rollUp_max_of_above hn.down_parentIn (by omega) habove
      fun j => max (toSeconds (nodeIn b.shared.nodes j).mtime) (Worker.mergeTally (List.ofFn b.data) j).newest)

end Finished

/-! ## Scans -/

/-- A tree a scan comes back with, and the paths it examined in each directory. -/
abbrev ExaminedScan (host : Host) (target : Target) (hash : Bytes → Nat) (t : DirTree) (examined : Examined) : Prop :=
  ∃ won, TracedScan (noter Progress.examines) host target hash t examined won

/-- A file system whose paths have the timestamps `stamps`. -/
structure Stamped (host : Host) (target : Target) (stamps : Bytes → Stamp) : Prop where
  root : ∀ stat, host.stat target.scanPath target.followSymlinks (.ok stat) → stat.mtime = (stamps target.scanPath).nanos
  listed : ∀ path reading, host.listing path (.ok reading) → ∀ e ∈ reading.entries, ∀ stat, e.stat = .ok stat →
    stat.mtime = (stamps (childPath path e.name)).nanos

/-- Every directory's newest time is the greatest of the seconds of what it covers. -/
def NewestExact (stamps : Bytes → Stamp) (t : DirTree) (examined : Examined) : Prop :=
  ∀ i < t.nodes.length, IsGreatest ((fun path => (stamps path).sec) '' Covered t examined i) (t.node i).newest

section Scans

variable {host : Host} {target : Target} {hash : Bytes → Nat} {t : DirTree} {examined : Examined} {stamps : Bytes → Stamp}

/-- After a scan every directory's newest time is the greatest its timestamps are read as. -/
theorem ExaminedScan.newest (h : ExaminedScan host target hash t examined) (hs : Stamped host target stamps) {i : Nat}
    (hi : i < t.nodes.length) :
    IsGreatest ((fun path => toSeconds (stamps path).nanos) '' Covered t examined i) (t.node i).newest := by
  have hm : host.listing.Times fun path => (stamps path).nanos := ⟨hs.listed, fun path => (stamps path).noTime_le_nanos⟩
  obtain ⟨won, hscan⟩ := h
  obtain ⟨root, handle, n, b, data, hstat, hb, -⟩ := hscan.started
  have hdating : Dating (start target root hash) host.listing (fun path => (stamps path).nanos) b examined :=
    Noting.dating hm hb.tallies rfl (hs.root root hstat) hb.traced
  exact hdating.newest hm hb.idle hb.tree hi

end Scans

end Walk

/-- A directory of some age, as any directory at the depth limit is stat'ed. -/
def agedStat (mtime : Int) : Stat :=
  { kind := .directory, dev := 1, ino := 2, nlink := 2, blocks := 4096, size := 4096, mtime := mtime }

def agedHost (mtime : Int) : Host := { Walk.emptyHost with stat := fun _ _ answer => answer = .ok (agedStat mtime) }

def unreadTarget : Target := { Walk.emptyWalk.target with maxDepth := some 0 }

def agedResult (mtime : Int) : ScanResult :=
  finish (Walk.start unreadTarget (agedStat mtime) List.length) [Walk.rootNode unreadTarget (agedStat mtime) none]
    [{ counts := Walk.rootCounts unreadTarget (agedStat mtime) }]

def agedTree (mtime : Int) : DirTree := (agedResult mtime).tree.getD default

namespace Walk

/-- The scan of a directory of some age that is not read. -/
theorem scans_aged (mtime : Int) : Scans (agedHost mtime) unreadTarget List.length (.ok (agedResult mtime)) :=
  .shallow rfl rfl rfl (show RootHandle _ _ _ by simp [RootHandle, unreadTarget, emptyWalk]) rfl

theorem tree_agedResult (mtime : Int) : (agedResult mtime).tree = some (agedTree mtime) := rfl

theorem examinedScan_aged (mtime : Int) :
    ExaminedScan (agedHost mtime) unreadTarget List.length (agedTree mtime) fun _ _ => False :=
  ⟨_, .unread (scans_aged mtime) rfl (tree_agedResult mtime)⟩

theorem stamped_aged (s : Stamp) : Stamped (agedHost s.nanos) unreadTarget fun _ => s where
  root := fun stat h => by
    have h : Except.ok stat = Except.ok (agedStat s.nanos) := h
    cases h
    rfl
  listed := fun path reading h e he => by
    have h : Except.ok reading = Except.ok { entries := [], fail := none } := h
    cases h
    cases he

/-- The newest times of every scan of files with timestamps in `allowed` are exact if and only if each
of them fits 64 bits in nanoseconds. -/
theorem newest_exact_iff (allowed : Set Stamp) :
    (∀ host target hash t examined stamps, Stamped host target stamps → ExaminedScan host target hash t examined →
      (∀ i, ∀ path ∈ Covered t examined i, stamps path ∈ allowed) → NewestExact stamps t examined) ↔
      ∀ s ∈ allowed, s.Fits := by
  constructor
  · intro h s hs
    -- a directory alone shows its own timestamp
    have hexact := h _ _ _ _ _ _ (stamped_aged s) (examinedScan_aged s.nanos) (fun _ _ _ => hs) 0 Nat.one_pos
    have hread := (examinedScan_aged s.nanos).newest (stamped_aged s) Nat.one_pos
    obtain ⟨_, _, hsec⟩ := hexact.1
    obtain ⟨_, _, hseconds⟩ := hread.1
    exact s.fits_iff.2 (hseconds.trans hsec.symm)
  · intro h host target hash t examined stamps hs he hall i hi
    have hnewest := he.newest hs hi
    have hsame : (fun path => toSeconds (stamps path).nanos) '' Covered t examined i =
        (fun path => (stamps path).sec) '' Covered t examined i :=
      Set.image_congr fun path hp => (stamps path).fits_iff.1 (h _ (hall i path hp))
    exact hsame ▸ hnewest

/-- A timestamp of the year 2286, which wraps to one of 1702. -/
def lateStamp : Stamp := ⟨10000000000, 0, by decide, by decide⟩

theorem newest_wraps : (∃ t, ExaminedScan (agedHost lateStamp.nanos) unreadTarget List.length t (fun _ _ => False) ∧
      (t.node 0).newest = -8446744074) ∧
    ¬∀ host target hash t examined stamps, Stamped host target stamps → ExaminedScan host target hash t examined →
      NewestExact stamps t examined := by
  have hread : ((agedTree lateStamp.nanos).node 0).newest = -8446744074 := by decide
  refine ⟨⟨_, examinedScan_aged _, hread⟩, fun h => ?_⟩
  obtain ⟨_, _, hsec⟩ := (h _ _ _ _ _ _ (stamped_aged lateStamp) (examinedScan_aged lateStamp.nanos) 0 Nat.one_pos).1
  rw [hread] at hsec
  exact absurd (show (10000000000 : Int) = -8446744074 from hsec) (by decide)

end Walk

end StorageHarvester
