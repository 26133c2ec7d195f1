/-
Two scans of one file system agree. What a walk counts it met somewhere, and what there is to meet does
not depend on the walk, so a directory tracked by both has the same total in both trees: the entries at
and below its path, and of each multiply linked file the link whose path hashes lowest.
-/
import StorageHarvester.Scan.Census
import StorageHarvester.Scan.Lowest
import StorageHarvester.Scan.Refused

namespace StorageHarvester

open Forest
open WorkPool (Bag BagReachable Emitting)

namespace Walk

/-! ## What is met -/

/-- A counted entry by where it is and what it is, whichever node it counts for. -/
@[ext] structure Met where
  place : Place
  name : Bytes
  stat : Stat

def Tallied.met (r : Tallied) : Met := ⟨(r.job.path, r.job.depth), r.name, r.stat⟩

/-- What an entry met adds to a tally. -/
def Met.amount (m : Met) (c : Component) : Nat := Tallied.amount ⟨jobAt m.place, m.name, m.stat, false⟩ c

theorem amount_met (r : Tallied) (c : Component) : r.met.amount c = r.amount c := by cases c <;> rfl

/-- An entry of a place, if it is counted. -/
def meets (w : Walk) (x : Place) (e : Entry) : Multiset Met :=
  if isDot e.name || w.excludes (jobAt x) e.name then 0
  else match e.stat with
    | .error _ => 0
    | .ok stat => if w.target.noCrossFilesystem && stat.dev ≠ w.rootDev then 0 else {⟨x, e.name, stat⟩}

/-- What of an event is counted. -/
def Event.met (w : Walk) : Event → Multiset Met
  | .entry x e => w.meets x e
  | .failed _ _ => 0

theorem met_tallies (w : Walk) (job : Job) (e : Entry) (k : Nat) :
    (((w.tallies job e k).map Tallied.met : List Met) : Multiset Met) = Event.met w (.entry (job.path, job.depth) e) := by
  show _ = w.meets (job.path, job.depth) e
  unfold tallies meets
  rw [excludes_jobAt]
  split
  · rfl
  · cases e.stat with
    | error => rfl
    | ok stat =>
      dsimp only
      split <;> rfl

theorem met_failure (w : Walk) (x : Place) (fail : Option Errno) : (failure x fail).bind (Event.met w) = 0 := by
  cases fail with
  | none => rfl
  | some error => exact Multiset.singleton_bind ..

section Logs

variable {host : Host} {fs : Frozen} {w : Walk} {n : Nat} {b : Bag n Job Progress Worker Shared} {data : Fin (n + 1) → Worker}
  {root : TrackedNode} {log : List Tallied}

/-- What a walk has counted is what it came upon. -/
theorem Logging.emitting (hf : host.Frozen fs) (h : Logging w host data root b log) :
    ∃ put, Emitting (w.readDir host.listing host.answers) (Progress.emit fs) (rootJob w.target) data { nodes := [root], tracked := 1 } b put ∧
      ((log.map Tallied.met : List Met) : Multiset Met) = put.bind (Event.met w) := by
  induction h with
  | initial => exact ⟨0, .initial, rfl⟩
  | start h hi hj ih =>
    obtain ⟨put, hp, hmet⟩ := ih
    exact ⟨put, hp.start hi hj, hmet⟩
  | @more b log i _ job p p' d' s' h hi ht ih =>
    obtain ⟨put, hp, hmet⟩ := ih
    refine ⟨_, hp.more hi ht, ?_⟩
    rw [List.map_append, ← Multiset.coe_add, Multiset.add_bind, hmet]
    congr 1
    cases ht with
    | @opened job reading _ _ hr =>
      have hsame := hf.listing _ _ hr
      cases hl : fs.listing job.path with
      | error error =>
        rw [hl] at hsame
        exact hsame.elim
      | ok reading' => simp [Progress.tallies, Progress.emit, hl]
    | @entry p₀ e rest _ _ hl hint =>
      rw [tallies_reading w hl, met_tallies]
      simp [Progress.emit, hl]
  | @done b log i _ job p children d' s' h hi ht ih =>
    obtain ⟨put, hp, hmet⟩ := ih
    refine ⟨_, hp.done hi ht, ?_⟩
    rw [Multiset.add_bind, hmet]
    have hnone : ((p.emit fs).bind (Event.met w)) = 0 := by
      cases ht with
      | @unopened job error _ _ _ hr =>
        have hsame := hf.listing _ _ hr
        cases hl : fs.listing job.path with
        | ok reading =>
          rw [hl] at hsame
          exact hsame.elim
        | error error' => simp [Progress.emit, hl, Event.met]
      | @closed p₀ _ _ hl hfail => simp only [Progress.emit, hl, met_failure]
      | @closedEarly p₀ _ _ error counts hl hfail htol => simp only [Progress.emit, hl, met_failure]
    rw [hnone, add_zero]

end Logs

section Scans

variable {host : Host} {fs : Frozen} {target : Target} {hash : Bytes → Nat} {t : DirTree} {log : List Tallied} {won : Table Inode (Nat × Link)}

/-- What there is to be met by a walk of this file system. -/
def MetOn (fs : Frozen) (target : Target) (hash : Bytes → Nat) (met : Multiset Met) : Prop :=
  ∃ root, fs.stat target.scanPath target.followSymlinks = .ok root ∧
    (target.maxDepth = some 0 ∧ met = 0 ∨ target.maxDepth ≠ some 0 ∧
      ∃ begun, Roams fs (start target root hash) begun ∧ met = (begun.bind (found fs)).bind (Event.met (start target root hash)))

theorem LogScan.metOn (hf : host.Frozen fs) (h : LogScan host target hash t log won) :
    MetOn fs target hash ((log.map Tallied.met : List Met) : Multiset Met) := by
  obtain ⟨root, handle, n, b, data, hs, hb, ⟨hm, rfl, -⟩ | ⟨hm, hp⟩⟩ := h.started
  · exact ⟨root, (hf.stat _ _ _ hs).symm, .inl ⟨hm, rfl⟩⟩
  · obtain ⟨put, he, hmet⟩ := hb.logging.emitting hf
    obtain ⟨begun, hr, rfl⟩ := roams_of_bag hf he hp hb.idle
    exact ⟨root, (hf.stat _ _ _ hs).symm, .inr ⟨hm, begun, hr, hmet⟩⟩

theorem Alike.met {target' : Target} (h : Alike target target') {root : Stat} {hash' : Bytes → Nat} :
    Event.met (start target' root hash') = Event.met (start target root hash) := by
  funext event
  cases event with
  | failed => rfl
  | entry x e =>
    have hcross : (start target' root hash').target.noCrossFilesystem = (start target root hash).target.noCrossFilesystem :=
      h.noCrossFilesystem
    have hexcludes : (start target' root hash').excludes (jobAt x) e.name = (start target root hash).excludes (jobAt x) e.name :=
      h.excludes _ _
    show meets _ x e = meets _ x e
    unfold meets
    rw [hexcludes, hcross]
    rfl

/-- It is the same for every walk. -/
theorem MetOn.unique {target' : Target} {hash' : Bytes → Nat} {met met' : Multiset Met} (ha : Alike target target')
    (h : MetOn fs target hash met) (h' : MetOn fs target' hash' met') : met' = met := by
  obtain ⟨root, hs, h⟩ := h
  obtain ⟨root', hs', h'⟩ := h'
  rw [ha.scanPath, ha.followSymlinks, hs] at hs'
  cases hs'
  rw [ha.maxDepth] at h'
  rcases h with ⟨hm, rfl⟩ | ⟨hm, begun, hb, rfl⟩
  · exact (h'.resolve_right fun h => h.1 hm).2
  · obtain ⟨-, begun', hb', rfl⟩ := h'.resolve_left fun h => hm h.1
    rw [(ha.roams hb').unique hb, ha.met]

end Scans

/-! ## Where entries are met -/

/-- A file system that lists directories as a kernel does. -/
def Proper (fs : Frozen) : Prop := ∀ path reading, fs.listing path = .ok reading → reading.Proper

theorem proper_of_host {host : Host} {fs : Frozen} (hf : host.Frozen fs) (hk : host.listing.Proper) : Proper fs := by
  rintro path reading hr
  obtain ⟨answer, ha⟩ := host.answers path
  have hsame := hf.listing path answer ha
  rw [hr] at hsame
  cases answer with
  | error error => exact hsame.elim
  | ok reading' =>
    obtain ⟨hperm, -⟩ := hsame
    obtain ⟨hnodup, hnames⟩ := hk path reading' ha
    constructor
    · exact (hperm.map Entry.name).nodup_iff.1 hnodup
    · exact fun e he => hnames e (hperm.mem_iff.2 he)

section Places

variable {fs : Frozen} {w : Walk} {begun : Multiset Place}

/-- The place that names lead to. -/
def placeOf (target : Target) (names : List Bytes) : Place := (DirTree.join target.scanPath names, names.length)

/-- An entry leads to the one directory it is, if the walk goes into it. -/
theorem mem_entered {x y : Place} {e : Entry} (hy : y ∈ w.entered x e) :
    w.Enters (jobAt x) e ∧ y = (childPath x.1 e.name, x.2 + 1) := by
  unfold entered at hy
  split at hy
  · exact absurd hy (Multiset.notMem_zero y)
  · rename_i hkept
    rw [Bool.or_eq_true, not_or, Bool.not_eq_true, Bool.not_eq_true] at hkept
    split at hy
    · exact absurd hy (Multiset.notMem_zero y)
    · rename_i stat hstat
      split at hy
      · exact absurd hy (Multiset.notMem_zero y)
      · rename_i hdev
        rw [Bool.not_eq_true] at hdev
        split at hy
        · rename_i hdir
          rw [Bool.and_eq_true, decide_eq_true_eq] at hdir
          exact ⟨⟨hkept.1, hkept.2, stat, hstat, hdev, hdir.1, hdir.2⟩, Multiset.mem_singleton.1 hy⟩
        · exact absurd hy (Multiset.notMem_zero y)

/-- The walk goes into a place from another through an entry there. -/
theorem mem_kids {x y : Place} (hy : y ∈ w.kids fs x) : ∃ reading, fs.listing x.1 = .ok reading ∧ ∃ e ∈ reading.entries,
    w.Enters (jobAt x) e ∧ y = (childPath x.1 e.name, x.2 + 1) := by
  unfold kids at hy
  split at hy
  · exact absurd hy (Multiset.notMem_zero y)
  · rename_i reading hl
    obtain ⟨e, he, hy⟩ := Multiset.mem_bind.1 hy
    exact ⟨reading, hl, e, Multiset.mem_coe.1 he, mem_entered hy⟩

/-- A name that a walk goes into is a proper one. -/
theorem Enters.proper {reading : Reading} (hr : reading.Proper) {job : Job} {e : Entry} (he : e ∈ reading.entries) (h : w.Enters job e) :
    ProperName e.name :=
  (hr.names e he).resolve_left fun hdot => Bool.false_ne_true (h.1.symm.trans hdot)

theorem placeOf_snoc (target : Target) (names : List Bytes) (name : Bytes) :
    placeOf target (names ++ [name]) = (childPath (placeOf target names).1 name, (placeOf target names).2 + 1) := by
  unfold placeOf childPath
  rw [join_snoc, List.length_append]
  rfl

/-- Every place gone into is where proper names lead, one for each level. -/
theorem Roams.spelled (hp : Proper fs) (h : Roams fs w begun) {x : Place} (hx : x ∈ begun) :
    ∃ names : List Bytes, (∀ name ∈ names, ProperName name) ∧ x = placeOf w.target names := by
  -- a place is deeper than the one it is gone into from
  induction hd : x.2 generalizing x with
  | zero =>
    rcases h.mem.1 hx with rfl | ⟨y, -, hxy⟩
    · exact ⟨[], fun _ hm => absurd hm List.not_mem_nil, rfl⟩
    · rw [depth_kids y x hxy] at hd
      exact absurd hd (Nat.succ_ne_zero _)
  | succ depth ih =>
    rcases h.mem.1 hx with rfl | ⟨y, hy, hxy⟩
    · exact ⟨[], fun _ hm => absurd hm List.not_mem_nil, rfl⟩
    · obtain ⟨names, hnames, rfl⟩ := ih hy (Nat.succ.inj ((depth_kids y x hxy).symm.trans hd))
      obtain ⟨reading, hl, e, he, hin, rfl⟩ := mem_kids hxy
      refine ⟨names ++ [e.name], fun name hm => ?_, (placeOf_snoc ..).symm⟩
      rcases List.mem_append.1 hm with hm | hm
      · exact hnames name hm
      · exact List.mem_singleton.1 hm ▸ hin.proper (hp _ _ hl) he

end Places

section Met

variable {fs : Frozen} {target : Target} {hash : Bytes → Nat} {met : Multiset Met}

/-- What is met is listed where it is met, and the walk goes there. -/
theorem MetOn.listed (h : MetOn fs target hash met) {m : Met} (hm : m ∈ met) :
    (∃ root begun, Roams fs (start target root hash) begun ∧ m.place ∈ begun) ∧
      ∃ reading, fs.listing m.place.1 = .ok reading ∧ ∃ e ∈ reading.entries, e.name = m.name ∧ e.stat = .ok m.stat := by
  obtain ⟨root, -, ⟨-, rfl⟩ | ⟨-, begun, hb, rfl⟩⟩ := h
  · exact absurd hm (Multiset.notMem_zero m)
  obtain ⟨event, he, hm⟩ := Multiset.mem_bind.1 hm
  obtain ⟨x, hx, he⟩ := Multiset.mem_bind.1 he
  cases event with
  | failed => exact absurd hm (Multiset.notMem_zero m)
  | entry x' e =>
    have hat : x' = x ∧ ∃ reading, fs.listing x.1 = .ok reading ∧ e ∈ reading.entries := by
      unfold found at he
      split at he
      · exact absurd (Multiset.mem_singleton.1 he) (by simp)
      · rename_i reading hl
        rcases Multiset.mem_add.1 he with he | he
        · obtain ⟨e', he', heq⟩ := Multiset.mem_map.1 he
          cases heq
          exact ⟨rfl, reading, hl, he'⟩
        · unfold failure at he
          cases hfail : reading.fail with
          | none =>
            rw [hfail] at he
            exact absurd he (Multiset.notMem_zero _)
          | some error =>
            rw [hfail] at he
            exact absurd (Multiset.mem_singleton.1 he) (by simp)
    obtain ⟨rfl, reading, hl, he⟩ := hat
    have hm : m ∈ meets _ x' e := hm
    unfold meets at hm
    split at hm
    · exact absurd hm (Multiset.notMem_zero m)
    · split at hm
      · exact absurd hm (Multiset.notMem_zero m)
      · rename_i stat hstat
        split at hm
        · exact absurd hm (Multiset.notMem_zero m)
        · rw [Multiset.mem_singleton.1 hm]
          exact ⟨⟨root, begun, hb, hx⟩, reading, hl, e, he, rfl, hstat⟩

/-- There is one entry of a name in a directory. -/
theorem MetOn.same_stat (hp : Proper fs) (h : MetOn fs target hash met) {m m' : Met} (hm : m ∈ met) (hm' : m' ∈ met)
    (hpath : m.place.1 = m'.place.1) (hname : m.name = m'.name) : m.stat = m'.stat := by
  obtain ⟨-, reading, hl, e, he, hn, hs⟩ := h.listed hm
  obtain ⟨-, reading', hl', e', he', hn', hs'⟩ := h.listed hm'
  rw [← hpath, hl] at hl'
  cases hl'
  obtain rfl := List.inj_on_of_nodup_map (hp _ _ hl).nodup he he' (hn.trans (hname.trans hn'.symm))
  rw [hs] at hs'
  exact Except.ok.inj hs'

/-- No two links of one file that are met hash alike. -/
def HashesApart (fs : Frozen) (target : Target) (hash : Bytes → Nat) : Prop :=
  ∀ met, MetOn fs target hash met → ∀ m ∈ met, ∀ m' ∈ met, (m.stat.dev, m.stat.ino) = (m'.stat.dev, m'.stat.ino) →
    hash (m.place.1 ++ [slash] ++ m.name) = hash (m'.place.1 ++ [slash] ++ m'.name) → m.place.1 = m'.place.1 ∧ m.name = m'.name

end Met

/-- Being in a directory of the tree, or anywhere below it, by the path alone. -/
def Inside (t : DirTree) (i : Nat) (path : Bytes) : Prop :=
  ∃ names : List Bytes, (∀ name ∈ names, ProperName name) ∧ path = DirTree.join t.scanRoot (t.components i ++ names)

section Inside

variable {host : Host} {target : Target} {hash : Bytes → Nat} {t : DirTree} {log : List Tallied} {won : Table Inode (Nat × Link)}
  {w : Walk} {n : Nat} {b : Bag n Job Progress Worker Shared} {data : Fin (n + 1) → Worker} {root : TrackedNode}

/-- An entry counts for a directory at or below another exactly when it is within that one. -/
theorem ScanBag.above_iff (h : ScanBag logger host target t log won w b data root) (hk : host.listing.Proper) {x : Tallied} (hx : x ∈ log)
    {i : Nat} (hi : (t.node i).alive = true) : Above t.parentOf i x.job.node ↔ Inside t i x.job.path := by
  have hfresh := h.fresh hk
  have hnode : (t.node x.job.node).alive = true := hfresh.alive _ (h.length ▸ (h.ledger hk).placed x hx)
  obtain ⟨extra, hextra, hspells, -, hother⟩ := h.spells hk hx
  have hproper : ∀ {j : Nat}, (t.node j).alive = true → ∀ name ∈ t.components j, ProperName name := fun hj =>
    hfresh.shape.components_proper hfresh.names hj
  constructor
  · rintro ha
    obtain ⟨names, hnames⟩ := components_of_above hfresh.shape ha
    refine ⟨names ++ extra, fun name hn => ?_, ?_⟩
    · rcases List.mem_append.1 hn with hn | hn
      · exact hproper hnode name (hnames ▸ List.mem_append_right _ hn)
      · exact hextra name hn
    · rw [hspells, ← hnames, List.append_assoc]
  · rintro ⟨names, hnames, hpath⟩
    have hlists : t.components x.job.node ++ extra = t.components i ++ names := by
      refine join_injective (fun name hn => ?_) (fun name hn => ?_) (hspells.symm.trans hpath)
      · exact (List.mem_append.1 hn).elim (hproper hnode name) (hextra name)
      · exact (List.mem_append.1 hn).elim (hproper hi name) (hnames name)
    apply (components_prefix_iff hfresh.shape hi hnode).1
    have hpre : t.components i <+: t.components x.job.node ++ extra := ⟨names, hlists.symm⟩
    rcases Nat.le_total (t.components i).length (t.components x.job.node).length with hle | hle
    · exact List.prefix_of_prefix_length_le hpre (List.prefix_append _ _) hle
    · -- its own directory is no longer than the path, which no child of it leads on
      obtain ⟨rest, hrest⟩ := List.prefix_of_prefix_length_le (List.prefix_append _ extra) hpre hle
      cases rest with
      | nil => exact ⟨[], by rw [← hrest, List.append_nil, List.append_nil]⟩
      | cons other rest =>
        have hhead : other ∈ extra.head? := by
          rw [← hrest, List.append_assoc] at hlists
          rw [List.append_cancel_left hlists]
          rfl
        have hchild : t.components x.job.node ++ [other] <+: t.components i := ⟨rest, by rw [← hrest]; simp⟩
        obtain ⟨a, ha, hp, hname⟩ := exists_child hfresh.shape hnode hi hchild
        exact absurd hname (hother a hp ha other hhead)

end Inside

/-! ## Totals -/

/-- What the entries met that meet a condition add up to. -/
def addedUp (met : Multiset Met) (P : Met → Prop) [DecidablePred P] (c : Component) : Nat := ((met.filter P).map fun m => m.amount c).sum

theorem amounts_filter (log : List Tallied) {P : Tallied → Prop} {Q : Met → Prop} [DecidablePred P] [DecidablePred Q]
    (h : ∀ r ∈ log, P r ↔ Q r.met) (c : Component) :
    amounts (log.filter P) c = addedUp ((log.map Tallied.met : List Met) : Multiset Met) Q c := by
  induction log with
  | nil => rfl
  | cons r log ih =>
    have hrest := ih fun x hx => h x (List.mem_cons_of_mem _ hx)
    have hr := h r (List.mem_cons_self ..)
    unfold addedUp at hrest ⊢
    rw [List.map_cons, ← Multiset.cons_coe]
    by_cases hP : P r
    · rw [List.filter_cons_of_pos (by simpa using hP), Multiset.filter_cons_of_pos _ (hr.1 hP), Multiset.map_cons, Multiset.sum_cons,
        ← hrest, amount_met]
      rfl
    · rw [List.filter_cons_of_neg (by simpa using hP), Multiset.filter_cons_of_neg _ fun hQ => hP (hr.2 hQ), hrest]

open Classical in
/-- The sizes of the files won at and below a directory, as a sum over all. -/
theorem wonBelow_eq (t : DirTree) (won : Table Inode (Nat × Link)) (i : Nat) (c : Component) :
    wonBelow t won i c = won.total fun _ winner => if Above t.parentOf i winner.2.node then sizeAt winner.2.blocks winner.2.apparent c else 0 := by
  unfold wonBelow Table.total
  induction won.entries with
  | nil => rfl
  | cons e l ih =>
    rw [List.map_cons, List.sum_cons, ← ih]
    dsimp only
    by_cases ha : Above t.parentOf i e.2.2.node
    · rw [List.filter_cons_of_pos (by simpa using ha), if_pos ha, List.map_cons, List.sum_cons]
    · rw [List.filter_cons_of_neg (by simpa using ha), if_neg ha, Nat.zero_add]

section Agree

variable {host host' : Host} {fs : Frozen} {target target' : Target} {hash : Bytes → Nat} {t t' : DirTree} {log log' : List Tallied}
  {won won' : Table Inode (Nat × Link)}

theorem Alike.metOn (ha : Alike target target') {met : Multiset Met} (h : MetOn fs target' hash met) : MetOn fs target hash met := by
  obtain ⟨root, hs, h⟩ := h
  rw [ha.scanPath, ha.followSymlinks] at hs
  rw [ha.maxDepth] at h
  refine ⟨root, hs, h.imp id ?_⟩
  rintro ⟨hm, begun, hb, rfl⟩
  exact ⟨hm, begun, ha.roams hb, by rw [ha.met]⟩

theorem linkKey_start (target : Target) (root : Stat) (hash : Bytes → Nat) (r : Tallied) :
    r.key (start target root hash) = hash (r.met.place.1 ++ [slash] ++ r.met.name) := rfl

theorem met_inode (r : Tallied) : r.inode = (r.met.stat.dev, r.met.stat.ino) := rfl

theorem isShared_met {r r' : Tallied} (h : r'.met = r.met) : r'.isShared = r.isShared :=
  congrArg (fun m : Met => decide (m.stat.kind ≠ .directory) && decide (1 < m.stat.nlink)) h

/-- Two walks that met the same count a multiply linked file at one link. -/
theorem won_agree {root root' : Stat} (hp : Proper fs) (hx : HashesApart fs target hash)
    (hmet : MetOn fs target hash ((log.map Tallied.met : List Met) : Multiset Met))
    (hsame : ((log'.map Tallied.met : List Met) : Multiset Met) = ((log.map Tallied.met : List Met) : Multiset Met))
    (h : WonLowest (start target root hash) log won) (h' : WonLowest (start target' root' hash) log' won') {inode : Inode}
    {winner : Nat × Link} (hw : won.get inode = some winner) :
    ∃ r ∈ log, ∃ r' ∈ log', ∃ winner', won'.get inode = some winner' ∧ r.Carries (start target root hash) winner.2 ∧
      r'.Carries (start target' root' hash) winner'.2 ∧ r.job.path = r'.job.path ∧ r.stat = r'.stat := by
  have hin : ∀ r ∈ log, ∃ r' ∈ log', r'.met = r.met := by
    rintro r hr
    have hm : r.met ∈ ((log'.map Tallied.met : List Met) : Multiset Met) := hsame ▸ Multiset.mem_coe.2 (List.mem_map_of_mem hr)
    exact List.mem_map.1 (Multiset.mem_coe.1 hm)
  have hin' : ∀ r' ∈ log', ∃ r ∈ log, r.met = r'.met := by
    rintro r' hr'
    have hm : r'.met ∈ ((log.map Tallied.met : List Met) : Multiset Met) := hsame ▸ Multiset.mem_coe.2 (List.mem_map_of_mem hr')
    exact List.mem_map.1 (Multiset.mem_coe.1 hm)
  obtain ⟨r, hr, hs, rfl, hc⟩ := h.met inode winner hw
  -- the other walk met the same link, so what it won is no higher
  obtain ⟨q', hq', hqm⟩ := hin r hr
  obtain ⟨winner', hw', hle'⟩ := h'.lowest q' hq' ((isShared_met hqm).trans hs)
  have hqi : q'.inode = r.inode := by rw [met_inode, hqm, ← met_inode]
  rw [hqi] at hw'
  obtain ⟨r', hr', hs', hi', hc'⟩ := h'.met _ winner' hw'
  obtain ⟨q, hq, hqm'⟩ := hin' r' hr'
  obtain ⟨_, hw₂, hle⟩ := h.lowest q hq ((isShared_met hqm').trans hs')
  have hqi' : q.inode = r.inode := by rw [met_inode, hqm', ← met_inode, hi']
  rw [hqi', hw] at hw₂
  cases hw₂
  have hkeys : r.key (start target root hash) = r'.key (start target' root' hash) := by
    rw [linkKey_start, hqm, ← linkKey_start target root hash] at hle'
    rw [linkKey_start, hqm', ← linkKey_start target' root' hash] at hle
    rw [hc'.key] at hle'
    rw [hc.key] at hle
    exact le_antisymm hle hle'
  have hm : r.met ∈ ((log.map Tallied.met : List Met) : Multiset Met) := Multiset.mem_coe.2 (List.mem_map_of_mem hr)
  have hm' : r'.met ∈ ((log.map Tallied.met : List Met) : Multiset Met) := hsame ▸ Multiset.mem_coe.2 (List.mem_map_of_mem hr')
  obtain ⟨hpath, hname⟩ := hx _ hmet _ hm _ hm' hi'.symm hkeys
  exact ⟨r, hr, r', hr', winner', hw', hc, hc', hpath, hmet.same_stat hp hm hm' hpath hname⟩

/-- Two scans of one file system: of it as it is, with targets that tell what is read alike. -/
structure Twins (fs : Frozen) (host host' : Host) (target target' : Target) (hash : Bytes → Nat) : Prop where
  frozen : host.Frozen fs
  frozen' : host'.Frozen fs
  proper : host.listing.Proper
  proper' : host'.listing.Proper
  alike : Alike target target'
  apart : HashesApart fs target hash

theorem Twins.same_met (h : Twins fs host host' target target' hash) (hs : LogScan host target hash t log won)
    (hs' : LogScan host' target' hash t' log' won') :
    ((log'.map Tallied.met : List Met) : Multiset Met) = ((log.map Tallied.met : List Met) : Multiset Met) :=
  MetOn.unique h.alike (hs.metOn h.frozen) (hs'.metOn h.frozen')

theorem scanRoot_of_logScan (hs : LogScan host target hash t log won) : t.scanRoot = target.scanPath := by
  obtain ⟨root, handle, n, b, data, -, hb, -⟩ := hs.started
  obtain ⟨u, hu, rfl⟩ := Option.map_eq_some_iff.1 hb.tree
  unfold buildTree at hu
  split at hu
  · cases hu
  · cases hu
    rfl

/-- In both trees a directory of the same names holds the same paths. -/
theorem Twins.inside_iff (h : Twins fs host host' target target' hash) (hs : LogScan host target hash t log won)
    (hs' : LogScan host' target' hash t' log' won') {i i' : Nat} (hc : t'.components i' = t.components i) (path : Bytes) :
    Inside t' i' path ↔ Inside t i path := by
  unfold Inside
  rw [hc, scanRoot_of_logScan hs, scanRoot_of_logScan hs', h.alike.scanPath]

open Classical in
/-- A directory tracked by both scans has the same total in both trees, up to the limit of a `u64`. -/
theorem Twins.total_agree (h : Twins fs host host' target target' hash) (hs : LogScan host target hash t log won)
    (hs' : LogScan host' target' hash t' log' won') {i i' : Nat} (hi : i < t.nodes.length) (hi' : i' < t'.nodes.length)
    (hc : t'.components i' = t.components i) (c : Component) :
    min ((t'.node i').sub.get c) u64Max = min ((t.node i).sub.get c) u64Max := by
  obtain ⟨root, handle, n, b, data, -, hb, -⟩ := hs.started
  obtain ⟨root', handle', n', b', data', -, hb', -⟩ := hs'.started
  have hsame := h.same_met hs hs'
  have hmet := hs.metOn h.frozen
  have halive := (hb.fresh h.proper).alive i hi
  have halive' := (hb'.fresh h.proper').alive i' hi'
  have habove : ∀ r ∈ log, Above t.parentOf i r.job.node ↔ Inside t i r.met.place.1 := fun r hr => hb.above_iff h.proper hr halive
  have habove' : ∀ r ∈ log', Above t'.parentOf i' r.job.node ↔ Inside t i r.met.place.1 := fun r hr =>
    (hb'.above_iff h.proper' hr halive').trans (h.inside_iff hs hs' hc _)
  have hwon : wonBelow t' won' i' c = wonBelow t won i c := by
    rw [wonBelow_eq, wonBelow_eq]
    apply Table.total_eq
    rintro inode
    cases hw : won.get inode with
    | none =>
      -- a link won there was met here too
      cases hw' : won'.get inode with
      | none => rfl
      | some winner' =>
        obtain ⟨r', hr', hshared, rfl, -⟩ := hb'.lowest.met inode winner' hw'
        have hm : r'.met ∈ ((log.map Tallied.met : List Met) : Multiset Met) := hsame ▸ Multiset.mem_coe.2 (List.mem_map_of_mem hr')
        obtain ⟨r, hr, he⟩ := List.mem_map.1 (Multiset.mem_coe.1 hm)
        obtain ⟨winner, hg, -⟩ := hb.lowest.lowest r hr ((isShared_met he).trans hshared)
        rw [met_inode, he, ← met_inode, hw] at hg
        cases hg
    | some winner =>
      obtain ⟨r, hr, r', hr', winner', hw', hcar, hcar', hpath, hstat⟩ :=
        won_agree (proper_of_host h.frozen h.proper) h.apart hmet hsame hb.lowest hb'.lowest hw
      have hiff : Above t'.parentOf i' winner'.2.node ↔ Above t.parentOf i winner.2.node := by
        rw [hcar.node, hcar'.node, habove r hr, habove' r' hr']
        show Inside t i r'.job.path ↔ Inside t i r.job.path
        rw [hpath]
      rw [hw', Option.map_some, Option.map_some]
      congr 1
      rw [hcar.blocks, hcar.apparent, hcar'.blocks, hcar'.apparent, hstat]
      by_cases ha : Above t.parentOf i winner.2.node
      · rw [if_pos ha, if_pos (hiff.2 ha)]
      · rw [if_neg ha, if_neg fun ha' => ha (hiff.1 ha')]
  rw [hs.total h.proper hi c, hs'.total h.proper' hi' c, amounts_filter log (Q := fun m => Inside t i m.place.1) habove,
    amounts_filter log' (Q := fun m => Inside t i m.place.1) habove', hsame, hwon]

/-- Whatever the schedule, the number of workers, the cap and what is reported, two scans of one file system have
the same totals, up to the limit of a `u64`, for each directory that both track. -/
theorem totals_agree {result result' : ScanResult} (h : Twins fs host host' target target' hash) (hs : Scans host target hash (.ok result))
    (hs' : Scans host' target' hash (.ok result')) (ht : result.tree = some t) (ht' : result'.tree = some t') {i i' : Nat}
    (hi : i < t.nodes.length) (hi' : i' < t'.nodes.length) (hc : t'.components i' = t.components i) (c : Component) :
    min ((t'.node i').sub.get c) u64Max = min ((t.node i).sub.get c) u64Max := by
  obtain ⟨log, won, hlog⟩ := logScan_of_scan hs ht
  obtain ⟨log', won', hlog'⟩ := logScan_of_scan hs' ht'
  exact h.total_agree hlog hlog' hi hi' hc c

end Agree

theorem twins_twice : Twins twiceFs twiceHost twiceHost roomyTarget crowdedTarget List.length := by
  refine ⟨frozen_twice, frozen_twice, proper_twice, proper_twice, alike_twice, fun met hmet m hm m' hm' hi hlen => ?_⟩
  -- its two links have paths of different lengths
  have hplaces : ∀ m ∈ met, (m.place.1 = [slash, 100] ∧ (m.name = [102] ∧ m.stat.ino = 7 ∨ m.name = [115] ∧ m.stat.ino = 3)) ∨
      m.place.1 = [slash, 100, slash, 115] ∧ m.name = [102] ∧ m.stat.ino = 7 := by
    rintro m hm
    obtain ⟨-, reading, hl, e, he, hn, hs⟩ := hmet.listed hm
    rcases twice_listing hl with ⟨hp, rfl⟩ | ⟨hp, rfl⟩
    · rcases List.mem_pair.1 he with rfl | rfl
      · exact .inl ⟨hp, .inl ⟨hn.symm, by rw [← Except.ok.inj hs]; rfl⟩⟩
      · exact .inl ⟨hp, .inr ⟨hn.symm, by rw [← Except.ok.inj hs]; rfl⟩⟩
    · obtain rfl := List.mem_singleton.1 he
      exact .inr ⟨hp, hn.symm, by rw [← Except.ok.inj hs]; rfl⟩
  have hino : m.stat.ino = m'.stat.ino := congrArg Prod.snd hi
  rcases hplaces m hm with ⟨hp, ⟨hn, h7⟩ | ⟨hn, h3⟩⟩ | ⟨hp, hn, h7⟩ <;>
    rcases hplaces m' hm' with ⟨hp', ⟨hn', h7'⟩ | ⟨hn', h3'⟩⟩ | ⟨hp', hn', h7'⟩ <;>
    simp_all

/-- The root's totals, with the directory below it tracked or not. -/
theorem totals_agree_twice : ∃ result result' t t', Scans twiceHost roomyTarget List.length (.ok result) ∧
    Scans twiceHost crowdedTarget List.length (.ok result') ∧ result.tree = some t ∧ result'.tree = some t' ∧
    t.nodes.length = 2 ∧ t'.nodes.length = 1 ∧
    min ((t'.node 0).sub.get .blocks) u64Max = min ((t.node 0).sub.get .blocks) u64Max := by
  obtain ⟨result, hs, hr⟩ := scan_roomy
  obtain ⟨result', hs', hr'⟩ := scan_crowded
  obtain ⟨t, ht, hsub⟩ := Option.map_eq_some_iff.1 hr
  obtain ⟨t', ht', hsub'⟩ := Option.map_eq_some_iff.1 hr'
  have hlen : t.nodes.length = 2 := congrArg Prod.snd hsub
  have hlen' : t'.nodes.length = 1 := congrArg Prod.snd hsub'
  exact ⟨result, result', t, t', hs, hs', ht, ht', hlen, hlen',
    totals_agree twins_twice hs hs' ht ht' (by omega) (by omega) (by rw [Shape.components_zero, Shape.components_zero]) .blocks⟩

end Walk

end StorageHarvester
