/-
The exposition of an accepted configuration: its targets' names and labels are as the exporter needs
them, so the text is well formed exactly where each target's modes, directories and disks are told apart.
-/
import StorageHarvester.Exporter.WellFormed
import StorageHarvester.Tree.Find

namespace StorageHarvester.Exporter

/-! ## One target -/

/-- Where the samples of a target could be one series. -/
structure ShownApart (live : Option LiveStore) (s : TargetSnapshot) : Prop where
  modes : ∀ r, s.lastSuccess = some r → r.result.observations ≠ [] → s.sizeModes.Nodup
  nodes : ∀ r, s.lastSuccess = some r → (r.result.observations.map nodeShown).Nodup
  disks : ∀ lt, (live.bind fun live => live.target s.targetName) = some lt → lt.lvm = true → ∀ pool, lt.pool = some pool →
    (pool.disks.map PoolDisk.path).Nodup

theorem distinct_of_metrics {l : List Sample} (h : (l.map Sample.metric).Nodup) : Distinct l :=
  (List.pairwise_map.1 h).imp fun hne hsame => hne (name_injective hsame.1)

section Snapshot

variable {s : TargetSnapshot} (hs : OwnLabels s.labels)

theorem within_disk (s : TargetSnapshot) (d : PoolDisk) : Within 2 2 (writeDisk s d) :=
  within_samples _ [.blockRead, .blockWritten] rfl (by decide)

include hs in
theorem distinct_disks (disks : List PoolDisk) : Distinct (disks.flatMap (writeDisk s)) ↔ (disks.map PoolDisk.path).Nodup := by
  unfold Distinct
  rw [List.pairwise_flatMap, List.Nodup, List.pairwise_map]
  constructor
  · rintro ⟨-, h⟩
    refine h.imp fun {a b} hab he => ?_
    have hmem : ∀ d : PoolDisk, (⟨.blockRead, labelsAt s d.path [], .count d.read⟩ : Sample) ∈ writeDisk s d := fun _ => List.mem_cons_self
    refine hab _ (hmem a) _ (hmem b) ⟨rfl, fun l => ?_⟩
    rw [he]
  · intro h
    refine ⟨fun d _ => distinct_samples _ [.blockRead, .blockWritten] rfl (by decide), h.imp fun {a b} hne x hx y hy hsame => hne ?_⟩
    exact (of_samples s a.path _ x hx).value_eq (of_samples s b.path _ y hy) hs hsame (k := ascii "path") (by simp [targetPairs, pair])
      (by simp [targetPairs, pair])

/-- The metrics of a pool, apart from its disks'. -/
def poolMetrics : List Metric :=
  [.filesystemSize, .filesystemUsed, .filesystemAvail, .thinMetadataSize, .thinMetadataUsed, .thinProvisioned]

theorem within_pool (s : TargetSnapshot) (lt : LiveTarget) : Within 1 2 (writePool s lt) := by
  unfold writePool
  split
  · exact .nil 1 2
  · exact (within_samples _ poolMetrics rfl (by decide) : Within 1 2 _).append ((Within.flatMap fun d _ => within_disk s d).mono (by decide) (by decide))

include hs in
theorem distinct_pool (lt : LiveTarget) :
    Distinct (writePool s lt) ↔ ∀ pool, lt.pool = some pool → (pool.disks.map PoolDisk.path).Nodup := by
  unfold writePool
  cases hp : lt.pool with
  | none => simp [Distinct]
  | some pool =>
    dsimp only
    rw [distinct_append (within_samples _ poolMetrics rfl (by decide) : Within 1 1 _)
        (Within.flatMap fun d _ => within_disk s d) (by decide), distinct_disks hs]
    constructor
    · rintro ⟨-, h⟩ _ he
      cases he
      exact h
    · intro h
      exact ⟨distinct_samples _ poolMetrics rfl (by decide), h pool rfl⟩

theorem within_usage (s : TargetSnapshot) (lt : LiveTarget) : Within 1 2 (writeUsage s lt) := by
  unfold writeUsage
  split
  · exact .nil 1 2
  · exact within_samples _ [.filesystemSize, .filesystemUsed, .filesystemAvail] rfl (by decide)

theorem distinct_usage (s : TargetSnapshot) (lt : LiveTarget) : Distinct (writeUsage s lt) := by
  unfold writeUsage
  split
  · exact .nil
  · exact distinct_samples _ [.filesystemSize, .filesystemUsed, .filesystemAvail] rfl (by decide)

theorem within_live (s : TargetSnapshot) (lt : LiveTarget) : Within 3 3 (writeLive s lt) :=
  within_samples _ [.liveRelists, .liveChanges, .liveRescansRequested] rfl (by decide)

theorem within_space (s : TargetSnapshot) (lt : LiveTarget) : Within 1 2 (if lt.lvm then writePool s lt else writeUsage s lt) := by
  split
  · exact within_pool s lt
  · exact within_usage s lt

theorem within_liveTarget (s : TargetSnapshot) (lt : Option LiveTarget) : Within 1 3 (writeLiveTarget s lt) := by
  unfold writeLiveTarget
  split
  · exact .nil 1 3
  · exact ((within_space s _).mono (by decide) (by decide)).append ((within_live s _).mono (by decide) (by decide))

include hs in
theorem distinct_liveTarget (lt : Option LiveTarget) : Distinct (writeLiveTarget s lt) ↔
    ∀ l, lt = some l → l.lvm = true → ∀ pool, l.pool = some pool → (pool.disks.map PoolDisk.path).Nodup := by
  unfold writeLiveTarget
  cases lt with
  | none => simp [Distinct]
  | some lt =>
    dsimp only
    have hlive : Distinct (writeLive s lt) := distinct_samples _ [.liveRelists, .liveChanges, .liveRescansRequested] rfl (by decide)
    rw [distinct_append (within_space s lt) (within_live s lt) (by decide)]
    cases hl : lt.lvm with
    | true =>
      rw [if_pos rfl, distinct_pool hs]
      constructor
      · rintro ⟨h, -⟩ _ he _
        cases he
        exact h
      · exact fun h => ⟨h lt rfl hl, hlive⟩
    | false =>
      constructor
      · rintro - _ he hlvm
        cases he
        rw [hl] at hlvm
        cases hlvm
      · exact fun _ => ⟨distinct_usage s lt, hlive⟩

theorem within_sharing (s : TargetSnapshot) (sharing : Option SharingReport) : Within 4 4 (writeSharing s sharing) := by
  unfold writeSharing
  split
  · exact .nil 4 4
  · exact within_samples _ [.targetDisk, .sharingDuration, .sharingTimestamp] rfl (by decide)

theorem distinct_sharing (s : TargetSnapshot) (sharing : Option SharingReport) : Distinct (writeSharing s sharing) := by
  unfold writeSharing
  split
  · exact .nil
  · exact distinct_samples _ [.targetDisk, .sharingDuration, .sharingTimestamp] rfl (by decide)

theorem within_target (s : TargetSnapshot) (now : Nat) : Within 5 5 (writeTarget s now) :=
  within_samples _ [.targetInfo, .targetInterval, .scanCount, .scanErrors, .scanRunning, .scanRunningSeconds] rfl (by decide)

theorem distinct_target (s : TargetSnapshot) (now : Nat) : Distinct (writeTarget s now) :=
  distinct_samples _ [.targetInfo, .targetInterval, .scanCount, .scanErrors, .scanRunning, .scanRunningSeconds] rfl (by decide)

/-- The issues of a scan, and how many of each. -/
def issues (r : Success) : List (String × Nat) :=
  [("permission_errors", r.result.counts.permissionErrors), ("missing_path_races", r.result.counts.missingPathRaces),
    ("skipped_cross_device", r.result.counts.skippedCrossDevice), ("skipped_excluded", r.result.counts.skippedExcluded)]

/-- The samples of a successful scan before its issues. -/
def successHead (s : TargetSnapshot) (now : Nat) (r : Success) : List Sample :=
  samples (labels s []) [(.scanSuccess, .count s.lastError.isNone.toNat)] ++
    ⟨.scanDuration, labels s [] ++ [(ascii "backend", escapeLabelValue r.backend)], .seconds r.duration⟩ ::
      samples (labels s []) [(.scanTimestamp, .count (r.timestamp / 1000000000)), (.targetStale, .seconds (now - r.timestamp))]

/-- And those after them. -/
def successTail (s : TargetSnapshot) (r : Success) : List Sample :=
  samples (labels s [])
    [(.reportedNodes, .count r.result.observations.length), (.scannedDirectories, .count r.result.counts.scannedDirectories),
      (.scannedFiles, .count r.result.counts.scannedFiles), (.scannedSymlinks, .count r.result.counts.scannedSymlinks),
      (.maxObservedDepth, .count r.result.counts.maxObservedDepth), (.depthLimitHits, .count r.result.counts.depthLimitHits)]

theorem writeSuccess_eq (s : TargetSnapshot) (now : Nat) (r : Success) :
    writeSuccess s now r = successHead s now r ++ ((issues r).map (fun e => writeIssue s e.1 e.2) ++ successTail s r) := rfl

theorem within_successHead (s : TargetSnapshot) (now : Nat) (r : Success) : Within 10 10 (successHead s now r) := by
  intro x hx
  have hm : x.metric ∈ (successHead s now r).map Sample.metric := List.mem_map_of_mem hx
  have hmetrics : (successHead s now r).map Sample.metric = [.scanSuccess, .scanDuration, .scanTimestamp, .targetStale] := rfl
  rw [hmetrics] at hm
  revert hm
  generalize x.metric = m
  revert m
  decide

theorem within_issues (s : TargetSnapshot) (r : Success) : Within 11 11 ((issues r).map fun e => writeIssue s e.1 e.2) := by
  intro x hx
  obtain ⟨e, -, rfl⟩ := List.mem_map.1 hx
  exact ⟨Nat.le_refl _, Nat.le_refl _⟩

theorem within_successTail (s : TargetSnapshot) (r : Success) : Within 12 12 (successTail s r) :=
  within_samples _ [.reportedNodes, .scannedDirectories, .scannedFiles, .scannedSymlinks, .maxObservedDepth, .depthLimitHits] rfl
    (by decide)

include hs in
theorem distinct_issues (r : Success) : Distinct ((issues r).map fun e => writeIssue s e.1 e.2) := by
  unfold Distinct
  rw [List.pairwise_map]
  have hnames : (issues r).Pairwise fun a b => ascii a.1 ≠ ascii b.1 := by
    rw [← List.pairwise_map (f := fun e : String × Nat => ascii e.1)]
    exact (by decide : ["permission_errors", "missing_path_races", "skipped_cross_device", "skipped_excluded"].map ascii
      |>.Pairwise (· ≠ ·))
  refine hnames.imp fun {a b} hne hsame => hne ?_
  exact (of_issue s .scanIssueCount (.count a.2) (ascii a.1)).value_eq (of_issue s .scanIssueCount (.count b.2) (ascii b.1)) hs hsame
    (k := ascii "issue") (by simp [pair]) (by simp [pair])

include hs in
theorem distinct_success (now : Nat) (r : Success) : Distinct (writeSuccess s now r) := by
  rw [writeSuccess_eq, distinct_append (within_successHead s now r)
    (((within_issues s r).mono (by decide) (by decide) : Within 11 12 _).append ((within_successTail s r).mono (by decide) (by decide)))
    (by decide), distinct_append (within_issues s r) (within_successTail s r) (by decide)]
  have hhead : (successHead s now r).map Sample.metric = [.scanSuccess, .scanDuration, .scanTimestamp, .targetStale] := rfl
  refine ⟨distinct_of_metrics (by rw [hhead]; decide), distinct_issues hs r, ?_⟩
  exact distinct_samples _ [.reportedNodes, .scannedDirectories, .scannedFiles, .scannedSymlinks, .maxObservedDepth, .depthLimitHits] rfl
    (by decide)

theorem within_success (s : TargetSnapshot) (now : Nat) (r : Success) : Within 10 12 (writeSuccess s now r) := by
  rw [writeSuccess_eq]
  exact ((within_successHead s now r).mono (by decide) (by decide)).append
    (((within_issues s r).mono (by decide) (by decide)).append ((within_successTail s r).mono (by decide) (by decide)))

theorem within_scan (s : TargetSnapshot) (now : Nat) (sharing : Option SharingReport) : Within 6 12 (writeScan s now sharing) := by
  unfold writeScan
  split
  · exact ((Within.flatMap fun node _ => within_node s _ sharing node).mono (by decide) (by decide)).append
      ((within_success s now _).mono (by decide) (by decide))
  · exact within_samples _ [.scanSuccess, .targetStale] rfl (by decide)

include hs in
theorem distinct_scan (now : Nat) (sharing : Option SharingReport) : Distinct (writeScan s now sharing) ↔
    (∀ r, s.lastSuccess = some r → r.result.observations ≠ [] → s.sizeModes.Nodup) ∧
      ∀ r, s.lastSuccess = some r → (r.result.observations.map nodeShown).Nodup := by
  unfold writeScan
  cases hr : s.lastSuccess with
  | none =>
    have hfailed : Distinct (samples (labels s []) [(.scanSuccess, .count 0), (.targetStale, .infinite)]) :=
      distinct_samples _ [.scanSuccess, .targetStale] rfl (by decide)
    simp [hfailed]
  | some r =>
    dsimp only
    rw [distinct_append (Within.flatMap fun node _ => within_node s _ sharing node) (within_success s now r) (by decide),
      distinct_nodes hs]
    simp [distinct_success hs now r]

include hs in
/-- One target's samples are all different series exactly where it is shown apart. -/
theorem distinct_snapshot (live : Option LiveStore) (now : Nat) : Distinct (writeSnapshot live now s) ↔ ShownApart live s := by
  unfold writeSnapshot
  dsimp only
  rw [distinct_append (within_liveTarget s _)
      (((within_sharing s _).mono (by decide) (by decide) : Within 4 12 _).append
        (((within_target s now).mono (by decide) (by decide)).append ((within_scan s now _).mono (by decide) (by decide)))) (by decide),
    distinct_append (within_sharing s _)
      (((within_target s now).mono (by decide) (by decide) : Within 5 12 _).append ((within_scan s now _).mono (by decide) (by decide)))
      (by decide),
    distinct_append (within_target s now) (within_scan s now _) (by decide), distinct_liveTarget hs, distinct_scan hs]
  constructor
  · rintro ⟨hdisks, -, -, hmodes, hnodes⟩
    exact ⟨hmodes, hnodes, hdisks⟩
  · rintro ⟨hmodes, hnodes, hdisks⟩
    exact ⟨hdisks, distinct_sharing s _, distinct_target s now, hmodes, hnodes⟩

theorem within_snapshot (live : Option LiveStore) (now : Nat) (s : TargetSnapshot) : Within 1 12 (writeSnapshot live now s) :=
  ((within_liveTarget s _).mono (by decide) (by decide)).append
    (((within_sharing s _).mono (by decide) (by decide)).append
      (((within_target s now).mono (by decide) (by decide)).append ((within_scan s now _).mono (by decide) (by decide))))

end Snapshot

/-! ## An accepted configuration -/

/-- A target's labels are a map: each name is there once. -/
def LabelMaps (c : Config) : Prop := ∀ t ∈ c.targets, (t.labels.map Prod.fst).Nodup

theorem labels_of_checkLabels {name : Bytes} : ∀ {labels : List (Bytes × Bytes)}, Config.checkLabels name labels = .ok () →
    ∀ l ∈ labels, Config.isLabelName l.1 = true ∧ l.1 ∉ Config.builtinLabels
  | [], _, l, hl => absurd hl List.not_mem_nil
  | (key, value) :: labels, h, l, hl => by
    rw [Config.checkLabels] at h
    simp only [Config.bind_eq_ok, Config.ensure_eq_ok, exists_and_left, exists_const] at h
    obtain ⟨hkey, hbuiltin, hrest⟩ := h
    rcases List.mem_cons.1 hl with rfl | hl
    · exact ⟨hkey, by simpa using hbuiltin⟩
    · exact labels_of_checkLabels hrest l hl

/-- The names of checked targets are all different, and their labels fit. -/
theorem names_of_checkTargets : ∀ {names : List Bytes} {targets : List TargetConfig}, Config.checkTargets names targets = .ok () →
    (targets.map TargetConfig.name).Nodup ∧ (∀ t ∈ targets, t.name ∉ names) ∧
      ∀ t ∈ targets, ∀ l ∈ t.labels, Config.isLabelName l.1 = true ∧ l.1 ∉ Config.builtinLabels
  | names, [], _ => by simp
  | names, t :: targets, h => by
    rw [Config.checkTargets, Config.bind_eq_ok] at h
    obtain ⟨_, hfirst, hrest⟩ := h
    obtain ⟨hnodup, hnew, hlabels⟩ := names_of_checkTargets hrest
    unfold Config.checkTarget at hfirst
    simp only [Config.bind_eq_ok, Config.ensure_eq_ok, exists_and_left, exists_const] at hfirst
    obtain ⟨-, -, hdup, -, -, -, -, _, -, -, hown⟩ := hfirst
    refine ⟨?_, ?_, ?_⟩
    · rw [List.map_cons, List.nodup_cons]
      refine ⟨fun hm => ?_, hnodup⟩
      obtain ⟨t', ht', he⟩ := List.mem_map.1 hm
      exact hnew t' ht' (by rw [he]; simp)
    · intro t' ht'
      rcases List.mem_cons.1 ht' with rfl | ht'
      · simpa using hdup
      · exact fun hm => hnew t' ht' (List.mem_append_left _ hm)
    · intro t' ht'
      rcases List.mem_cons.1 ht' with rfl | ht'
      · exact labels_of_checkLabels hown
      · exact hlabels t' ht'

/-- A resolved target keeps its name and its labels. -/
theorem resolved_names {parallelism : Option Nat} {c : Config} : ∀ {written : List TargetConfig} {targets : List Config.Target},
    Config.resolveAll parallelism c written = .ok targets →
      targets.map (fun t => (t.name, t.labels)) = written.map fun t => (t.name, t.labels)
  | [], targets, h => by cases h; rfl
  | t :: written, targets, h => by
    rw [Config.resolveAll] at h
    simp only [Config.bind_eq_ok] at h
    obtain ⟨r, hr, rest, hrest, h⟩ := h
    cases h
    unfold Config.resolveTarget at hr
    simp only [Config.bind_eq_ok] at hr
    obtain ⟨lvm, -, scanner, -, displayPath, -, maxDepth, -, hr⟩ := hr
    cases hr
    rw [List.map_cons, List.map_cons, resolved_names hrest]

/-- Recording scans changes nothing of what a snapshot has from its target. -/
theorem identity_update (store : SnapshotStore) (name : Bytes) {f : TargetSnapshot → TargetSnapshot} (hf : ∀ s, (f s).identity = s.identity) :
    (store.update name f).map TargetSnapshot.identity = store.map TargetSnapshot.identity := by
  unfold SnapshotStore.update
  rw [List.map_map]
  refine List.map_congr_left fun s _ => ?_
  show (if s.targetName = name then f s else s).identity = s.identity
  split
  · exact hf s
  · rfl

theorem identity_perm {targets : List Config.Target} {store : SnapshotStore} (h : SnapshotStore.Reachable targets store) :
    (store.map TargetSnapshot.identity).Perm ((targets.map TargetSnapshot.fromTarget).map TargetSnapshot.identity) := by
  induction h with
  | new => exact (List.perm_insertionSort _ _).map _
  | start _ name now ih => rw [identity_update (f := TargetSnapshot.recordStart now) _ _ fun _ => rfl]; exact ih
  | success _ name r ih => rw [identity_update (f := TargetSnapshot.recordSuccess r) _ _ fun _ => rfl]; exact ih
  | failure _ name error ih => rw [identity_update (f := TargetSnapshot.recordFailure error) _ _ fun _ => rfl]; exact ih

/-- What the exporter needs of the snapshots. -/
structure Accepted (snapshots : List TargetSnapshot) : Prop where
  names : (snapshots.map TargetSnapshot.targetName).Nodup
  labels : ∀ s ∈ snapshots, OwnLabels s.labels

theorem accepted_of_validate {parallelism : Option Nat} {c : Config} {targets : List Config.Target} (hv : c.validate = .ok ())
    (hm : LabelMaps c) (hr : c.resolvedTargets parallelism = .ok targets) {store : SnapshotStore}
    (hs : SnapshotStore.Reachable targets store) : Accepted store := by
  have htargets : Config.checkTargets [] c.targets = .ok () := by
    unfold Config.validate at hv
    simp only [Config.bind_eq_ok, Config.ensure_eq_ok, exists_and_left, exists_const] at hv
    obtain ⟨-, -, _, -, _, -, -, _, -, -, -, htargets⟩ := hv
    exact htargets
  obtain ⟨hnodup, -, hlabels⟩ := names_of_checkTargets htargets
  have hsame := resolved_names hr
  have hperm := identity_perm hs
  have hnames : (store.map TargetSnapshot.targetName).Perm (c.targets.map TargetConfig.name) := by
    have h1 := hperm.map Prod.fst
    simp only [List.map_map] at h1
    have h2 : targets.map (fun t => t.name) = c.targets.map TargetConfig.name := by
      have := congrArg (List.map Prod.fst) hsame
      rw [List.map_map, List.map_map] at this
      exact this
    rw [← h2]
    exact h1
  constructor
  · exact hnames.nodup_iff.2 hnodup
  · intro s hmem
    have h1 : s.identity ∈ (targets.map TargetSnapshot.fromTarget).map TargetSnapshot.identity :=
      hperm.subset (List.mem_map_of_mem hmem)
    obtain ⟨s', hs', he⟩ := List.mem_map.1 h1
    obtain ⟨r, hrm, rfl⟩ := List.mem_map.1 hs'
    have h2 : (r.name, r.labels) ∈ c.targets.map fun t => (t.name, t.labels) := hsame ▸ List.mem_map_of_mem hrm
    obtain ⟨t, ht, het⟩ := List.mem_map.1 h2
    have hl : s.labels = t.labels := by
      unfold TargetSnapshot.identity TargetSnapshot.fromTarget at he
      simp only [Prod.mk.injEq] at he het
      rw [← he.2.2.2.1, ← het.2]
    rw [hl]
    exact ⟨fun l hl => (hlabels t ht l hl).1, fun l hl => (hlabels t ht l hl).2, hm t ht⟩

/-! ## The exposition -/

theorem within_signals (live : Option LiveStore) : Within 13 13 (writeSignals live) := by
  unfold writeSignals
  split
  · exact .nil 13 13
  · exact within_samples _ [.liveSignals, .liveOverflows] rfl (by decide)

/-- Samples of two targets are different series. -/
theorem distinct_targets {live : Option LiveStore} {now : Nat} {s s' : TargetSnapshot} (hne : s.targetName ≠ s'.targetName)
    (hs' : OwnLabels s'.labels) : ∀ x ∈ writeSnapshot live now s, ∀ y ∈ writeSnapshot live now s', ¬ x.Same y := by
  intro x hx y hy hsame
  obtain ⟨before, after, hof, hmem⟩ := named_snapshot hx
  obtain ⟨before', after', hof', hmem'⟩ := named_snapshot hy
  exact hne (hof.value_eq hof' hs' hsame hmem hmem')

theorem distinct_render {snapshots : List TargetSnapshot} (h : Accepted snapshots) (version : Bytes) (live : Option LiveStore) (now : Nat) :
    Distinct (render version snapshots live now) ↔ ∀ s ∈ snapshots, ShownApart live s := by
  have hsignals : Distinct (writeSignals live) := by
    unfold writeSignals
    split
    · exact .nil
    · exact distinct_samples _ [.liveSignals, .liveOverflows] rfl (by decide)
  have hbuild : Within 0 0 [⟨.buildInfo, [(ascii "version", escapeLabelValue version)], .count 1⟩] := by
    intro x hx
    rw [List.mem_singleton.1 hx]
    exact ⟨Nat.le_refl _, Nat.le_refl _⟩
  have hall : Within 1 12 (snapshots.flatMap (writeSnapshot live now)) := .flatMap fun s _ => within_snapshot live now s
  have hsplit : render version snapshots live now =
      [⟨.buildInfo, [(ascii "version", escapeLabelValue version)], .count 1⟩] ++
        (snapshots.flatMap (writeSnapshot live now) ++ writeSignals live) := rfl
  rw [hsplit, distinct_append hbuild
      ((hall.mono (by decide) (by decide) : Within 1 13 _).append ((within_signals live).mono (by decide) (by decide))) (by decide),
    distinct_append hall (within_signals live) (by decide)]
  have hflat : Distinct (snapshots.flatMap (writeSnapshot live now)) ↔ ∀ s ∈ snapshots, ShownApart live s := by
    unfold Distinct
    rw [List.pairwise_flatMap]
    constructor
    · exact fun hd s hs => (distinct_snapshot (h.labels s hs) live now).1 (hd.1 s hs)
    · intro hd
      refine ⟨fun s hs => (distinct_snapshot (h.labels s hs) live now).2 (hd s hs), ?_⟩
      exact (List.pairwise_map.1 h.names).imp_of_mem fun {a b} _ hb hne => distinct_targets hne (h.labels b hb)
  rw [hflat]
  exact ⟨fun hd => hd.2.1, fun hd => ⟨List.pairwise_singleton _ _, hd, hsignals⟩⟩

/-- No sample of an accepted configuration repeats a label name. -/
theorem names_render {snapshots : List TargetSnapshot} (h : Accepted snapshots) (version : Bytes) (live : Option LiveStore) (now : Nat) :
    ∀ x ∈ render version snapshots live now, (x.labels.map Prod.fst).Nodup := by
  intro x hx
  unfold render at hx
  rcases List.mem_cons.1 hx with rfl | hx
  · exact List.nodup_singleton _
  rcases List.mem_append.1 hx with hx | hx
  · obtain ⟨s, hs, hx⟩ := List.mem_flatMap.1 hx
    obtain ⟨before, after, hof, -⟩ := named_snapshot hx
    exact hof.names (h.labels s hs)
  · unfold writeSignals at hx
    split at hx
    · cases hx
    · obtain ⟨v, -, rfl⟩ := List.mem_map.1 hx
      exact List.nodup_nil

/-- Whatever was scanned under an accepted configuration, the exposition is well formed exactly if every
target's modes, reported directories and disks are told apart. -/
theorem render_wellFormed_iff (parallelism : Option Nat) (c : Config) (targets : List Config.Target) (hv : c.validate = .ok ())
    (hm : LabelMaps c) (hr : c.resolvedTargets parallelism = .ok targets) (store : SnapshotStore)
    (hs : SnapshotStore.Reachable targets store) (version : Bytes) (live : Option LiveStore) (now : Nat) :
    WellFormed (render version store live now) ↔ ∀ s ∈ store, ShownApart live s := by
  have h := accepted_of_validate hv hm hr hs
  constructor
  · exact fun hw => (distinct_render h version live now).1 hw.series
  · exact fun hd => ⟨(distinct_render h version live now).2 hd, names_render h version live now⟩

/-- Directories whose paths are valid UTF-8 are shown apart. -/
theorem shown_apart_of_utf8 {t : DirTree} (h : Shape t) (hn : t.ProperNames) (hroot : t.displayRoot.head? = some slash) {nodes : List Nat}
    (hnodup : nodes.Nodup) (halive : ∀ i ∈ nodes, (t.node i).alive = true)
    (hvalid : ∀ i ∈ nodes, Utf8.valid (t.displayPathBytes i) = true) : ((nodes.map (observe t)).map nodeShown).Nodup := by
  rw [List.map_map]
  refine hnodup.map_on fun a ha b hb he => ?_
  have hpath : t.displayPath a = t.displayPath b := (Prod.ext_iff.1 he).1
  have h1 := h.find_displayPath hn hroot (halive a ha) (hvalid a ha)
  have h2 := h.find_displayPath hn hroot (halive b hb) (hvalid b hb)
  rw [hpath, h2] at h1
  exact (Option.some.inj h1).symm

/-! ## Two directories shown alike -/

/-- One target at `/data`. -/
def dataConfig : Config where
  targets := [{ name := ascii "data", path := ascii "/data", labels := [(ascii "host", ascii "nuc")] }]

/-- Two directories whose names are not valid UTF-8, below the root. -/
def latinTree : DirTree where
  displayRoot := ascii "/data"
  scanRoot := ascii "/data"
  rootDev := 1
  nodes :=
    [{ (default : DirNode) with children := [1, 2], alive := true },
      { (default : DirNode) with name := [0xE8], parent := some 0, depth := 1, alive := true },
      { (default : DirNode) with name := [0xE9], parent := some 0, depth := 1, alive := true }]
  links := .empty
  handles := []
  plain := []
  untrackedLinks := []

def latinSuccess : Success where
  result := { observations := [observe latinTree 0, observe latinTree 1, observe latinTree 2], entries := [], counts := {}, tree := some latinTree }
  backend := ascii "native"
  duration := 0
  timestamp := 0

theorem labelMaps_dataConfig : LabelMaps dataConfig := by
  intro t ht
  rw [List.mem_singleton.1 ht]
  exact List.nodup_singleton _

def dataTargets : List Config.Target := (dataConfig.resolvedTargets none).toOption.getD []

/-- The same with names that are. -/
def asciiTree : DirTree :=
  { latinTree with
    nodes :=
      [{ (default : DirNode) with children := [1, 2], alive := true },
        { (default : DirNode) with name := ascii "a", parent := some 0, depth := 1, alive := true },
        { (default : DirNode) with name := ascii "b", parent := some 0, depth := 1, alive := true }] }

def asciiSuccess : Success :=
  { latinSuccess with result := { latinSuccess.result with
      observations := [observe asciiTree 0, observe asciiTree 1, observe asciiTree 2], tree := some asciiTree } }

/-- After a scan that found these, every sample is a series of its own. -/
theorem render_wellFormed_scanned : dataConfig.validate = .ok () ∧ dataConfig.resolvedTargets none = .ok dataTargets ∧
    ∃ store, SnapshotStore.Reachable dataTargets store ∧ (∃ s ∈ store, s.lastSuccess = some asciiSuccess) ∧
      WellFormed (render [] store none 0) := by
  have hreach := SnapshotStore.Reachable.success (SnapshotStore.Reachable.new : SnapshotStore.Reachable dataTargets _) (ascii "data") asciiSuccess
  refine ⟨by decide, rfl, _, hreach, ⟨_, List.mem_cons_self, rfl⟩,
    (render_wellFormed_iff none dataConfig dataTargets (by decide) labelMaps_dataConfig rfl _ hreach [] none 0).2 fun s hs => ?_⟩
  obtain rfl := List.mem_singleton.1 hs
  refine ⟨fun _ _ _ => by decide, fun r hr => ?_, fun lt hlt => by cases hlt⟩
  obtain rfl : asciiSuccess = r := Option.some.inj hr
  decide

/-- After a scan that found them, both directories are written as `/data/` and the same replacement character. -/
theorem latin_names_collide : dataConfig.validate = .ok () ∧ dataConfig.resolvedTargets none = .ok dataTargets ∧
    ∃ store, SnapshotStore.Reachable dataTargets store ∧ (∃ s ∈ store, s.lastSuccess = some latinSuccess) ∧
      ¬ WellFormed (render [] store none 0) := by
  have hreach := SnapshotStore.Reachable.success (SnapshotStore.Reachable.new : SnapshotStore.Reachable dataTargets _) (ascii "data") latinSuccess
  refine ⟨by decide, rfl, _, hreach, ⟨_, List.mem_cons_self, rfl⟩, fun h => ?_⟩
  have haccepted := accepted_of_validate (by decide) labelMaps_dataConfig rfl hreach
  have hshown := (distinct_render haccepted [] none 0).1 h.series _ List.mem_cons_self
  have hnodup := hshown.nodes latinSuccess rfl
  exact absurd hnodup (by decide)

end StorageHarvester.Exporter
