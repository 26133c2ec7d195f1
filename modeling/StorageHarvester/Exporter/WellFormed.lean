/-
When the exposition is well formed. Under an accepted configuration no sample repeats a label name, and
samples of different metrics or targets are different series; so two samples are one series exactly if a
size mode is listed twice, or two directories or two disks of one target are shown alike.
-/
import StorageHarvester.Exporter.Prometheus

namespace StorageHarvester.Exporter

/-! ## What is written is told apart -/

def Metric.all : List Metric :=
  [.buildInfo, .filesystemSize, .filesystemUsed, .filesystemAvail, .thinMetadataSize, .thinMetadataUsed, .thinProvisioned,
    .blockRead, .blockWritten, .liveRelists, .liveChanges, .liveRescansRequested, .targetDisk, .sharingDuration,
    .sharingTimestamp, .targetInfo, .targetInterval, .scanCount, .scanErrors, .scanRunning, .scanRunningSeconds, .ownSize,
    .childrenSize, .ownEntries, .childrenEntries, .exclusiveSize, .scanSuccess, .scanDuration, .scanTimestamp, .targetStale,
    .scanIssueCount, .reportedNodes, .scannedDirectories, .scannedFiles, .scannedSymlinks, .maxObservedDepth,
    .depthLimitHits, .liveSignals, .liveOverflows]

theorem metric_suffix_injective : Function.Injective fun m : Metric => ascii m.suffix := by
  have hall : ∀ m : Metric, m ∈ Metric.all := by
    intro m
    cases m <;> decide
  have hnodup : (Metric.all.map fun m => ascii m.suffix).Nodup := by decide
  exact fun a b hab => List.inj_on_of_nodup_map hnodup (hall a) (hall b) hab

theorem name_injective {a b : Metric} (h : a.name = b.name) : a = b :=
  metric_suffix_injective (List.append_cancel_left h)

/-- What one byte of a label value is written as. -/
def escapeByte (b : UInt8) : Bytes :=
  if b = backslash then [backslash, backslash]
  else if b = newline then [backslash, 110]
  else if b = quote then [backslash, quote]
  else [b]

theorem escape_eq_flatMap (value : Bytes) : escapeLabelValue value = value.flatMap escapeByte := by
  unfold escapeLabelValue replace
  rw [List.flatMap_assoc, List.flatMap_assoc]
  congr 1
  funext b
  unfold escapeByte
  by_cases h1 : b = backslash
  · subst h1
    decide
  · by_cases h2 : b = newline
    · subst h2
      decide
    · by_cases h3 : b = quote
      · subst h3
        decide
      · simp [h1, h2, h3]

/-- Reads an escaped value back. -/
def unescape : Bytes → Bytes
  | 92 :: 92 :: rest => 92 :: unescape rest
  | 92 :: 110 :: rest => 10 :: unescape rest
  | 92 :: 34 :: rest => 34 :: unescape rest
  | b :: rest => b :: unescape rest
  | [] => []

theorem unescape_cons {b : UInt8} (h : b ≠ 92) (rest : Bytes) : unescape (b :: rest) = b :: unescape rest := by
  conv_lhs => unfold unescape
  split <;> simp_all

theorem unescape_escapeByte (b : UInt8) (rest : Bytes) : unescape (escapeByte b ++ rest) = b :: unescape rest := by
  unfold escapeByte
  split
  · next h => rw [h]; rfl
  split
  · next h => rw [h]; rfl
  split
  · next h => rw [h]; rfl
  · next h _ _ => exact unescape_cons h rest

theorem unescape_escape (value : Bytes) : unescape (escapeLabelValue value) = value := by
  rw [escape_eq_flatMap]
  induction value with
  | nil => rfl
  | cons b value ih => rw [List.flatMap_cons, unescape_escapeByte, ih]

theorem escape_injective : Function.Injective escapeLabelValue := fun a b h => by
  rw [← unescape_escape a, h, unescape_escape]

/-- A valid label name needs no sanitizing. -/
theorem sanitize_of_all {name : Bytes} (h : name.all (fun b => Bytes.isAsciiAlphanumeric b || b = underscore) = true) :
    sanitizeLabelName name = name := by
  have hall := List.all_eq_true.1 h
  have hascii : ∀ b : UInt8, (Bytes.isAsciiAlphanumeric b || b = underscore) = true → (!(128 ≤ b && b ≤ 191)) = true := by
    intro b hb
    simp only [Bytes.isAsciiAlphanumeric, Bytes.isAsciiAlphabetic, underscore, Bool.or_eq_true, Bool.and_eq_true,
      decide_eq_true_eq, Bool.not_eq_true', Bool.and_eq_false_iff, decide_eq_false_iff_not, UInt8.le_iff_toNat_le,
      ← UInt8.toNat_inj, UInt8.reduceToNat] at hb ⊢
    omega
  unfold sanitizeLabelName
  rw [List.filter_eq_self.2 fun b hb => hascii b (hall b hb)]
  exact (List.map_congr_left fun b hb => if_pos (hall b hb)).trans (List.map_id _)

theorem sanitize_builtin : ∀ k ∈ Config.builtinLabels, sanitizeLabelName k = k := by decide

/-! ## Labels -/

/-- What `validate` makes sure of in a target's own labels. -/
structure OwnLabels (labels : List (Bytes × Bytes)) : Prop where
  valid : ∀ l ∈ labels, Config.isLabelName l.1 = true
  fresh : ∀ l ∈ labels, l.1 ∉ Config.builtinLabels
  nodup : (labels.map Prod.fst).Nodup

theorem OwnLabels.sanitize {labels : List (Bytes × Bytes)} (h : OwnLabels labels) : ∀ l ∈ labels, sanitizeLabelName l.1 = l.1 := by
  intro l hl
  have := h.valid l hl
  unfold Config.isLabelName at this
  rw [Bool.and_eq_true, Bool.and_eq_true] at this
  exact sanitize_of_all this.1.2

/-- A sample of a target: the exporter's own labels around the target's. -/
structure Of (s : TargetSnapshot) (x : Sample) (before after : List (Bytes × Bytes)) : Prop where
  labels : x.labels = labelsFromPairs (before ++ s.labels ++ after)
  builtin : ∀ p ∈ before ++ after, p.1 ∈ Config.builtinLabels
  nodup : ((before ++ after).map Prod.fst).Nodup

namespace Of

variable {s : TargetSnapshot} {x : Sample} {before after : List (Bytes × Bytes)}

theorem names (h : Of s x before after) (hs : OwnLabels s.labels) : (x.labels.map Prod.fst).Nodup := by
  have hsame : x.labels.map Prod.fst = (before ++ s.labels ++ after).map Prod.fst := by
    rw [h.labels]
    unfold labelsFromPairs
    rw [List.map_map]
    refine List.map_congr_left fun p hp => ?_
    simp only [List.mem_append] at hp
    rcases hp with (hp | hp) | hp
    · exact sanitize_builtin _ (h.builtin p (List.mem_append_left _ hp))
    · exact hs.sanitize p hp
    · exact sanitize_builtin _ (h.builtin p (List.mem_append_right _ hp))
  have hperm : (before ++ s.labels ++ after).Perm (before ++ after ++ s.labels) := by
    rw [List.append_assoc, List.append_assoc]
    exact List.Perm.append_left before List.perm_append_comm
  rw [hsame, (hperm.map Prod.fst).nodup_iff, List.map_append, List.nodup_append]
  refine ⟨h.nodup, hs.nodup, ?_⟩
  intro k hk k' hk' he
  subst he
  obtain ⟨p, hp, rfl⟩ := List.mem_map.1 hk
  obtain ⟨l, hl, he⟩ := List.mem_map.1 hk'
  exact hs.fresh l hl (he ▸ h.builtin p hp)

/-- One of the exporter's own labels, as it is written. -/
theorem mem (h : Of s x before after) {k v : Bytes} (hm : (k, v) ∈ before ++ after) : (k, escapeLabelValue v) ∈ x.labels := by
  rw [h.labels]
  unfold labelsFromPairs
  refine List.mem_map.2 ⟨(k, v), ?_, ?_⟩
  · simp only [List.mem_append] at hm ⊢
    rcases hm with hm | hm
    · exact .inl (.inl hm)
    · exact .inr hm
  · rw [sanitize_builtin k (h.builtin _ hm)]

/-- Samples of one series agree on every label of the exporter's own. -/
theorem value_eq {s' : TargetSnapshot} {x' : Sample} {before' after' : List (Bytes × Bytes)} (h : Of s x before after)
    (h' : Of s' x' before' after') (hs' : OwnLabels s'.labels) (hsame : x.Same x') {k v w : Bytes} (hv : (k, v) ∈ before ++ after)
    (hw : (k, w) ∈ before' ++ after') : v = w := by
  have h1 := (hsame.2 _).1 (h.mem hv)
  have h2 := h'.mem hw
  have := List.inj_on_of_nodup_map (h'.names hs') h1 h2 rfl
  exact escape_injective (Prod.ext_iff.1 this).2

end Of

/-- The labels a target's own samples begin with. -/
def targetPairs (s : TargetSnapshot) (path : Bytes) : List (Bytes × Bytes) :=
  [pair "target" s.targetName, pair "target_type" s.targetType, pair "path" path]

def nodePairs (s : TargetSnapshot) (node : NodeObservation) : List (Bytes × Bytes) :=
  [pair "target" s.targetName, pair "target_type" s.targetType, pair "path" node.path, pair "parent" node.parent,
    pair "node" node.node, pair "depth" (decimal node.depth)]

theorem of_keys {s : TargetSnapshot} {x : Sample} {before after : List (Bytes × Bytes)} (keys : List String)
    (hl : x.labels = labelsFromPairs (before ++ s.labels ++ after)) (hk : (before ++ after).map Prod.fst = keys.map ascii)
    (hb : ∀ k ∈ keys.map ascii, k ∈ Config.builtinLabels) (hn : (keys.map ascii).Nodup) : Of s x before after where
  labels := hl
  builtin := fun p hp => hb p.1 (hk ▸ List.mem_map_of_mem hp)
  nodup := hk ▸ hn

/-- A sample that names its target. -/
def Named (s : TargetSnapshot) (x : Sample) : Prop :=
  ∃ before after, Of s x before after ∧ pair "target" s.targetName ∈ before ++ after

theorem Of.named {s : TargetSnapshot} {x : Sample} {before after : List (Bytes × Bytes)}
    (h : Of s x (pair "target" s.targetName :: before) after) : Named s x :=
  ⟨_, _, h, List.mem_cons_self⟩

section Samples

variable (s : TargetSnapshot) (m : Metric) (v : Value)

theorem of_disk (path : Bytes) : Of s ⟨m, labelsAt s path [], v⟩ (targetPairs s path) [] :=
  of_keys ["target", "target_type", "path"] rfl rfl (by decide) (by decide)

theorem of_scan (backend : Bytes) :
    Of s ⟨m, labels s [] ++ [(ascii "backend", escapeLabelValue backend)], v⟩ (targetPairs s s.path) [pair "backend" backend] :=
  of_keys ["target", "target_type", "path", "backend"] (by
    have hb : sanitizeLabelName (ascii "backend") = ascii "backend" := by decide
    simp [labels, labelsAt, labelsFromPairs, targetPairs, pair, hb]) rfl (by decide) (by decide)

theorem of_issue (issue : Bytes) : Of s ⟨m, labels s [pair "issue" issue], v⟩ (targetPairs s s.path) [pair "issue" issue] :=
  of_keys ["target", "target_type", "path", "issue"] rfl rfl (by decide) (by decide)

variable (node : NodeObservation)

theorem of_node : Of s ⟨m, nodeLabels s node [], v⟩ (nodePairs s node) [] :=
  of_keys ["target", "target_type", "path", "parent", "node", "depth"] rfl rfl (by decide) (by decide)

theorem of_size (mode backend : Bytes) : Of s ⟨m, nodeLabels s node [pair "size_mode" mode, pair "backend" backend], v⟩
    (nodePairs s node) [pair "size_mode" mode, pair "backend" backend] :=
  of_keys ["target", "target_type", "path", "parent", "node", "depth", "size_mode", "backend"] rfl rfl (by decide) (by decide)

theorem of_entries (kind : Bytes) :
    Of s ⟨m, nodeLabels s node [pair "entry_type" kind], v⟩ (nodePairs s node) [pair "entry_type" kind] :=
  of_keys ["target", "target_type", "path", "parent", "node", "depth", "entry_type"] rfl rfl (by decide) (by decide)

end Samples

theorem of_samples (s : TargetSnapshot) (path : Bytes) (values : List (Metric × Value)) :
    ∀ x ∈ samples (labelsAt s path []) values, Of s x (targetPairs s path) [] := by
  intro x hx
  obtain ⟨v, -, rfl⟩ := List.mem_map.1 hx
  exact of_disk s v.1 v.2 path

/-- A sample of a directory. -/
theorem of_writeNode {s : TargetSnapshot} {backend : Bytes} {sharing : Option SharingReport} {node : NodeObservation} {x : Sample}
    (hx : x ∈ writeNode s backend sharing node) : ∃ after, Of s x (nodePairs s node) after := by
  unfold writeNode at hx
  rcases List.mem_append.1 hx with hx | hx
  · obtain ⟨mode, -, hx⟩ := List.mem_flatMap.1 hx
    obtain ⟨v, -, rfl⟩ := List.mem_map.1 hx
    exact ⟨_, of_size s v.1 v.2 node (ascii (sizeModeName mode)) backend⟩
  rcases List.mem_append.1 hx with hx | hx
  · unfold writeNodeEntries writeEntryCounts at hx
    rcases List.mem_append.1 hx with hx | hx
    · obtain ⟨e, -, rfl⟩ := List.mem_map.1 hx
      exact ⟨_, of_entries s .ownEntries (.count e.2) node (ascii e.1)⟩
    · obtain ⟨e, -, rfl⟩ := List.mem_map.1 hx
      exact ⟨_, of_entries s .childrenEntries (.count e.2) node (ascii e.1)⟩
  · unfold writeExclusive at hx
    split at hx
    · cases hx
    · rw [List.mem_singleton.1 hx]
      exact ⟨_, of_node s .exclusiveSize _ node⟩

theorem named_success {s : TargetSnapshot} {now : Nat} {r : Success} {x : Sample} (hx : x ∈ writeSuccess s now r) : Named s x := by
  unfold writeSuccess at hx
  rcases List.mem_append.1 hx with hx | hx
  · exact (of_samples s s.path _ x hx).named
  rcases List.mem_cons.1 hx with rfl | hx
  · exact (of_scan s _ _ r.backend).named
  rcases List.mem_append.1 hx with hx | hx
  · exact (of_samples s s.path _ x hx).named
  rcases List.mem_append.1 hx with hx | hx
  · simp only [List.mem_cons, List.not_mem_nil, or_false] at hx
    rcases hx with rfl | rfl | rfl | rfl <;> exact (of_issue s _ _ _).named
  · exact (of_samples s s.path _ x hx).named

/-- Every sample of a target begins with its labels. -/
theorem named_snapshot {live : Option LiveStore} {now : Nat} {s : TargetSnapshot} {x : Sample} (hx : x ∈ writeSnapshot live now s) :
    Named s x := by
  unfold writeSnapshot at hx
  rcases List.mem_append.1 hx with hx | hx
  · unfold writeLiveTarget at hx
    split at hx
    · cases hx
    rcases List.mem_append.1 hx with hx | hx
    · split at hx
      · unfold writePool at hx
        split at hx
        · cases hx
        rcases List.mem_append.1 hx with hx | hx
        · exact (of_samples s s.path _ x hx).named
        · obtain ⟨d, -, hx⟩ := List.mem_flatMap.1 hx
          exact (of_samples s d.path _ x hx).named
      · unfold writeUsage at hx
        split at hx
        · cases hx
        · exact (of_samples s s.path _ x hx).named
    · exact (of_samples s s.path _ x hx).named
  rcases List.mem_append.1 hx with hx | hx
  · unfold writeSharing at hx
    split at hx
    · cases hx
    · exact (of_samples s s.path _ x hx).named
  rcases List.mem_append.1 hx with hx | hx
  · exact (of_samples s s.path _ x hx).named
  · unfold writeScan at hx
    split at hx
    · rcases List.mem_append.1 hx with hx | hx
      · obtain ⟨node, -, hx⟩ := List.mem_flatMap.1 hx
        obtain ⟨after, h⟩ := of_writeNode hx
        exact h.named
      · exact named_success hx
    · exact (of_samples s s.path _ x hx).named

/-! ## Series -/

/-- The part of the exposition a metric is written in. -/
def Metric.part : Metric → Nat
  | .buildInfo => 0
  | .filesystemSize | .filesystemUsed | .filesystemAvail | .thinMetadataSize | .thinMetadataUsed | .thinProvisioned => 1
  | .blockRead | .blockWritten => 2
  | .liveRelists | .liveChanges | .liveRescansRequested => 3
  | .targetDisk | .sharingDuration | .sharingTimestamp => 4
  | .targetInfo | .targetInterval | .scanCount | .scanErrors | .scanRunning | .scanRunningSeconds => 5
  | .ownSize | .childrenSize => 6
  | .ownEntries => 7
  | .childrenEntries => 8
  | .exclusiveSize => 9
  | .scanSuccess | .scanDuration | .scanTimestamp | .targetStale => 10
  | .scanIssueCount => 11
  | .reportedNodes | .scannedDirectories | .scannedFiles | .scannedSymlinks | .maxObservedDepth | .depthLimitHits => 12
  | .liveSignals | .liveOverflows => 13

/-- All samples are different series. -/
abbrev Distinct (l : List Sample) : Prop := l.Pairwise fun a b => ¬ a.Same b

/-- The samples are of the parts from `low` to `high`. -/
def Within (low high : Nat) (l : List Sample) : Prop := ∀ x ∈ l, low ≤ x.metric.part ∧ x.metric.part ≤ high

theorem Within.nil (low high : Nat) : Within low high [] := fun _ hx => absurd hx List.not_mem_nil

theorem Within.append {low high : Nat} {l r : List Sample} (hl : Within low high l) (hr : Within low high r) : Within low high (l ++ r) :=
  fun x hx => (List.mem_append.1 hx).elim (hl x) (hr x)

theorem Within.mono {low high low' high' : Nat} {l : List Sample} (h : Within low high l) (hlow : low' ≤ low) (hhigh : high ≤ high') :
    Within low' high' l :=
  fun x hx => ⟨Nat.le_trans hlow (h x hx).1, Nat.le_trans (h x hx).2 hhigh⟩

theorem Within.flatMap {α : Type*} {low high : Nat} {l : List α} {f : α → List Sample} (h : ∀ a ∈ l, Within low high (f a)) :
    Within low high (l.flatMap f) := by
  intro x hx
  obtain ⟨a, ha, hx⟩ := List.mem_flatMap.1 hx
  exact h a ha x hx

theorem within_samples {low high : Nat} (labels : List (Bytes × Bytes)) {values : List (Metric × Value)} (metrics : List Metric)
    (hv : values.map Prod.fst = metrics) (h : ∀ m ∈ metrics, low ≤ m.part ∧ m.part ≤ high) : Within low high (samples labels values) := by
  intro x hx
  obtain ⟨v, hm, rfl⟩ := List.mem_map.1 hx
  exact h v.1 (hv ▸ List.mem_map_of_mem hm)

/-- Samples of one set of labels and of different metrics are different series. -/
theorem distinct_samples (labels : List (Bytes × Bytes)) {values : List (Metric × Value)} (metrics : List Metric)
    (hv : values.map Prod.fst = metrics) (h : metrics.Nodup) : Distinct (samples labels values) := by
  unfold Distinct samples
  rw [List.pairwise_map]
  rw [← hv, List.Nodup, List.pairwise_map] at h
  exact h.imp fun hne hsame => hne (name_injective hsame.1)

/-- Samples of different parts are different series. -/
theorem distinct_append {low mid mid' high : Nat} {l r : List Sample} (hl : Within low mid l) (hr : Within mid' high r) (hmid : mid < mid') :
    Distinct (l ++ r) ↔ Distinct l ∧ Distinct r := by
  unfold Distinct
  rw [List.pairwise_append]
  constructor
  · exact fun h => ⟨h.1, h.2.1⟩
  · rintro ⟨h1, h2⟩
    refine ⟨h1, h2, fun a ha b hb hsame => ?_⟩
    have h3 := (hl a ha).2
    have h4 := (hr b hb).1
    rw [name_injective hsame.1] at h3
    omega

/-! ## Directories -/

/-- What tells a directory's samples from another's. -/
def nodeShown (node : NodeObservation) : Bytes × Bytes × Bytes × Bytes :=
  (node.path, node.parent, node.node, decimal node.depth)

theorem sizeModeName_injective {a b : SizeMode} (h : ascii (sizeModeName a) = ascii (sizeModeName b)) : a = b := by
  revert a b
  intro a b
  cases a <;> cases b <;> decide

section Node

variable {s : TargetSnapshot} (hs : OwnLabels s.labels) {backend : Bytes} {sharing : Option SharingReport}

theorem within_sizes (s : TargetSnapshot) (backend : Bytes) (node : NodeObservation) : Within 6 6 (writeNodeSizes s backend node) :=
  .flatMap fun _ _ => within_samples _ [.ownSize, .childrenSize] rfl (by decide)

include hs in
/-- The sizes of a directory are told apart by their modes. -/
theorem distinct_sizes (node : NodeObservation) : Distinct (writeNodeSizes s backend node) ↔ s.sizeModes.Nodup := by
  unfold Distinct writeNodeSizes
  rw [List.pairwise_flatMap]
  constructor
  · rintro ⟨-, h⟩
    refine h.imp fun {a b} hab he => ?_
    subst he
    exact hab _ List.mem_cons_self _ List.mem_cons_self ⟨rfl, fun _ => Iff.rfl⟩
  · intro h
    refine ⟨fun mode _ => distinct_samples _ [.ownSize, .childrenSize] rfl (by decide), h.imp fun {a b} hne x hx y hy hsame => hne ?_⟩
    obtain ⟨v, -, rfl⟩ := List.mem_map.1 hx
    obtain ⟨w, -, rfl⟩ := List.mem_map.1 hy
    exact sizeModeName_injective ((of_size s v.1 v.2 node _ backend).value_eq (of_size s w.1 w.2 node _ backend) hs hsame
      (k := ascii "size_mode") (by simp [pair]) (by simp [pair]))

theorem within_entries (s : TargetSnapshot) (node : NodeObservation) {m : Metric} (files directories symlinks : Nat) :
    Within m.part m.part (writeEntryCounts s node m files directories symlinks) := by
  intro x hx
  obtain ⟨e, -, rfl⟩ := List.mem_map.1 hx
  exact ⟨Nat.le_refl _, Nat.le_refl _⟩

include hs in
theorem distinct_entries (node : NodeObservation) (m : Metric) (files directories symlinks : Nat) :
    Distinct (writeEntryCounts s node m files directories symlinks) := by
  unfold Distinct writeEntryCounts
  rw [List.pairwise_map]
  have hkinds : [("file", files), ("directory", directories), ("symlink", symlinks)].Pairwise fun a b => ascii a.1 ≠ ascii b.1 := by
    rw [← List.pairwise_map (f := fun e : String × Nat => ascii e.1)]
    exact (by decide : ["file", "directory", "symlink"].map ascii |>.Pairwise (· ≠ ·))
  refine hkinds.imp fun {a b} hne hsame => hne ?_
  exact (of_entries s m (.count a.2) node (ascii a.1)).value_eq (of_entries s m (.count b.2) node (ascii b.1)) hs hsame
    (k := ascii "entry_type") (by simp [pair]) (by simp [pair])

theorem within_exclusive (s : TargetSnapshot) (sharing : Option SharingReport) (node : NodeObservation) :
    Within 9 9 (writeExclusive s sharing node) := by
  unfold writeExclusive
  split
  · exact .nil 9 9
  · intro x hx
    rw [List.mem_singleton.1 hx]
    exact ⟨Nat.le_refl _, Nat.le_refl _⟩

theorem within_node (s : TargetSnapshot) (backend : Bytes) (sharing : Option SharingReport) (node : NodeObservation) :
    Within 6 9 (writeNode s backend sharing node) :=
  ((within_sizes s backend node).mono (by decide) (by decide)).append
    ((((within_entries s node _ _ _).mono (by decide) (by decide)).append
      ((within_entries s node _ _ _).mono (by decide) (by decide))).append
        ((within_exclusive s sharing node).mono (by decide) (by decide)))

include hs in
theorem distinct_node (node : NodeObservation) : Distinct (writeNode s backend sharing node) ↔ s.sizeModes.Nodup := by
  have hentries : Distinct (writeNodeEntries s node) :=
    (distinct_append (within_entries s node _ _ _) (within_entries s node _ _ _) (by decide)).2
      ⟨distinct_entries hs node _ _ _ _, distinct_entries hs node _ _ _ _⟩
  have hexclusive : Distinct (writeExclusive s sharing node) := by
    unfold writeExclusive
    split
    · exact .nil
    · exact List.pairwise_singleton _ _
  have hwithin : Within 7 8 (writeNodeEntries s node) :=
    ((within_entries s node _ _ _).mono (by decide) (by decide)).append ((within_entries s node _ _ _).mono (by decide) (by decide))
  unfold writeNode
  rw [distinct_append (within_sizes s backend node)
      ((hwithin.mono (by decide) (by decide) : Within 7 9 _).append ((within_exclusive s sharing node).mono (by decide) (by decide)))
      (by decide),
    distinct_append hwithin (within_exclusive s sharing node) (by decide), distinct_sizes hs node]
  exact ⟨fun h => h.1, fun h => ⟨h, hentries, hexclusive⟩⟩

include hs in
/-- The samples of two directories are told apart exactly if the directories are shown apart. -/
theorem apart_iff (a b : NodeObservation) :
    (∀ x ∈ writeNode s backend sharing a, ∀ y ∈ writeNode s backend sharing b, ¬ x.Same y) ↔ nodeShown a ≠ nodeShown b := by
  constructor
  · intro h he
    have hmem : ∀ node : NodeObservation, (⟨.ownEntries, nodeLabels s node [pair "entry_type" (ascii "file")], .count node.fileCount⟩ : Sample) ∈
        writeNode s backend sharing node := fun node =>
      List.mem_append_right _ (List.mem_append_left _ (List.mem_append_left _ List.mem_cons_self))
    refine h _ (hmem a) _ (hmem b) ⟨rfl, fun l => ?_⟩
    unfold nodeShown at he
    simp only [Prod.mk.injEq] at he
    unfold nodeLabels
    rw [he.1, he.2.1, he.2.2.1, he.2.2.2]
  · intro hne x hx y hy hsame
    obtain ⟨after, hx⟩ := of_writeNode hx
    obtain ⟨after', hy⟩ := of_writeNode hy
    refine hne ?_
    have hpath := hx.value_eq hy hs hsame (k := ascii "path") (v := a.path) (w := b.path) (by simp [nodePairs, pair]) (by simp [nodePairs, pair])
    have hparent := hx.value_eq hy hs hsame (k := ascii "parent") (v := a.parent) (w := b.parent) (by simp [nodePairs, pair])
      (by simp [nodePairs, pair])
    have hnode := hx.value_eq hy hs hsame (k := ascii "node") (v := a.node) (w := b.node) (by simp [nodePairs, pair]) (by simp [nodePairs, pair])
    have hdepth := hx.value_eq hy hs hsame (k := ascii "depth") (v := decimal a.depth) (w := decimal b.depth) (by simp [nodePairs, pair])
      (by simp [nodePairs, pair])
    unfold nodeShown
    rw [hpath, hparent, hnode, hdepth]

include hs in
theorem distinct_nodes (nodes : List NodeObservation) :
    Distinct (nodes.flatMap (writeNode s backend sharing)) ↔ (nodes ≠ [] → s.sizeModes.Nodup) ∧ (nodes.map nodeShown).Nodup := by
  unfold Distinct
  rw [List.pairwise_flatMap, List.Nodup, List.Nodup, List.pairwise_map]
  refine and_congr ?_ ?_
  · constructor
    · intro h hne
      obtain ⟨node, hnode⟩ := List.exists_mem_of_ne_nil nodes hne
      exact (distinct_node hs node).1 (h node hnode)
    · exact fun h node hnode => (distinct_node hs node).2 (h (List.ne_nil_of_mem hnode))
  · constructor
    · exact fun h => h.imp fun {a b} hab => (apart_iff hs a b).1 hab
    · exact fun h => h.imp fun {a b} hab => (apart_iff hs a b).2 hab

end Node

end StorageHarvester.Exporter
