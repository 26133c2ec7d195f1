/-
The one answer of a scan. What there is to be met on a file system that does not change is a set of
entries, told by the file system and the target alone, and whatever the schedule the tree holds it: each
tracked directory's total adds up the entries at and below it, with every multiply linked file at the link
whose path hashes lowest.
-/
import StorageHarvester.Scan.Observed
import StorageHarvester.Scan.Rebased

namespace StorageHarvester

open Forest
open WorkPool (Bag BagReachable)

namespace Walk

/-! ## What there is to count -/

/-- An entry that is one link of several, perhaps. -/
def Met.isShared (m : Met) : Bool := m.stat.kind ≠ .directory && 1 < m.stat.nlink

def Met.inode (m : Met) : Inode := (m.stat.dev, m.stat.ino)

def Met.path (m : Met) : Bytes := m.place.1 ++ [slash] ++ m.name

/-- The link that a multiply linked file is counted at: of all that are met, the one whose path hashes lowest. -/
def Met.IsLowest (hash : Bytes → Nat) (met : Multiset Met) (m : Met) : Prop :=
  m.isShared = true ∧ ∀ m' ∈ met, m'.isShared = true → m'.inode = m.inode → hash m.path ≤ hash m'.path

open Classical in
/-- What is met in some directories adds up to this: every entry, and the sizes of the multiply linked files whose
lowest link is there. -/
noncomputable def countedIn (hash : Bytes → Nat) (met : Multiset Met) (In : Bytes → Prop) (c : Component) : Nat :=
  addedUp met (fun m => In m.place.1) c +
    ((met.filter fun m => m.IsLowest hash met ∧ In m.place.1).map fun m => sizeAt m.stat.blocks m.stat.size c).sum

section Met

variable {fs : Frozen} {target : Target} {hash : Bytes → Nat} {met : Multiset Met}

/-- An entry met is told by its path. -/
theorem MetOn.ext_path (hp : Proper fs) (h : MetOn fs target hash met) {m m' : Met} (hm : m ∈ met) (hm' : m' ∈ met)
    (hpath : m.place.1 = m'.place.1) (hname : m.name = m'.name) : m = m' := by
  obtain ⟨names, hn, hplace⟩ := h.spelled hp hm
  obtain ⟨names', hn', hplace'⟩ := h.spelled hp hm'
  have hnames : names = names' := by
    rw [hplace, hplace'] at hpath
    exact join_injective hn hn' hpath
  apply Met.ext
  · rw [hplace, hplace', hnames]
  · exact hname
  · exact h.same_stat hp hm hm' hpath hname

/-- No entry is met twice. -/
theorem MetOn.nodup (hp : Proper fs) (h : MetOn fs target hash met) : met.Nodup := by
  obtain ⟨root, -, ⟨-, rfl⟩ | ⟨-, begun, hb, rfl⟩⟩ := h
  · exact Multiset.nodup_zero
  show ((begun.bind (found fs)).bind (Event.met (start target root hash))).Nodup
  rw [Multiset.bind_assoc, Multiset.nodup_bind]
  constructor
  · rintro x -
    show (metAt fs (start target root hash) x).Nodup
    cases hl : fs.listing x.1 with
    | error error =>
      rw [metAt_error _ hl]
      exact Multiset.nodup_zero
    | ok reading =>
      have hr := hp _ _ hl
      have hone : ∀ e, ∀ m ∈ (start target root hash).meets x e, m.name = e.name := by
        rintro e m hm
        unfold meets at hm
        split at hm
        · exact absurd hm (Multiset.notMem_zero m)
        · split at hm
          · exact absurd hm (Multiset.notMem_zero m)
          · split at hm
            · exact absurd hm (Multiset.notMem_zero m)
            · rw [Multiset.mem_singleton.1 hm]
      rw [metAt_ok _ hl, Multiset.nodup_bind]
      constructor
      · rintro e -
        unfold meets
        split
        · exact Multiset.nodup_zero
        · split
          · exact Multiset.nodup_zero
          · split
            · exact Multiset.nodup_zero
            · exact Multiset.nodup_singleton _
      · have hentries : (reading.entries : Multiset Entry).Nodup := Multiset.coe_nodup.2 (List.Nodup.of_map _ hr.nodup)
        refine hentries.pairwise fun e he e' he' hne => Multiset.disjoint_left.2 fun {m} hm hm' => hne ?_
        exact List.inj_on_of_nodup_map hr.nodup he he' ((hone e m hm).symm.trans (hone e' m hm'))
  · refine (hb.nodup hp).pairwise fun x _ y _ hne => Multiset.disjoint_left.2 fun {m} hm hm' => hne ?_
    exact (place_metAt hm).symm.trans (place_metAt hm')

/-- Every multiply linked file that is met has one lowest link. -/
theorem MetOn.existsUnique_lowest (hp : Proper fs) (hx : HashesApart fs target hash) (h : MetOn fs target hash met) {m : Met} (hm : m ∈ met)
    (hs : m.isShared = true) : ∃! link, link ∈ met ∧ link.inode = m.inode ∧ link.IsLowest hash met := by
  classical
  have hsome : m ∈ met.filter fun l => l.isShared = true ∧ l.inode = m.inode := Multiset.mem_filter.2 ⟨hm, hs, rfl⟩
  obtain ⟨link, hlink, hmin⟩ := Multiset.exists_min_image (fun l : Met => hash l.path) fun hnone =>
    absurd (hnone ▸ hsome) (Multiset.notMem_zero m)
  obtain ⟨hlink, hshared, hinode⟩ := Multiset.mem_filter.1 hlink
  refine ⟨link, ⟨hlink, hinode, hshared, fun m' hm' hs' hi' => ?_⟩, fun other ⟨hother, hi', hs', hlow⟩ => ?_⟩
  · exact hmin m' (Multiset.mem_filter.2 ⟨hm', hs', hi'.trans hinode⟩)
  · have hkeys : hash other.path = hash link.path := by
      apply le_antisymm
      · exact hlow link hlink hshared (hinode.trans hi'.symm)
      · exact hmin other (Multiset.mem_filter.2 ⟨hother, hs', hi'⟩)
    obtain ⟨hpath, hname⟩ := hx met h other hother link hlink (hi'.trans hinode.symm) hkeys
    exact h.ext_path hp hother hlink hpath hname

/-- Where something is met is the root or a directory that is met itself. -/
theorem MetOn.place_cases (h : MetOn fs target hash met) {m : Met} (hm : m ∈ met) : m.place = placeOf target [] ∨
    ∃ dir ∈ met, dir.stat.kind = .directory ∧ m.place = (childPath dir.place.1 dir.name, dir.place.2 + 1) := by
  obtain ⟨root, -, ⟨-, rfl⟩ | ⟨-, begun, hb, rfl⟩⟩ := h
  · exact absurd hm (Multiset.notMem_zero m)
  rw [Multiset.bind_assoc] at hm ⊢
  obtain ⟨x, hx, hm⟩ := Multiset.mem_bind.1 hm
  rw [place_metAt hm]
  rcases hb.mem.1 hx with rfl | ⟨y, hy, hxy⟩
  · exact .inl rfl
  obtain ⟨reading, hl, e, he, ⟨hdot, hshown, stat, hstat, hdev, hdir, -⟩, rfl⟩ := mem_kids hxy
  refine .inr ⟨⟨y, e.name, stat⟩, Multiset.mem_bind.2 ⟨y, hy, ?_⟩, hdir, rfl⟩
  show _ ∈ metAt fs _ y
  rw [metAt_ok _ hl]
  refine Multiset.mem_bind.2 ⟨e, Multiset.mem_coe.2 he, ?_⟩
  unfold meets
  rw [if_neg (by simp [hdot, hshown]), hstat]
  dsimp only
  rw [if_neg (by rw [hdev]; exact Bool.false_ne_true)]
  exact Multiset.mem_singleton_self _

/-- Fewer entries counted than a counter can hold. -/
theorem addedUp_le_card (met : Multiset Met) (P : Met → Prop) [DecidablePred P] {c : Component} (hc : CountsEntries c) :
    addedUp met P c ≤ met.card := by
  have hone : ∀ m : Met, m.amount c ≤ 1 := by
    rintro m
    cases c with
    | files | dirs | symlinks =>
      unfold Met.amount Tallied.amount
      dsimp only
      split <;> omega
    | blocks => exact absurd (hc 1 0) (by decide)
    | apparent => exact absurd (hc 0 1) (by decide)
  unfold addedUp
  calc ((met.filter P).map fun m => m.amount c).sum ≤ ((met.filter P).map fun m => m.amount c).card • 1 :=
        Multiset.sum_le_card_nsmul _ _ fun x hx => by
          obtain ⟨m, -, rfl⟩ := Multiset.mem_map.1 hx
          exact hone m
    _ = (met.filter P).card := by rw [Multiset.card_map, smul_eq_mul, Nat.mul_one]
    _ ≤ met.card := Multiset.card_le_card (Multiset.filter_le P met)

/-- The entries of one kind are no more than all. -/
theorem countedIn_le_card (hash : Bytes → Nat) (met : Multiset Met) (In : Bytes → Prop) {c : Component} (hc : CountsEntries c) :
    countedIn hash met In c ≤ met.card := by
  classical
  have hzero : ∀ m : Met, sizeAt m.stat.blocks m.stat.size c = 0 := fun m => hc _ _
  unfold countedIn
  simp only [hzero, Multiset.map_const', Multiset.sum_replicate, smul_eq_mul, Nat.mul_zero, Nat.add_zero]
  exact addedUp_le_card met _ hc

end Met

section Scans

variable {host : Host} {fs : Frozen} {target : Target} {hash : Bytes → Nat} {t : DirTree} {log : List Tallied} {won : Table Inode (Nat × Link)}

open Classical in
/-- The sizes won at and below a directory are those of the lowest links in it. -/
theorem LogScan.won_lowest (hs : LogScan host target hash t log won) (hf : host.Frozen fs) (hk : host.listing.Proper)
    (hx : HashesApart fs target hash) {i : Nat} (hi : i < t.nodes.length) (c : Component) :
    wonBelow t won i c = (((((log.map Tallied.met : List Met) : Multiset Met).filter fun m =>
      m.IsLowest hash ((log.map Tallied.met : List Met) : Multiset Met) ∧ Inside t i m.place.1).map fun m =>
        sizeAt m.stat.blocks m.stat.size c)).sum := by
  obtain ⟨root, handle, n, b, data, -, hb, -⟩ := hs.started
  have hmet := hs.metOn hf
  have hp := proper_of_host hf hk
  have hnodup := hmet.nodup hp
  have hlowest := hb.lowest
  have habove : ∀ r ∈ log, Above t.parentOf i r.job.node ↔ Inside t i r.met.place.1 := fun r hr =>
    hb.above_iff hk hr ((hb.fresh hk).alive i hi)
  generalize hall : ((log.map Tallied.met : List Met) : Multiset Met) = met at *
  have hlog : ∀ {r}, r ∈ log → r.met ∈ met := fun hr => hall ▸ Multiset.mem_coe.2 (List.mem_map_of_mem hr)
  have hfrom : ∀ {m}, m ∈ met → ∃ r ∈ log, r.met = m := fun hm => List.mem_map.1 (Multiset.mem_coe.1 (hall ▸ hm))
  -- what is won of a file is its lowest link
  have hwinner : ∀ {m}, m ∈ met → m.IsLowest hash met → ∃ r ∈ log, ∃ winner, won.get m.inode = some winner ∧ r.met = m ∧
      r.Carries (start target root hash) winner.2 := by
    rintro m hm ⟨hshared, hlow⟩
    obtain ⟨q, hq, rfl⟩ := hfrom hm
    obtain ⟨winner, hg, hle⟩ := hlowest.lowest q hq hshared
    obtain ⟨r, hr, hs', hi', hc⟩ := hlowest.met _ winner hg
    have hkeys : hash r.met.path = hash q.met.path := by
      apply le_antisymm
      · rw [hc.key] at hle
        exact hle
      · exact hlow r.met (hlog hr) hs' hi'
    obtain ⟨hpath, hname⟩ := hx met hmet r.met (hlog hr) q.met (hlog hq) hi' hkeys
    exact ⟨r, hr, winner, hg, hmet.ext_path hp (hlog hr) (hlog hq) hpath hname, hc⟩
  have hwon : ∀ {inode winner}, won.get inode = some winner → ∃ r ∈ log, r.met.inode = inode ∧ r.met.IsLowest hash met ∧
      r.Carries (start target root hash) winner.2 := by
    rintro inode winner hg
    obtain ⟨r, hr, hshared, rfl, hc⟩ := hlowest.met inode winner hg
    refine ⟨r, hr, rfl, ⟨hshared, fun m' hm' hs' hi' => ?_⟩, hc⟩
    obtain ⟨r', hr', rfl⟩ := hfrom hm'
    obtain ⟨winner', hg', hle⟩ := hlowest.lowest r' hr' hs'
    rw [show r'.inode = r.inode from hi', hg] at hg'
    cases hg'
    rw [hc.key] at hle
    exact hle
  have hsame : ((met.filter fun m => m.IsLowest hash met ∧ Inside t i m.place.1).map Met.inode) =
      (((won.entries.filter fun e => Above t.parentOf i e.2.2.node).map Prod.fst : List Inode) : Multiset Inode) := by
    apply (Multiset.Nodup.ext ?_ (Multiset.coe_nodup.2 (won.nodup.sublist (List.filter_sublist.map _)))).2
    · rintro inode
      rw [Multiset.mem_map, Multiset.mem_coe, List.mem_map]
      constructor
      · rintro ⟨m, hm, rfl⟩
        obtain ⟨hm, hlow, hin⟩ := Multiset.mem_filter.1 hm
        obtain ⟨r, hr, winner, hg, rfl, hc⟩ := hwinner hm hlow
        refine ⟨(r.met.inode, winner), List.mem_filter.2 ⟨Table.get_eq_some.1 hg, ?_⟩, rfl⟩
        rw [decide_eq_true_eq, hc.node]
        exact (habove r hr).2 hin
      · rintro ⟨e, he, rfl⟩
        obtain ⟨he, ha⟩ := List.mem_filter.1 he
        obtain ⟨r, hr, hi', hlow, hc⟩ := hwon (Table.get_eq_some.2 (show (e.1, e.2) ∈ won.entries from he))
        refine ⟨r.met, Multiset.mem_filter.2 ⟨hlog hr, hlow, (habove r hr).1 ?_⟩, hi'⟩
        rw [← hc.node]
        exact of_decide_eq_true ha
    · refine (hnodup.filter _).map_on fun m hm m' hm' he => ?_
      obtain ⟨hm, hlow, -⟩ := Multiset.mem_filter.1 hm
      obtain ⟨hm', hlow', -⟩ := Multiset.mem_filter.1 hm'
      exact (hmet.existsUnique_lowest hp hx hm hlow.1).unique ⟨hm, rfl, hlow⟩ ⟨hm', he.symm, hlow'⟩
  -- both sides read the size off the table by the inode
  let size (inode : Inode) : Nat := (won.get inode).elim 0 fun winner => sizeAt winner.2.blocks winner.2.apparent c
  have hleft : ((met.filter fun m => m.IsLowest hash met ∧ Inside t i m.place.1).map fun m => sizeAt m.stat.blocks m.stat.size c) =
      ((met.filter fun m => m.IsLowest hash met ∧ Inside t i m.place.1).map Met.inode).map size := by
    rw [Multiset.map_map]
    refine Multiset.map_congr rfl fun m hm => ?_
    obtain ⟨hm, hlow, -⟩ := Multiset.mem_filter.1 hm
    obtain ⟨r, hr, winner, hg, rfl, hc⟩ := hwinner hm hlow
    show _ = (won.get r.met.inode).elim 0 _
    rw [hg, Option.elim_some, hc.blocks, hc.apparent]
    rfl
  rw [hleft, hsame, Multiset.map_coe, Multiset.sum_coe, List.map_map]
  unfold wonBelow
  congr 1
  refine List.map_congr_left fun e he => ?_
  show _ = (won.get e.1).elim 0 _
  rw [Table.get_eq_some.2 (show (e.1, e.2) ∈ won.entries from (List.mem_filter.1 he).1), Option.elim_some]

/-- A tracked directory's total is what is counted in it, up to the limit of a `u64`. -/
theorem LogScan.counted (hs : LogScan host target hash t log won) (hf : host.Frozen fs) (hk : host.listing.Proper)
    (hx : HashesApart fs target hash) {i : Nat} (hi : i < t.nodes.length) (c : Component) :
    min ((t.node i).sub.get c) u64Max = min (countedIn hash ((log.map Tallied.met : List Met) : Multiset Met) (Inside t i) c) u64Max := by
  classical
  obtain ⟨root, handle, n, b, data, -, hb, -⟩ := hs.started
  have habove : ∀ r ∈ log, Above t.parentOf i r.job.node ↔ Inside t i r.met.place.1 := fun r hr =>
    hb.above_iff hk hr ((hb.fresh hk).alive i hi)
  rw [hs.total hk hi c, hs.won_lowest hf hk hx hi c, amounts_filter log (Q := fun m => Inside t i m.place.1) habove]
  unfold countedIn
  congr!

/-- Down to the report depth every directory that is met has a node. -/
theorem LogScan.tracked_down (hs : LogScan host target hash t log won) (hf : host.Frozen fs) (hk : host.listing.Proper) {m : Met}
    (hm : m ∈ ((log.map Tallied.met : List Met) : Multiset Met)) (hdir : m.stat.kind = .directory)
    (hdepth : m.place.2 < target.reportDepth) :
    ∃ i < t.nodes.length, t.scanPath i = childPath m.place.1 m.name ∧ (t.node i).depth = m.place.2 + 1 := by
  obtain ⟨root, handle, n, b, data, -, hb, -⟩ := hs.started
  have hfresh := hb.fresh hk
  have hmet := hs.metOn hf
  -- by its depth: the directory it is in is tracked too
  induction hd : m.place.2 using Nat.strong_induction_on generalizing m with
  | _ depth ih =>
    have hin : ∃ p < t.nodes.length, t.scanPath p = m.place.1 := by
      rcases hmet.place_cases hm with hroot | ⟨dir, hdm, hdk, hplace⟩
      · refine ⟨0, hfresh.shape.pos, ?_⟩
        unfold DirTree.scanPath
        rw [hroot, Shape.components_zero, scanRoot_of_logScan hs]
        rfl
      · have hone : m.place.2 = dir.place.2 + 1 := congrArg Prod.snd hplace
        obtain ⟨p, hp, hpath, -⟩ := ih dir.place.2 (by omega) hdm hdk (by omega) rfl
        exact ⟨p, hp, by rw [hpath, hplace]⟩
    obtain ⟨p, hp, hpath⟩ := hin
    obtain ⟨r, hr, rfl⟩ := List.mem_map.1 (Multiset.mem_coe.1 hm)
    obtain ⟨hat, htracked⟩ := (hb.at_iff hk hr (hfresh.alive p hp)).2 hpath.symm
    have hkept : r.kept = true := by
      have hdeep : r.refused = false := by
        rw [Bool.eq_false_iff]
        rintro href
        have hlt := hb.logging.refused_deep r hr href
        rw [hb.target_eq] at hlt
        have hshallow : r.job.depth < target.reportDepth := hdepth
        omega
      have hkind : r.stat.kind = .directory := hdir
      unfold Tallied.kept
      rw [htracked, hdeep, hkind]
      rfl
    obtain ⟨i, hi, hparent, hname⟩ := hb.child hk hr hkept
    refine ⟨i, hi, ?_, ?_⟩
    · unfold DirTree.scanPath at hpath ⊢
      rw [hfresh.shape.components_of_parent hparent, join_snoc, hat, hpath, hname]
      rfl
    · rw [depth_eq_length hfresh.shape (hfresh.alive i hi), hfresh.shape.components_of_parent hparent, List.length_append,
        ← hs.depth_tracked hf hk hr htracked, ← hd]
      rfl

/-- What a scan of a file system that does not change comes back with: of everything that is met, once each, a
tracked directory's total adds up what is in it, up to the limit of a `u64`, and down to the report depth every
directory is tracked. -/
structure Accounted (fs : Frozen) (target : Target) (hash : Bytes → Nat) (met : Multiset Met) (t : DirTree) : Prop where
  metOn : MetOn fs target hash met
  once : met.Nodup
  lowest : ∀ m ∈ met, m.isShared = true → ∃! link, link ∈ met ∧ link.inode = m.inode ∧ link.IsLowest hash met
  totals : ∀ i < t.nodes.length, ∀ c, (t.node i).sub.get c = min (countedIn hash met (Inside t i) c) u64Max
  tracked : ∀ m ∈ met, m.stat.kind = .directory → m.place.2 < target.reportDepth →
    ∃ i < t.nodes.length, t.scanPath i = childPath m.place.1 m.name ∧ (t.node i).depth = m.place.2 + 1

theorem LogScan.accounted (hs : LogScan host target hash t log won) (hf : host.Frozen fs) (hk : host.listing.Proper)
    (hx : HashesApart fs target hash) (hfew : ∀ met, MetOn fs target hash met → met.card < u64Max) :
    Accounted fs target hash ((log.map Tallied.met : List Met) : Multiset Met) t := by
  have hmet := hs.metOn hf
  have hp := proper_of_host hf hk
  refine ⟨hmet, hmet.nodup hp, fun m hm hshared => hmet.existsUnique_lowest hp hx hm hshared, fun i hi c => ?_, fun m hm hdir hdepth => ?_⟩
  · have hcapped := hs.counted hf hk hx hi c
    by_cases hcount : CountsEntries c
    · have hle := countedIn_le_card hash ((log.map Tallied.met : List Met) : Multiset Met) (Inside t i) hcount
      have hlt := hfew _ hmet
      omega
    · have hle := hs.sizes_le hcount hi
      omega
  · exact hs.tracked_down hf hk hm hdir hdepth

end Scans

section Schedules

variable {host host' : Host} {fs : Frozen} {target target' : Target} {hash : Bytes → Nat} {result result' : ScanResult}

/-- A directory that both scans track has one total, as long as the entries can be counted. -/
theorem Accounted.same {met : Multiset Met} {t t' : DirTree} (h : Accounted fs target hash met t) (h' : Accounted fs target' hash met t')
    (hr : t'.scanRoot = t.scanRoot) {i i' : Nat} (hi : i < t.nodes.length) (hi' : i' < t'.nodes.length)
    (hc : t'.components i' = t.components i) : (t'.node i').sub = (t.node i).sub := by
  have hinside : Inside t' i' = Inside t i := by
    unfold Inside
    rw [hc, hr]
  apply Tally.ext_get
  rintro c
  rw [h.totals i hi c, h'.totals i' hi' c, hinside]

/-- A scan of a file system that does not change has one answer: the totals are what there is to count, and another
scan, whatever its schedule, the number of its workers and its cap, has the same totals, observations and counts. -/
theorem one_answer (hf : host.Frozen fs) (hk : host.listing.Proper) (hx : HashesApart fs target hash)
    (hfew : ∀ met, MetOn fs target hash met → met.card < u64Max) (h : Scans host target hash (.ok result)) :
    (∀ t, result.tree = some t → ∃ met, Accounted fs target hash met t) ∧
      ∀ host' target' result', host'.Frozen fs → host'.listing.Proper → Alike target target' →
        target'.reportMode = target.reportMode → target'.reportDepth = target.reportDepth → Scans host' target' hash (.ok result') →
        (∀ t t', result.tree = some t → result'.tree = some t' → ∀ i < t.nodes.length, ∀ i' < t'.nodes.length,
          t'.components i' = t.components i → (t'.node i').sub = (t.node i).sub) ∧
        result'.observations = result.observations ∧ result'.counts = result.counts := by
  have hanswers : ∀ t, result.tree = some t → ∃ log won, LogScan host target hash t log won ∧
      Accounted fs target hash ((log.map Tallied.met : List Met) : Multiset Met) t := by
    rintro t ht
    obtain ⟨log, won, hlog⟩ := logScan_of_scan h ht
    exact ⟨log, won, hlog, hlog.accounted hf hk hx hfew⟩
  refine ⟨fun t ht => ?_, fun host' target' result' hf' hk' ha hmode hdepth h' => ?_⟩
  · obtain ⟨log, won, -, hanswer⟩ := hanswers t ht
    exact ⟨_, hanswer⟩
  have htwins : Twins fs host host' target target' hash := ⟨hf, hf', hk, hk', ha, hx⟩
  refine ⟨fun t t' ht ht' i hi i' hi' hc => ?_, ?_, (counts_agree hf hf' ha h h').symm⟩
  · obtain ⟨log, won, hlog, hanswer⟩ := hanswers t ht
    obtain ⟨log', won', hlog'⟩ := logScan_of_scan h' ht'
    have hanswer' := hlog'.accounted hf' hk' htwins.symm.apart fun met hm => hfew met (ha.metOn hm)
    rw [htwins.same_met hlog hlog'] at hanswer'
    exact hanswer.same hanswer' (by rw [scanRoot_of_logScan hlog, scanRoot_of_logScan hlog', ha.scanPath]) hi hi' hc
  · refine (htwins.observations hmode hdepth h h' fun t ht c hcount => ?_).symm
    obtain ⟨log, won, hlog, hanswer⟩ := hanswers t ht
    have hpos : 0 < t.nodes.length := by
      obtain ⟨root, handle, n, b, data, -, hb, -⟩ := hlog.started
      exact (hb.fresh hk).shape.pos
    have hle := countedIn_le_card hash ((log.map Tallied.met : List Met) : Multiset Met) (Inside t 0) hcount
    have hlt := hfew _ hanswer.metOn
    rw [hanswer.totals 0 hpos c]
    omega

/-! ## A file linked twice, and three vast ones -/

/-- What there is to be met of the file and the directory that holds it too. -/
def twiceMet : Multiset Met :=
  {⟨([slash, 100], 0), [102], twiceStat .file 7 512 10⟩, ⟨([slash, 100], 0), [115], twiceStat .directory 3 0 2⟩,
    ⟨([slash, 100, slash, 115], 1), [102], twiceStat .file 7 512 10⟩}

theorem metOn_twice : MetOn twiceFs roomyTarget List.length twiceMet :=
  ⟨twiceStat .directory 2 0 2, rfl, .inr ⟨by decide, {([slash, 100], 0), ([slash, 100, slash, 115], 1)}, rfl, rfl⟩⟩

/-- One worker with room for both directories, and two with room for the root alone. -/
theorem one_answer_twice : ∃ result result', Scans twiceHost roomyTarget List.length (.ok result) ∧
    Scans twiceHost crowdedTarget List.length (.ok result') ∧
    (∀ t, result.tree = some t → ∃ met, Accounted twiceFs roomyTarget List.length met t) ∧
    result'.observations = result.observations ∧ result'.counts = result.counts := by
  obtain ⟨result, hs, -⟩ := scan_roomy
  obtain ⟨result', hs', -⟩ := scan_crowded
  have hfew : ∀ met, MetOn twiceFs roomyTarget List.length met → met.card < u64Max := by
    rintro met hm
    rw [MetOn.unique ⟨rfl, rfl, rfl, rfl, rfl, rfl⟩ metOn_twice hm]
    decide
  obtain ⟨htree, hsame⟩ := one_answer frozen_twice proper_twice twins_twice.apart hfew hs
  obtain ⟨-, hobservations, hcounts⟩ := hsame twiceHost crowdedTarget result' frozen_twice proper_twice alike_twice rfl rfl hs'
  exact ⟨result, result', hs, hs', htree, hobservations, hcounts⟩

def vastStat (ino : Nat) : Stat := { kind := .file, dev := 1, ino := ino, nlink := 1, blocks := 0, size := 2 ^ 63 - 1, mtime := 0 }

/-- A sparse file of the largest size there is. -/
def vastFile (name : Bytes) (ino : Nat) : Entry := { name := name, stat := .ok (vastStat ino), handle := none }

/-- `/d` holds three of them. -/
def vastFs : Frozen where
  stat _ _ := .ok (twiceStat .directory 2 0 2)
  listing path :=
    if path = [slash, 100] then .ok { entries := [vastFile [97] 5, vastFile [98] 6, vastFile [99] 7], fail := none } else .error .enoent

def vastHost : Host where
  stat path follow answer := answer = vastFs.stat path follow
  handle _ handle := handle = none
  listing path answer := answer = vastFs.listing path
  answers _ := ⟨_, rfl⟩

def vastMet : Multiset Met :=
  {⟨([slash, 100], 0), [97], vastStat 5⟩, ⟨([slash, 100], 0), [98], vastStat 6⟩, ⟨([slash, 100], 0), [99], vastStat 7⟩}

theorem metOn_vast : MetOn vastFs roomyTarget List.length vastMet :=
  ⟨twiceStat .directory 2 0 2, rfl, .inr ⟨by decide, {([slash, 100], 0)}, rfl, rfl⟩⟩

theorem frozen_vast : vastHost.Frozen vastFs := by
  refine ⟨fun _ _ _ h => h, fun path answer h => ?_⟩
  rw [show answer = vastFs.listing path from h]
  cases vastFs.listing path with
  | error => rfl
  | ok reading => exact ⟨.refl _, rfl⟩

theorem proper_vast : vastHost.listing.Proper := by
  rintro path reading hr
  have hr : vastFs.listing path = .ok reading := hr.symm
  unfold vastFs at hr
  dsimp only at hr
  split at hr
  · cases hr
    exact ⟨by decide, by decide⟩
  · cases hr

theorem apart_vast : HashesApart vastFs roomyTarget List.length := by
  rintro met hm m hmem m' hmem' hi -
  rw [MetOn.unique ⟨rfl, rfl, rfl, rfl, rfl, rfl⟩ metOn_vast hm] at hmem hmem'
  have hino : m.stat.ino = m'.stat.ino := congrArg Prod.snd hi
  have hthree : ∀ m ∈ vastMet, m.place.1 = [slash, 100] ∧ (m.name = [97] ∧ m.stat.ino = 5 ∨ m.name = [98] ∧ m.stat.ino = 6 ∨
      m.name = [99] ∧ m.stat.ino = 7) := by
    rintro m hm
    simp only [vastMet, Multiset.insert_eq_cons, Multiset.mem_cons, Multiset.mem_singleton] at hm
    rcases hm with rfl | rfl | rfl <;> simp [vastStat]
  obtain ⟨hp, hn⟩ := hthree m hmem
  obtain ⟨hp', hn'⟩ := hthree m' hmem'
  refine ⟨hp.trans hp'.symm, ?_⟩
  rcases hn with ⟨hn, h5⟩ | ⟨hn, h6⟩ | ⟨hn, h7⟩ <;> rcases hn' with ⟨hn', h5'⟩ | ⟨hn', h6'⟩ | ⟨hn', h7'⟩ <;> simp_all

theorem scan_vast : ∃ result, Scans vastHost roomyTarget List.length (.ok result) ∧
    result.tree.map (fun t => ((t.node 0).sub, t.nodes.length)) =
      some ({ files := 3, dirs := 0, symlinks := 0, blocks := 0, apparent := u64Max }, 1) := by
  have h0 : Walking vastHost (start roomyTarget (twiceStat .directory 2 0 2) List.length) (twiceStat .directory 2 0 2) none (n := 0) _ :=
    .initial false
  have h1 := WorkPool.Reachable.step h0 (.worker (.spawnDone (i := 0) rfl (by decide)))
  have h2 := WorkPool.Reachable.step h1 (.worker (.retire (i := 0) rfl))
  have h3 := WorkPool.Reachable.step h2 (.worker (.more (i := 0) rfl (.opened rfl)))
  have h4 := WorkPool.Reachable.step h3 (.worker (.more (i := 0) rfl (.entry rfl rfl)))
  have h5 := WorkPool.Reachable.step h4 (.worker (.more (i := 0) rfl (.entry rfl rfl)))
  have h6 := WorkPool.Reachable.step h5 (.worker (.more (i := 0) rfl (.entry rfl rfl)))
  have h7 := WorkPool.Reachable.step h6 (.worker (.done (i := 0) rfl (.closed rfl rfl)))
  have h8 := WorkPool.Reachable.step h7 (.worker (.retire (i := 0) rfl))
  exact ⟨_, .walked rfl rfl rfl (by simp [RootHandle, roomyTarget, emptyWalk]) (by decide) (by decide) rfl h8 (by decide), rfl⟩

/-- Three files of the largest size add up to more than a `u64` holds, and the total stays at its limit. -/
theorem total_saturated : ∃ result t, Scans vastHost roomyTarget List.length (.ok result) ∧ result.tree = some t ∧
    MetOn vastFs roomyTarget List.length vastMet ∧ HashesApart vastFs roomyTarget List.length ∧
    (t.node 0).sub.get .apparent = u64Max ∧ u64Max < countedIn List.length vastMet (Inside t 0) .apparent := by
  obtain ⟨result, hs, hr⟩ := scan_vast
  obtain ⟨t, ht, hsub⟩ := Option.map_eq_some_iff.1 hr
  refine ⟨result, t, hs, ht, metOn_vast, apart_vast, ?_, ?_⟩
  · have hroot : (t.node 0).sub = { files := 3, dirs := 0, symlinks := 0, blocks := 0, apparent := u64Max } := congrArg Prod.fst hsub
    rw [hroot]
    rfl
  obtain ⟨log, won, hlog⟩ := logScan_of_scan hs ht
  -- the root holds all that is met
  have hin : ∀ m ∈ vastMet, Inside t 0 m.place.1 := by
    rintro m hm
    refine ⟨[], fun _ hn => absurd hn List.not_mem_nil, ?_⟩
    rw [scanRoot_of_logScan hlog, Shape.components_zero]
    simp only [vastMet, Multiset.insert_eq_cons, Multiset.mem_cons, Multiset.mem_singleton] at hm
    rcases hm with rfl | rfl | rfl <;> rfl
  classical
  unfold countedIn addedUp
  rw [Multiset.filter_eq_self.2 hin]
  exact Nat.lt_of_lt_of_le (by decide) (Nat.le_add_right _ _)

end Schedules

end Walk

end StorageHarvester
