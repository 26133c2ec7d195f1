/-
Which volumes of a pool's report become disks of the tree `build` makes. Guests' configurations
claim them one by one, whether or not another claimed the same before; the rest go to the group of
the unattached. Each volume is one disk exactly when no two claims name it.
-/
import StorageHarvester.Lvm.Estimate
import StorageHarvester.Lvm.Placed

namespace StorageHarvester.Lvm

open Config (LvmTarget)

/-! ## The volumes named -/

/-- The report has a volume of this name. -/
def reported (inputs : Inputs) (lv : Bytes) : Bool := inputs.volumes.any fun v => v.lv = lv

/-- The volumes of the report that configurations name on `storage`, each as often as it is named. -/
def named (inputs : Inputs) (storage : Option Bytes) : List Bytes :=
  inputs.guests.flatMap fun (_, _, config) =>
    (config.volumes.filter fun v => some v.storage = storage ∧ reported inputs v.volume).map ConfigVolume.volume

/-- How often a name is in a list. -/
def times (lv : Bytes) (names : List Bytes) : Nat := names.countP fun n => n = lv

/-- No volume of the report is named twice, and none that is not named is listed twice. -/
def OnceNamed (inputs : Inputs) (storage : Option Bytes) : Prop :=
  ∀ v ∈ inputs.volumes, times v.lv (named inputs storage) ≤ 1 ∧
    (times v.lv (named inputs storage) = 0 → times v.lv (inputs.volumes.map ThinVolume.lv) = 1)

instance (inputs : Inputs) (storage : Option Bytes) : Decidable (OnceNamed inputs storage) :=
  inferInstanceAs (Decidable (∀ v ∈ inputs.volumes, _ ∧ _))

/-- The known or estimated allocation of a volume in a pool. -/
def Pool.volumeBytes (pool : Pool) (lv : Bytes) : Nat := ((disksOf pool.guests).find? fun d => d.lv = lv).elim 0 Disk.bytes

/-- Every volume of the report is one disk, and the root's total is what they take, each once (as
far as `u64` goes). -/
structure EachOnce (inputs : Inputs) (pool : Pool) (t : DirTree) : Prop where
  once : ∀ v ∈ inputs.volumes, (disksOf pool.guests).countP (fun d => d.lv = v.lv) = 1
  total : (t.node 0).totalBlocks = min ((inputs.volumes.map ThinVolume.lv).dedup.map pool.volumeBytes).sum u64Max

/-! ## The volumes found -/

/-- The volume of each disk. -/
def lvs (guests : List Guest) : List Bytes := (disksOf guests).map Disk.lv

theorem countP_lvs (guests : List Guest) (lv : Bytes) :
    (disksOf guests).countP (fun d => d.lv = lv) = times lv (lvs guests) := by
  unfold times lvs
  rw [List.countP_map]
  rfl

theorem filterMap_guard {α β : Type} (p : α → Prop) [DecidablePred p] (f : α → β) : ∀ l : List α,
    l.filterMap (fun x => if p x then some (f x) else none) = (l.filter fun x => p x).map f
  | [] => rfl
  | x :: l => by
    by_cases hp : p x
    · simp [hp, filterMap_guard p f l]
    · simp [hp, filterMap_guard p f l]

theorem lvs_append (gs hs : List Guest) : lvs (gs ++ hs) = lvs gs ++ lvs hs := by
  simp [lvs, disksOf]

section Found

variable {lvm : LvmTarget} {inputs : Inputs} {storage : Option Bytes}

theorem volumeNamed_lv {lv : Bytes} {volume : ThinVolume} (h : volumeNamed inputs lv = some volume) : volume.lv = lv := by
  simpa using List.find?_some h

theorem volumeNamed_isSome (lv : Bytes) : (volumeNamed inputs lv).isSome = reported inputs lv := by
  unfold volumeNamed reported
  rw [Bool.eq_iff_iff]
  simp

theorem claimedDisk_lv (config : GuestConfig) (v : ConfigVolume) :
    (claimedDisk lvm inputs storage config v).map Disk.lv =
      if some v.storage = storage ∧ reported inputs v.volume then some v.volume else none := by
  unfold claimedDisk
  by_cases hon : some v.storage = storage
  · rw [if_pos hon, ← volumeNamed_isSome]
    cases hnamed : volumeNamed inputs v.volume with
    | none => simp
    | some volume => simp [hon, diskOf, volumeNamed_lv hnamed]
  · simp [hon]

theorem guestDisks_lvs (config : GuestConfig) : (guestDisks lvm inputs storage config).map Disk.lv =
    (config.volumes.filter fun v => some v.storage = storage ∧ reported inputs v.volume).map ConfigVolume.volume := by
  unfold guestDisks
  simp only [List.map_filterMap, claimedDisk_lv]
  exact filterMap_guard _ _ _

theorem claimedGuests_lvs : lvs (claimedGuests lvm inputs storage) = named inputs storage := by
  unfold claimedGuests named
  induction inputs.guests with
  | nil => rfl
  | cons e rest ih =>
    obtain ⟨vmid, kind, config⟩ := e
    have hhead := @guestDisks_lvs lvm inputs storage config
    rw [List.flatMap_cons, ← ih]
    dsimp only
    rw [← hhead, List.filterMap_cons]
    split
    case h_1 hnone =>
      have hempty : guestDisks lvm inputs storage config = [] := by
        by_contra hne
        simp [hne] at hnone
      rw [hempty]
      rfl
    case h_2 guest hsome =>
      have hguest : guest.disks = guestDisks lvm inputs storage config := by
        dsimp only at hsome
        split at hsome
        · cases hsome
        · cases hsome
          rfl
      rw [lvs, disksOf, List.flatMap_cons, List.map_append, hguest]
      rfl

/-- The volumes of the disks found: those named, and those of the report that are not. -/
theorem foundGuests_lvs : lvs (foundGuests lvm inputs storage) =
    named inputs storage ++ (inputs.volumes.map ThinVolume.lv).filter fun lv => times lv (named inputs storage) = 0 := by
  have hclaimed : ∀ lv, (disksOf (claimedGuests lvm inputs storage)).any (fun d => decide (d.lv = lv)) =
      !decide (times lv (named inputs storage) = 0) := by
    intro lv
    have hcount : times lv (named inputs storage) = (disksOf (claimedGuests lvm inputs storage)).countP fun d => d.lv = lv := by
      rw [countP_lvs, claimedGuests_lvs]
    rw [Bool.eq_iff_iff]
    simp [hcount, List.countP_eq_zero]
  have hunattached : lvs (if (unattachedDisks lvm inputs (claimedGuests lvm inputs storage)).isEmpty then []
      else [{ vmid := none, name := ascii "Unattached", kind := .unattached,
              disks := unattachedDisks lvm inputs (claimedGuests lvm inputs storage) }]) =
      (unattachedDisks lvm inputs (claimedGuests lvm inputs storage)).map Disk.lv := by
    split
    case isTrue hempty => rw [List.isEmpty_iff.1 hempty]; rfl
    case isFalse => simp [lvs, disksOf]
  unfold foundGuests
  dsimp only
  rw [lvs_append, claimedGuests_lvs, hunattached, unattachedDisks, List.map_map, List.filter_map]
  congr 2
  exact congrArg (fun p => inputs.volumes.filter p) (funext fun v => by simp [hclaimed])

end Found

/-! ## What estimates and places keep -/

theorem lvs_estimateInactive (guests : List Guest) (used : Nat) (volumes : List ThinVolume) :
    lvs (estimateInactive guests used volumes) = lvs guests := by
  unfold estimateInactive
  split
  · rfl
  · dsimp only
    split
    · rfl
    · rw [lvs, disksOf_mapDisks, List.map_map]
      refine List.map_congr_left fun d _ => ?_
      rw [Function.comp_apply]
      split <;> rfl

theorem lvs_placeDisks : ∀ (next : Nat) (disks : List Disk), (placeDisks next disks).map Disk.lv = disks.map Disk.lv
  | _, [] => rfl
  | next, d :: rest => by rw [placeDisks, List.map_cons, lvs_placeDisks, List.map_cons]

theorem lvs_placeGuests : ∀ (next : Nat) (guests : List Guest), lvs (placeGuests next guests) = lvs guests
  | _, [] => rfl
  | next, g :: rest => by
    have hrest := lvs_placeGuests (next + 1 + g.disks.length) rest
    unfold lvs disksOf at hrest ⊢
    rw [placeGuests, List.flatMap_cons, List.flatMap_cons, List.map_append, List.map_append, lvs_placeDisks, hrest]

/-! ## The root's total -/

theorem min_sum_min (m : Nat) : ∀ l : List Nat, min (l.map fun x => min x m).sum m = min l.sum m
  | [] => rfl
  | x :: l => by
    have := min_sum_min m l
    rw [List.map_cons, List.sum_cons, List.sum_cons]
    omega

section Total

variable {gs : List Guest}

theorem gathered_pool_blocks (gs : List Guest) : gathered (startNodes (placeGuests 1 gs)) .blocks 0 =
    (((disksOf (placeGuests 1 gs)).map Disk.bytes).map fun x => min x u64Max).sum := by
  have hdisk : ∀ g ∈ placeGuests 1 gs, ∀ d ∈ g.disks,
      gathered (startNodes (placeGuests 1 gs)) .blocks d.node = min d.bytes u64Max := by
    intro g hg d hd
    rw [gathered_disk hg hd]
    simp [diskNode, synthetic, Tally.addSize, Tally.get, saturatingAdd]
  have hguest : ∀ g ∈ placeGuests 1 gs, gathered (startNodes (placeGuests 1 gs)) .blocks g.node =
      (g.disks.map fun d => min d.bytes u64Max).sum := by
    intro g hg
    rw [gathered_guest hg, List.map_congr_left (hdisk g hg)]
    simp [guestNode, synthetic, Tally.get]
  rw [gathered_pool, List.map_congr_left hguest, startNodes_eq, List.getD_cons_zero, List.map_map, disksOf, List.map_flatMap,
    List.flatMap_def, List.sum_flatten, List.map_map]
  simp only [Tally.get, Nat.zero_add]
  rfl

/-- The root's total is what the disks take. -/
theorem root_total {t : DirTree} (ht : t.nodes = rollNodes (startNodes (placeGuests 1 gs))) :
    (t.node 0).totalBlocks = min ((disksOf (placeGuests 1 gs)).map Disk.bytes).sum u64Max := by
  have h0 : 0 < (startNodes (placeGuests 1 gs)).length := by
    rw [length_startNodes]
    omega
  have hrolled := rolled_get (down_start gs) h0 .blocks
  rw [gathered_pool_blocks, min_sum_min] at hrolled
  have hown : ((startNodes (placeGuests 1 gs)).getD 0 default).ownBlocks = 0 := by
    rw [startNodes_eq]
    rfl
  rw [DirTree.node, ht, node_rollNodes h0, DirNode.totalBlocks, hown, saturatingAdd, Nat.zero_add]
  exact hrolled

end Total

/-! ## Each volume once -/

theorem times_eq_count (lv : Bytes) (names : List Bytes) : times lv names = names.count lv := by
  unfold times List.count
  refine List.countP_congr fun n _ => ?_
  simp

section Once

variable {lvm : LvmTarget} {inputs : Inputs} {storage : Option Bytes}

/-- A volume is found as often as it is named, or listed if it is not. -/
theorem times_found (lv : Bytes) : times lv (lvs (foundGuests lvm inputs storage)) = times lv (named inputs storage) +
    if times lv (named inputs storage) = 0 then times lv (inputs.volumes.map ThinVolume.lv) else 0 := by
  rw [foundGuests_lvs, times, List.countP_append, List.countP_filter]
  congr 1
  split
  case isTrue hzero =>
    refine List.countP_congr fun n _ => ?_
    by_cases hn : n = lv
    · simp [hn, hzero]
    · simp [hn]
  case isFalse hpos =>
    rw [List.countP_eq_zero]
    rintro n _
    by_cases hn : n = lv
    · simp [hn, hpos]
    · simp [hn]

theorem found_reported {lv : Bytes} (h : lv ∈ lvs (foundGuests lvm inputs storage)) :
    lv ∈ inputs.volumes.map ThinVolume.lv := by
  rw [foundGuests_lvs] at h
  rcases List.mem_append.1 h with hnamed | hrest
  · obtain ⟨e, _, he⟩ := List.mem_flatMap.1 hnamed
    obtain ⟨v, hv, rfl⟩ := List.mem_map.1 he
    have hreported := (List.mem_filter.1 hv).2
    simp only [reported, decide_eq_true_eq, List.any_eq_true] at hreported
    obtain ⟨_, volume, hvolume, heq⟩ := hreported
    exact List.mem_map.2 ⟨volume, hvolume, heq⟩
  · exact (List.mem_filter.1 hrest).1

/-- What a build makes of the disks found. -/
theorem build_lvs {displayPath : Bytes} {pool : Pool} {t : DirTree} (h : build displayPath lvm inputs = .ok (pool, t)) :
    lvs pool.guests = lvs (foundGuests lvm inputs (storageOf lvm inputs.storages)) ∧
      (t.node 0).totalBlocks = min ((disksOf pool.guests).map Disk.bytes).sum u64Max := by
  unfold build at h
  split at h
  · cases h
  · split at h
    · cases h
    · cases h
      exact ⟨by dsimp only; rw [lvs_placeGuests, lvs_estimateInactive], root_total rfl⟩

/-- With each volume on one disk, the volumes take what the disks do. -/
theorem sum_volumeBytes {pool : Pool} (hall : ∀ lv ∈ lvs pool.guests, lv ∈ inputs.volumes.map ThinVolume.lv)
    (honce : ∀ v ∈ inputs.volumes, times v.lv (lvs pool.guests) = 1) :
    ((inputs.volumes.map ThinVolume.lv).dedup.map pool.volumeBytes).sum = ((disksOf pool.guests).map Disk.bytes).sum := by
  have hcount : ∀ lv ∈ inputs.volumes.map ThinVolume.lv, (lvs pool.guests).count lv = 1 := by
    intro lv hlv
    obtain ⟨v, hv, rfl⟩ := List.mem_map.1 hlv
    rw [← times_eq_count]
    exact honce v hv
  have hnodup : (lvs pool.guests).Nodup := by
    rw [List.nodup_iff_count_le_one]
    intro lv
    by_cases hlv : lv ∈ lvs pool.guests
    · exact (hcount lv (hall lv hlv)).le
    · rw [List.count_eq_zero.2 hlv]
      exact Nat.zero_le 1
  have hperm : (inputs.volumes.map ThinVolume.lv).dedup.Perm (lvs pool.guests) := by
    rw [List.perm_ext_iff_of_nodup (List.nodup_dedup _) hnodup]
    intro lv
    rw [List.mem_dedup]
    exact ⟨fun h => List.count_pos_iff.1 (by rw [hcount lv h]; decide), hall lv⟩
  have hbytes : ∀ d ∈ disksOf pool.guests, pool.volumeBytes d.lv = d.bytes := by
    intro d hd
    unfold Pool.volumeBytes
    cases hfind : (disksOf pool.guests).find? (fun e => e.lv = d.lv) with
    | none => simpa using List.find?_eq_none.1 hfind d hd
    | some e =>
      have heq : e.lv = d.lv := by simpa using List.find?_some hfind
      rw [List.inj_on_of_nodup_map hnodup (List.mem_of_find?_eq_some hfind) hd heq]
      rfl
  calc ((inputs.volumes.map ThinVolume.lv).dedup.map pool.volumeBytes).sum
      = ((lvs pool.guests).map pool.volumeBytes).sum := (hperm.map _).sum_nat
    _ = ((disksOf pool.guests).map fun d => pool.volumeBytes d.lv).sum := by rw [lvs, List.map_map]; rfl
    _ = ((disksOf pool.guests).map Disk.bytes).sum := by rw [List.map_congr_left hbytes]

/-- The tree holds every volume once exactly when no two claims name one. -/
theorem volumes_once_iff {displayPath : Bytes} {pool : Pool} {t : DirTree}
    (h : build displayPath lvm inputs = .ok (pool, t)) :
    EachOnce inputs pool t ↔ OnceNamed inputs (storageOf lvm inputs.storages) := by
  obtain ⟨hlvs, htotal⟩ := build_lvs h
  have htimes : ∀ lv, times lv (lvs pool.guests) = times lv (named inputs (storageOf lvm inputs.storages)) +
      if times lv (named inputs (storageOf lvm inputs.storages)) = 0 then times lv (inputs.volumes.map ThinVolume.lv) else 0 := by
    intro lv
    rw [hlvs, times_found]
  constructor
  · rintro heach v hv
    have hone := heach.once v hv
    rw [countP_lvs, htimes] at hone
    split at hone
    · exact ⟨by omega, fun _ => by omega⟩
    · exact ⟨by omega, fun hzero => by omega⟩
  · rintro hnamed
    have honce : ∀ v ∈ inputs.volumes, times v.lv (lvs pool.guests) = 1 := by
      intro v hv
      obtain ⟨hle, hlisted⟩ := hnamed v hv
      rw [htimes]
      split
      case isTrue hzero => rw [hlisted hzero, hzero]
      case isFalse hpos => omega
    refine ⟨fun v hv => by rw [countP_lvs, honce v hv], ?_⟩
    rw [htotal, sum_volumeBytes (fun lv hlv => found_reported (hlvs ▸ hlv)) honce]

end Once

theorem volumes_once_sample : EachOnce (sampleInputs (sampleReading (ascii "100") 5)) sampleBuilt.1 sampleBuilt.2 :=
  (@volumes_once_iff sampleLvm _ [] _ _ rfl).2 (by decide)

/-- Two containers configured with one volume, as after a copied configuration. -/
def copiedInputs : Inputs :=
  let inputs := sampleInputs (sampleReading (ascii "100") 5)
  { inputs with guests := inputs.guests ++ inputs.guests.map fun g => (102, g.2) }

def copiedBuilt : Pool × DirTree := (build [] sampleLvm copiedInputs).toOption.get (by decide)

/-- The volume is a disk of both, and the root's total has it twice. -/
theorem copied_twice : build [] sampleLvm copiedInputs = .ok copiedBuilt ∧
    (disksOf copiedBuilt.1.guests).countP (fun d => d.lv = ascii "a") = 2 ∧
    (copiedBuilt.2.node 0).totalBlocks = 51200 + 51200 + copiedBuilt.1.volumeBytes (ascii "b") ∧
    ¬EachOnce copiedInputs copiedBuilt.1 copiedBuilt.2 :=
  ⟨rfl, by decide, by decide, fun h => absurd (h.once ⟨ascii "a", 1048576, true, none⟩ (by simp [copiedInputs, sampleInputs])) (by decide)⟩

end StorageHarvester.Lvm
