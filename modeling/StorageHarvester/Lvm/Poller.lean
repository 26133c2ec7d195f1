/-
One poller and any number of scans on a pool's installed tree, in any interleaving. Each holds a
sample across a long gap before it applies or installs it; no reading that is installed is ever
replaced by one of an older sample.

What counts of a disk is its reading by device name: `apply` and `keepNewerReadings` map each reading
to the next (`takes`, `keeps`), whatever they do to the tree.
-/
import StorageHarvester.Lvm.Readings

namespace StorageHarvester.Lvm

open Config (LvmTarget)

/-! ## Readings -/

/-- What is read of a disk, and in which sample. -/
structure Reading where
  allocated : Option Nat
  allocatedAt : Nat
  read : Nat
  written : Nat
  countersAt : Nat

def Disk.reading (d : Disk) : Reading := ⟨d.allocated, d.allocatedAt, d.read, d.written, d.countersAt⟩

/-- The readings of all disks, by device name. -/
def readings (guests : List Guest) : List (Bytes × Reading) := (disksOf guests).map fun d => (d.dm, d.reading)

/-- The bytes a sample shows mapped. -/
def mappedIn (sample : Sample) (dm : Bytes) : Option Nat :=
  (sample.status dm >>= thinMapped).map fun sectors => mul64 sectors sector

/-- The counters a sample shows. -/
def countersIn (sample : Sample) (dm : Bytes) : Nat × Nat :=
  let device := (sample.devices dm).getD {}
  (mul64 device.read sector, mul64 device.written sector)

/-- A reading once a sample is applied. -/
def takes (sample : Sample) (dm : Bytes) (r : Reading) : Reading :=
  match mappedIn sample dm with
  | none => r
  | some a =>
    let r := { r with allocated := some a, allocatedAt := sample.at_ }
    if (sample.devices dm).isSome then
      { r with
        read := (countersIn sample dm).1
        written := (countersIn sample dm).2
        countersAt := sample.at_ }
    else r

/-- A scan's reading once it takes what was seen. -/
def keeps (older : List Guest) (dm : Bytes) (r : Reading) : Reading :=
  match seenDisk older dm with
  | none => r
  | some seen =>
    let r := { r with read := seen.read, written := seen.written, countersAt := seen.countersAt }
    match seen.allocated with
    | none => r
    | some a =>
      { r with
        allocated := some a
        allocatedAt := if r.allocated ≠ some a then seen.allocatedAt else max r.allocatedAt seen.allocatedAt }

/-- The same reading of the same device. -/
def SameReading (d d' : Disk) : Prop := d'.dm = d.dm ∧ d'.reading = d.reading

theorem setAllocated_disk (t : DirTree) (d : Disk) (a : Nat) : (setAllocated t d a).disk.dm = d.dm ∧
    (setAllocated t d a).disk.active = d.active ∧
    (setAllocated t d a).disk.reading = { d.reading with allocated := some a } := by
  unfold setAllocated
  dsimp only
  split <;> exact ⟨rfl, rfl, rfl⟩

theorem graftWalk_disk (t : DirTree) (d : Disk) (walked : DirTree) : SameReading d (graftWalk t d walked).2.1 := by
  unfold graftWalk
  dsimp only
  split
  · exact ⟨rfl, rfl⟩
  · split <;> exact ⟨rfl, rfl⟩

theorem keepSeen_disk (older : List Guest) (s : DirTree × Bool) (d : Disk) :
    (keepSeen older s d).2.dm = d.dm ∧ (keepSeen older s d).2.reading = keeps older d.dm d.reading := by
  unfold keepSeen keeps
  cases seenDisk older d.dm with
  | none => exact ⟨rfl, rfl⟩
  | some seen =>
    dsimp only
    cases seen.allocated with
    | none => exact ⟨rfl, rfl⟩
    | some a =>
      dsimp only
      by_cases hne : d.allocated = some a
      · rw [if_neg (not_not.2 hne), if_neg (show ¬d.reading.allocated ≠ some a from not_not.2 hne)]
        exact ⟨rfl, by simp [Disk.reading, hne]⟩
      · rw [if_pos hne, if_pos (show d.reading.allocated ≠ some a from hne)]
        obtain ⟨hdm, -, hr⟩ := setAllocated_disk s.1 { d with
          active := seen.active, read := seen.read, written := seen.written, countersAt := seen.countersAt } a
        refine ⟨hdm, ?_⟩
        simp only [Disk.reading, Reading.mk.injEq] at hr ⊢
        exact ⟨hr.1, trivial, hr.2.2.1, hr.2.2.2.1, hr.2.2.2.2⟩

theorem readMapped_disk (at_ a : Nat) (s : DirTree × List Change × Bool) (d : Disk) :
    (readMapped at_ a s d).2.dm = d.dm ∧ (readMapped at_ a s d).2.active = d.active ∧
      (readMapped at_ a s d).2.reading = { d.reading with allocated := some a, allocatedAt := at_ } := by
  unfold readMapped
  split
  · obtain ⟨hdm, hact, hr⟩ := setAllocated_disk s.1 d a
    refine ⟨hdm, hact, ?_⟩
    simp only [Disk.reading, Reading.mk.injEq] at hr ⊢
    exact ⟨hr.1, trivial, hr.2.2.1, hr.2.2.2.1, hr.2.2.2.2⟩
  · rename_i h
    push Not at h
    exact ⟨rfl, rfl, by simp [Disk.reading, h.1]⟩

theorem applyDisk_disk (sample : Sample) (s : DirTree × List Change × Bool) (d : Disk) :
    (applyDisk sample s d).2.dm = d.dm ∧ (applyDisk sample s d).2.reading = takes sample d.dm d.reading := by
  unfold applyDisk takes mappedIn
  cases sample.status d.dm >>= thinMapped with
  | none => exact ⟨rfl, rfl⟩
  | some sectors =>
    obtain ⟨hdm, hact, hr⟩ := readMapped_disk sample.at_ (mul64 sectors sector) s { d with active := true }
    dsimp only [Option.map_some] at hdm hact ⊢
    unfold readCounters
    rw [hdm, hact, if_pos rfl]
    unfold countersIn
    cases sample.devices d.dm with
    | none => exact ⟨hdm, hr⟩
    | some device =>
      simp only [Disk.reading, Reading.mk.injEq] at hr
      dsimp only
      refine ⟨rfl, ?_⟩
      simp [Disk.reading, hr.1, hr.2.1]

section Over

variable {σ : Type} {f : σ → Disk → σ × Disk} {F : Bytes → Reading → Reading}

theorem overDisks_readings (hf : ∀ s d, (f s d).2.dm = d.dm ∧ (f s d).2.reading = F d.dm d.reading) :
    ∀ (s : σ) (disks : List Disk), (overDisks f s disks).2.map (fun d => (d.dm, d.reading)) =
      disks.map fun d => (d.dm, F d.dm d.reading)
  | _, [] => rfl
  | s, d :: rest => by
    obtain ⟨hdm, hr⟩ := hf s d
    rw [List.map_cons, ← overDisks_readings hf (f s d).1 rest, ← hr, ← hdm]
    rfl

/-- Going over all disks maps the readings. -/
theorem overGuests_readings (hf : ∀ s d, (f s d).2.dm = d.dm ∧ (f s d).2.reading = F d.dm d.reading) :
    ∀ (s : σ) (guests : List Guest), readings (overGuests f s guests).2 = (readings guests).map fun e => (e.1, F e.1 e.2)
  | _, [] => rfl
  | s, g :: rest => by
    have h1 := overDisks_readings hf s g.disks
    have h2 := overGuests_readings hf (overDisks f s g.disks).1 rest
    unfold readings disksOf at h2 ⊢
    rw [List.flatMap_cons, List.map_append, List.map_append, List.map_map (l := g.disks)]
    rw [overGuests, List.flatMap_cons, List.map_append]
    exact congrArg₂ _ h1 h2

end Over

/-! ## What vouches for a reading -/

/-- A reading is what samples taken at its times show of the device. -/
structure Vouched (samples : List Sample) (dm : Bytes) (r : Reading) : Prop where
  allocated : ∀ a, r.allocated = some a → ∃ sample ∈ samples, sample.at_ = r.allocatedAt ∧ mappedIn sample dm = some a
  counters : ∃ sample ∈ samples, sample.at_ = r.countersAt ∧ countersIn sample dm = (r.read, r.written)

/-- The readings of a pool sampled at `sampled`: none is newer, all are vouched for, and a device has
one. -/
structure Current (samples : List Sample) (sampled : Nat) (guests : List Guest) : Prop where
  time : ∀ e ∈ readings guests, e.2.allocatedAt ≤ sampled ∧ e.2.countersAt ≤ sampled
  agree : ∀ e ∈ readings guests, ∀ e' ∈ readings guests, e.1 = e'.1 → e.2 = e'.2
  vouched : ∀ e ∈ readings guests, Vouched samples e.1 e.2

/-- What a scan reads of a device. -/
def shown (sample : Sample) (dm : Bytes) : Reading :=
  ⟨mappedIn sample dm, sample.at_, (countersIn sample dm).1, (countersIn sample dm).2, sample.at_⟩

def Shown (sample : Sample) (guests : List Guest) : Prop := ∀ d ∈ disksOf guests, d.reading = shown sample d.dm

theorem Vouched.mono {samples : List Sample} {dm : Bytes} {r : Reading} (h : Vouched samples dm r) (sample : Sample) :
    Vouched (sample :: samples) dm r := by
  constructor
  · intro a ha
    obtain ⟨x, hx, h1⟩ := h.allocated a ha
    exact ⟨x, List.mem_cons_of_mem _ hx, h1⟩
  · obtain ⟨x, hx, h1⟩ := h.counters
    exact ⟨x, List.mem_cons_of_mem _ hx, h1⟩

theorem Current.mono {samples : List Sample} {sampled : Nat} {guests : List Guest} (h : Current samples sampled guests)
    (sample : Sample) : Current (sample :: samples) sampled guests :=
  ⟨h.time, h.agree, fun e he => (h.vouched e he).mono sample⟩

theorem mem_readings {guests : List Guest} {d : Disk} (hd : d ∈ disksOf guests) : (d.dm, d.reading) ∈ readings guests :=
  List.mem_map_of_mem hd

theorem Shown.current {samples : List Sample} {sample : Sample} {guests : List Guest} (h : Shown sample guests)
    (hm : sample ∈ samples) : Current samples sample.at_ guests := by
  have hr : ∀ e ∈ readings guests, e.2 = shown sample e.1 := by
    intro e he
    obtain ⟨d, hd, rfl⟩ := List.mem_map.1 he
    exact h d hd
  constructor
  · intro e he
    rw [hr e he]
    exact ⟨Nat.le_refl _, Nat.le_refl _⟩
  · intro e he e' he' heq
    rw [hr e he, hr e' he', heq]
  · intro e he
    rw [hr e he]
    exact ⟨fun a ha => ⟨sample, hm, rfl, ha⟩, ⟨sample, hm, rfl, rfl⟩⟩

/-! ## What a build reads -/

section Build

variable {displayPath : Bytes} {lvm : LvmTarget} {inputs : Inputs}

/-- A build reads all of a disk in its sample. -/
theorem build_shown {pool : Pool} {t : DirTree} (h : build displayPath lvm inputs = .ok (pool, t)) :
    pool.sampled = inputs.sample.at_ ∧ Shown inputs.sample pool.guests := by
  unfold build at h
  split at h
  · cases h
  · split at h
    · cases h
    · cases h
      exact ⟨rfl, placeGuests_disks (P := fun d => d.reading = shown inputs.sample d.dm) (fun _ _ h => h) 1
        (estimateInactive_disks (foundGuests_disks (fun _ _ _ _ => rfl) _) (fun _ _ h => h) _ _)⟩

end Build

/-- A walk changes no reading. -/
theorem Shown.graftWalk {sample : Sample} {guests pre post : List Guest} {g : Guest} {dpre dpost : List Disk} {d : Disk}
    (h : Shown sample guests) (hg : guests = pre ++ g :: post) (hd : g.disks = dpre ++ d :: dpost) (t walked : DirTree) :
    Shown sample (pre ++ { g with disks := dpre ++ (graftWalk t d walked).2.1 :: dpost } :: post) := by
  obtain ⟨hdm, hr⟩ := graftWalk_disk t d walked
  intro x hx
  simp only [disksOf, List.flatMap_append, List.flatMap_cons, List.mem_append, List.mem_cons] at hx
  have hold : ∀ y, y ∈ pre.flatMap Guest.disks ∨ (y ∈ dpre ∨ y = d ∨ y ∈ dpost) ∨ y ∈ post.flatMap Guest.disks →
      y.reading = shown sample y.dm := fun y hy => h y (by
    rw [hg]
    simp only [disksOf, List.flatMap_append, List.flatMap_cons, hd, List.mem_append, List.mem_cons]
    exact hy)
  rcases hx with hx | (hx | rfl | hx) | hx
  · exact hold x (.inl hx)
  · exact hold x (.inr (.inl (.inl hx)))
  · rw [hdm, hr]
    exact hold d (.inr (.inl (.inr (.inl rfl))))
  · exact hold x (.inr (.inl (.inr (.inr hx))))
  · exact hold x (.inr (.inr hx))

/-! ## Applying and keeping -/

section Change

variable {samples : List Sample} {sampled : Nat} {guests : List Guest}

/-- A sample no older than what is installed moves every reading forward. -/
theorem takes_forward {sample : Sample} (dm : Bytes) {r : Reading}
    (h : r.allocatedAt ≤ sample.at_ ∧ r.countersAt ≤ sample.at_) :
    r.allocatedAt ≤ (takes sample dm r).allocatedAt ∧ (takes sample dm r).allocatedAt ≤ sample.at_ ∧
      r.countersAt ≤ (takes sample dm r).countersAt ∧ (takes sample dm r).countersAt ≤ sample.at_ := by
  unfold takes
  cases mappedIn sample dm with
  | none => exact ⟨Nat.le_refl _, h.1, Nat.le_refl _, h.2⟩
  | some a =>
    dsimp only
    split
    · exact ⟨h.1, Nat.le_refl _, h.2, Nat.le_refl _⟩
    · exact ⟨h.1, Nat.le_refl _, Nat.le_refl _, h.2⟩

theorem takes_vouched {sample : Sample} (hm : sample ∈ samples) {dm : Bytes} {r : Reading} (h : Vouched samples dm r) :
    Vouched samples dm (takes sample dm r) := by
  unfold takes
  cases hmap : mappedIn sample dm with
  | none => exact h
  | some a =>
    have halloc : ∀ b, some a = some b → ∃ x ∈ samples, x.at_ = sample.at_ ∧ mappedIn x dm = some b := by
      rintro b ⟨⟩
      exact ⟨sample, hm, rfl, hmap⟩
    dsimp only
    split
    · exact ⟨halloc, ⟨sample, hm, rfl, rfl⟩⟩
    · exact ⟨halloc, h.counters⟩

/-- Mapping the readings leaves one a device. -/
theorem agree_map {F : Bytes → Reading → Reading} {guests' : List Guest}
    (hr : readings guests' = (readings guests).map fun e => (e.1, F e.1 e.2))
    (h : ∀ e ∈ readings guests, ∀ e' ∈ readings guests, e.1 = e'.1 → e.2 = e'.2) :
    ∀ e ∈ readings guests', ∀ e' ∈ readings guests', e.1 = e'.1 → e.2 = e'.2 := by
  intro e he e' he' heq
  rw [hr] at he he'
  obtain ⟨x, hx, rfl⟩ := List.mem_map.1 he
  obtain ⟨x', hx', rfl⟩ := List.mem_map.1 he'
  dsimp only at heq ⊢
  rw [heq, h x hx x' hx' heq]

theorem seenDisk_some {older : List Guest} {dm : Bytes} {seen : Disk} (h : seenDisk older dm = some seen) :
    seen ∈ disksOf older ∧ seen.dm = dm := by
  unfold seenDisk at h
  exact ⟨List.mem_reverse.1 (List.mem_of_find?_eq_some h), by simpa using List.find?_some h⟩

theorem seenDisk_isSome {older : List Guest} {d : Disk} (h : d ∈ disksOf older) : ∃ seen, seenDisk older d.dm = some seen := by
  cases hs : seenDisk older d.dm with
  | some seen => exact ⟨seen, rfl⟩
  | none =>
    unfold seenDisk at hs
    have := List.find?_eq_none.1 hs d (List.mem_reverse.2 h)
    simp at this

/-- What is seen in a newer pool: its counters, and its allocation if it has one. -/
theorem keeps_seen {older : List Guest} {dm : Bytes} {seen : Disk} (h : seenDisk older dm = some seen) (r : Reading) :
    (keeps older dm r).countersAt = seen.countersAt ∧
      (seen.allocated ≠ none → seen.allocatedAt ≤ (keeps older dm r).allocatedAt) := by
  unfold keeps
  rw [h]
  dsimp only
  cases seen.allocated with
  | none => exact ⟨rfl, fun hn => absurd rfl hn⟩
  | some a =>
    refine ⟨rfl, fun _ => ?_⟩
    dsimp only
    split
    · exact Nat.le_refl _
    · exact Nat.le_max_right _ _

theorem keeps_time {older : List Guest} {dm : Bytes} {r : Reading} {limit : Nat}
    (ho : ∀ e ∈ readings older, e.2.allocatedAt ≤ limit ∧ e.2.countersAt ≤ limit)
    (h : r.allocatedAt ≤ limit ∧ r.countersAt ≤ limit) :
    (keeps older dm r).allocatedAt ≤ limit ∧ (keeps older dm r).countersAt ≤ limit := by
  unfold keeps
  cases hs : seenDisk older dm with
  | none => exact h
  | some seen =>
    obtain ⟨h1, h2⟩ := ho _ (mem_readings (seenDisk_some hs).1)
    dsimp only [Disk.reading] at h1 h2 ⊢
    cases seen.allocated with
    | none => exact ⟨h.1, h2⟩
    | some a =>
      refine ⟨?_, h2⟩
      dsimp only
      split
      · exact h1
      · exact Nat.max_le.2 ⟨h.1, h1⟩

theorem keeps_vouched {older : List Guest} {dm : Bytes} {r : Reading}
    (ho : ∀ e ∈ readings older, Vouched samples e.1 e.2) (h : Vouched samples dm r) :
    Vouched samples dm (keeps older dm r) := by
  unfold keeps
  cases hs : seenDisk older dm with
  | none => exact h
  | some seen =>
    obtain ⟨hm, hdm⟩ := seenDisk_some hs
    have hv := ho _ (mem_readings hm)
    rw [hdm] at hv
    dsimp only
    cases ha : seen.allocated with
    | none => exact ⟨h.allocated, hv.counters⟩
    | some a =>
      refine ⟨?_, hv.counters⟩
      rintro b ⟨⟩
      dsimp only
      split
      · exact hv.allocated a ha
      · rename_i hne
        -- both samples show the allocation
        rcases Nat.le_total r.allocatedAt seen.allocatedAt with hle | hle
        · rw [Nat.max_eq_right hle]
          exact hv.allocated a ha
        · rw [Nat.max_eq_left hle]
          exact h.allocated a (not_not.1 hne)

end Change

/-! ## Parties and steps -/

/-- Where the poller is. -/
inductive Polling where
  | idle
  | noted (generation : Nat)
  | sampled (generation : Nat) (sample : Sample)

/-- Where a scan is. -/
inductive Scanning where
  | idle
  | sampled (sample : Sample)
  | built (tree : DirTree) (pool : Pool)

/-- The poller, the scans, the tree that is installed, and the samples taken so far up to `now`. -/
structure World where
  now : Nat
  samples : List Sample
  installed : Option Installed
  poller : Polling
  scans : Nat → Scanning

def World.start : World := ⟨0, [], none, .idle, fun _ => .idle⟩

/-- One step of one party. Samples are taken in order. -/
inductive World.Step (displayPath : Bytes) (lvm : LvmTarget) (w : World) : World → Prop
  | note {state : Installed} (hp : w.poller = .idle) (hi : w.installed = some state) :
      Step displayPath lvm w { w with poller := .noted state.generation }
  | sample {generation : Nat} (sample : Sample) (hp : w.poller = .noted generation) (ht : w.now ≤ sample.at_) :
      Step displayPath lvm w
        { w with poller := .sampled generation sample, now := sample.at_, samples := sample :: w.samples }
  /-- Reading device-mapper fails. -/
  | fail {generation : Nat} (hp : w.poller = .noted generation) : Step displayPath lvm w { w with poller := .idle }
  | apply {generation : Nat} {sample : Sample} (hp : w.poller = .sampled generation sample) :
      Step displayPath lvm w { w with installed := (apply w.installed generation sample).installed, poller := .idle }
  | scanSample (i : Nat) (sample : Sample) (hs : w.scans i = .idle) (ht : w.now ≤ sample.at_) :
      Step displayPath lvm w { w with
        scans := Function.update w.scans i (.sampled sample), now := sample.at_, samples := sample :: w.samples }
  | scanBuild {i : Nat} {inputs : Inputs} {pool : Pool} {tree : DirTree} (hs : w.scans i = .sampled inputs.sample)
      (hb : build displayPath lvm inputs = .ok (pool, tree)) :
      Step displayPath lvm w { w with scans := Function.update w.scans i (.built tree pool) }
  | scanWalk {i : Nat} {tree : DirTree} {pool : Pool} {pre post : List Guest} {g : Guest} {dpre dpost : List Disk} {d : Disk}
      (walked : DirTree) (hs : w.scans i = .built tree pool) (hg : pool.guests = pre ++ g :: post)
      (hd : g.disks = dpre ++ d :: dpost) :
      Step displayPath lvm w { w with
        scans := Function.update w.scans i (.built (graftWalk tree d walked).1
          { pool with guests := pre ++ { g with disks := dpre ++ (graftWalk tree d walked).2.1 :: dpost } :: post }) }
  /-- A scan fails, or is cancelled. -/
  | scanFail (i : Nat) : Step displayPath lvm w { w with scans := Function.update w.scans i .idle }
  | replace {i : Nat} {tree : DirTree} {pool : Pool} (hs : w.scans i = .built tree pool) :
      Step displayPath lvm w { w with
        installed := some (replace w.installed tree (some pool)).1
        scans := Function.update w.scans i .idle }

/-- A state met in some interleaving. -/
inductive World.Reachable (displayPath : Bytes) (lvm : LvmTarget) : World → Prop
  | start : Reachable displayPath lvm .start
  | step {w w' : World} (h : Reachable displayPath lvm w) (hs : World.Step displayPath lvm w w') : Reachable displayPath lvm w'

/-! ## The invariant -/

/-- What holds of a scan under way. -/
def Scanning.Ok (samples : List Sample) (now : Nat) : Scanning → Prop
  | .idle => True
  | .sampled sample => sample ∈ samples ∧ sample.at_ ≤ now
  | .built _ pool => ∃ sample ∈ samples, sample.at_ = pool.sampled ∧ sample.at_ ≤ now ∧ Shown sample pool.guests

/-- What holds of the installed tree. -/
def InstalledOk (samples : List Sample) (now : Nat) (state : Installed) : Prop :=
  ∀ pool, state.pool = some pool → pool.sampled ≤ now ∧ Current samples pool.sampled pool.guests

/-- A sample held by the poller is newer than what is installed, while that is what it was noted
against. -/
def Polling.Ok (samples : List Sample) (now : Nat) (installed : Option Installed) : Polling → Prop
  | .idle => True
  | .noted generation => ∃ state, installed = some state ∧ generation ≤ state.generation
  | .sampled generation sample => sample ∈ samples ∧ sample.at_ ≤ now ∧
      ∃ state, installed = some state ∧ generation ≤ state.generation ∧
        (state.generation = generation → ∀ pool, state.pool = some pool → pool.sampled ≤ sample.at_)

structure World.Ok (w : World) : Prop where
  installed : ∀ state, w.installed = some state → InstalledOk w.samples w.now state
  poller : w.poller.Ok w.samples w.now w.installed
  scans : ∀ i, (w.scans i).Ok w.samples w.now

/-! ## Moving forward -/

/-- From one installed pool to the next no reading moves back in time. -/
structure Forward (p p' : Pool) : Prop where
  sampled : p.sampled ≤ p'.sampled
  counters : ∀ d ∈ disksOf p.guests, ∀ d' ∈ disksOf p'.guests, d'.dm = d.dm → d.countersAt ≤ d'.countersAt
  allocated : ∀ d ∈ disksOf p.guests, ∀ d' ∈ disksOf p'.guests, d'.dm = d.dm → d.allocated ≠ none →
    d.allocatedAt ≤ d'.allocatedAt

section Forward

variable {samples : List Sample} {now : Nat} {p p' : Pool}

theorem Forward.refl (h : Current samples p.sampled p.guests) : Forward p p := by
  have hr : ∀ d ∈ disksOf p.guests, ∀ d' ∈ disksOf p.guests, d'.dm = d.dm → d'.reading = d.reading := fun d hd d' hd' he =>
    h.agree _ (mem_readings hd') _ (mem_readings hd) he
  refine ⟨Nat.le_refl _, fun d hd d' hd' he => ?_, fun d hd d' hd' he _ => ?_⟩
  · exact Nat.le_of_eq (congrArg Reading.countersAt (hr d hd d' hd' he)).symm
  · exact Nat.le_of_eq (congrArg Reading.allocatedAt (hr d hd d' hd' he)).symm

/-- A pool whose readings are the old ones mapped forward. -/
theorem forward_of_map {F : Bytes → Reading → Reading} (h : Current samples p.sampled p.guests)
    (hs : p.sampled ≤ p'.sampled) (hr : readings p'.guests = (readings p.guests).map fun e => (e.1, F e.1 e.2))
    (hF : ∀ e ∈ readings p.guests, e.2.allocatedAt ≤ (F e.1 e.2).allocatedAt ∧ e.2.countersAt ≤ (F e.1 e.2).countersAt) :
    Forward p p' := by
  have hd : ∀ d ∈ disksOf p.guests, ∀ d' ∈ disksOf p'.guests, d'.dm = d.dm →
      d.reading.allocatedAt ≤ d'.reading.allocatedAt ∧ d.reading.countersAt ≤ d'.reading.countersAt := by
    intro d hd d' hd' he
    have hm := mem_readings hd'
    rw [hr] at hm
    obtain ⟨e, hem, heq⟩ := List.mem_map.1 hm
    have hdm : e.1 = d.dm := (congrArg Prod.fst heq).trans he
    rw [show d.reading = e.2 from h.agree _ (mem_readings hd) e hem hdm.symm, ← show F e.1 e.2 = d'.reading from congrArg Prod.snd heq]
    exact hF e hem
  exact ⟨hs, fun d hdm d' hdm' he => (hd d hdm d' hdm' he).2, fun d hdm d' hdm' he _ => (hd d hdm d' hdm' he).1⟩

/-- Applying a sample that is no older. -/
theorem applied {state : Installed} {sample : Sample} {pool : Pool} (hp : state.pool = some pool)
    (hm : sample ∈ samples) (hle : pool.sampled ≤ sample.at_) (h : Current samples pool.sampled pool.guests) :
    ∃ tree pool', (apply (some state) state.generation sample).installed = some ⟨state.generation, tree, some pool'⟩ ∧
      pool'.sampled = sample.at_ ∧ Current samples sample.at_ pool'.guests ∧ Forward pool pool' := by
  unfold apply
  dsimp only
  rw [if_neg (not_not.2 rfl), hp]
  refine ⟨_, _, rfl, rfl, ?_⟩
  have hr := overGuests_readings (F := takes sample) (fun s d => applyDisk_disk sample s d) (state.tree, [], false) pool.guests
  have htime : ∀ e ∈ readings pool.guests, e.2.allocatedAt ≤ sample.at_ ∧ e.2.countersAt ≤ sample.at_ := fun e he =>
    ⟨Nat.le_trans (h.time e he).1 hle, Nat.le_trans (h.time e he).2 hle⟩
  constructor
  · refine ⟨fun e he => ?_, agree_map hr h.agree, fun e he => ?_⟩
    · rw [hr] at he
      obtain ⟨x, hx, rfl⟩ := List.mem_map.1 he
      have := takes_forward x.1 (htime x hx)
      exact ⟨this.2.1, this.2.2.2⟩
    · rw [hr] at he
      obtain ⟨x, hx, rfl⟩ := List.mem_map.1 he
      exact takes_vouched hm (h.vouched x hx)
  · refine forward_of_map (F := takes sample) h hle hr fun e he => ?_
    have := takes_forward e.1 (htime e he)
    exact ⟨this.1, this.2.2.1⟩

/-- Installing a scan's pool over an older or a newer one. -/
theorem kept {tree : DirTree} {pool older : Pool} {sample : Sample} (hm : sample ∈ samples) (hs : sample.at_ = pool.sampled)
    (hn : sample.at_ ≤ now) (h : Shown sample pool.guests) (hon : older.sampled ≤ now)
    (ho : Current samples older.sampled older.guests) :
    ∃ tree' pool' flat, keepNewerReadings tree (some pool) older = (tree', some pool', flat) ∧ pool'.sampled ≤ now ∧
      Current samples pool'.sampled pool'.guests ∧ Forward older pool' := by
  have hcur := h.current hm
  rw [hs] at hcur
  unfold keepNewerReadings
  dsimp only
  by_cases hlt : pool.sampled < older.sampled
  · rw [if_pos hlt]
    refine ⟨_, _, _, rfl, hon, ?_⟩
    -- every disk the older pool knows keeps that pool's reading, as its sample is the later one
    have hr := overGuests_readings (F := keeps older.guests) (fun s d => keepSeen_disk older.guests s d) (tree, false) pool.guests
    have htime : ∀ e ∈ readings pool.guests, e.2.allocatedAt ≤ older.sampled ∧ e.2.countersAt ≤ older.sampled := fun e he =>
      ⟨Nat.le_trans (hcur.time e he).1 (Nat.le_of_lt hlt), Nat.le_trans (hcur.time e he).2 (Nat.le_of_lt hlt)⟩
    have hseen : ∀ d ∈ disksOf older.guests, ∀ d' ∈ disksOf (overGuests (keepSeen older.guests) (tree, false) pool.guests).2,
        d'.dm = d.dm → ∃ r, d'.reading = keeps older.guests d.dm r ∧ ∃ seen, seenDisk older.guests d.dm = some seen ∧
          seen.reading = d.reading := by
      intro d hd d' hd' he
      have hmem := mem_readings hd'
      rw [hr] at hmem
      obtain ⟨e, -, heq⟩ := List.mem_map.1 hmem
      obtain ⟨seen, hseen⟩ := seenDisk_isSome hd
      obtain ⟨hsm, hsd⟩ := seenDisk_some hseen
      have hdm : e.1 = d.dm := (congrArg Prod.fst heq).trans he
      refine ⟨e.2, ?_, seen, hseen, ho.agree _ (mem_readings hsm) _ (mem_readings hd) hsd⟩
      rw [← hdm]
      exact (congrArg Prod.snd heq).symm
    refine ⟨⟨fun e he => ?_, agree_map hr hcur.agree, fun e he => ?_⟩, ⟨Nat.le_refl _, fun d hd d' hd' he => ?_, fun d hd d' hd' he ha => ?_⟩⟩
    · rw [hr] at he
      obtain ⟨x, hx, rfl⟩ := List.mem_map.1 he
      exact keeps_time ho.time (htime x hx)
    · rw [hr] at he
      obtain ⟨x, hx, rfl⟩ := List.mem_map.1 he
      exact keeps_vouched ho.vouched (hcur.vouched x hx)
    · obtain ⟨r, hr', seen, hsome, hsame⟩ := hseen d hd d' hd' he
      have h1 := (keeps_seen hsome r).1
      rw [← hr'] at h1
      exact Nat.le_of_eq ((congrArg Reading.countersAt hsame).symm.trans h1.symm)
    · obtain ⟨r, hr', seen, hsome, hsame⟩ := hseen d hd d' hd' he
      have h1 := (keeps_seen hsome r).2 (by rw [show seen.allocated = d.allocated from congrArg Reading.allocated hsame]; exact ha)
      rw [← hr', show seen.allocatedAt = d.allocatedAt from congrArg Reading.allocatedAt hsame] at h1
      exact h1
  · rw [if_neg hlt]
    have hle : older.sampled ≤ pool.sampled := Nat.le_of_not_lt hlt
    refine ⟨_, _, _, rfl, hs ▸ hn, hcur, ⟨hle, fun d hd d' hd' _ => ?_, fun d hd d' hd' _ _ => ?_⟩⟩
    · have h1 := (ho.time _ (mem_readings hd)).2
      have h2 : d'.countersAt = sample.at_ := congrArg Reading.countersAt (h d' hd')
      rw [h2, hs]
      exact Nat.le_trans h1 hle
    · have h1 := (ho.time _ (mem_readings hd)).1
      have h2 : d'.allocatedAt = sample.at_ := congrArg Reading.allocatedAt (h d' hd')
      rw [h2, hs]
      exact Nat.le_trans h1 hle

end Forward

/-! ## Any interleaving -/

theorem Scanning.Ok.mono {samples : List Sample} {now : Nat} {s : Scanning} (h : s.Ok samples now) (sample : Sample)
    (ht : now ≤ sample.at_) : s.Ok (sample :: samples) sample.at_ := by
  cases s with
  | idle => trivial
  | sampled x => exact ⟨List.mem_cons_of_mem _ h.1, Nat.le_trans h.2 ht⟩
  | built tree pool =>
    obtain ⟨x, hx, h1, h2, h3⟩ := h
    exact ⟨x, List.mem_cons_of_mem _ hx, h1, Nat.le_trans h2 ht, h3⟩

theorem InstalledOk.mono {samples : List Sample} {now : Nat} {state : Installed} (h : InstalledOk samples now state)
    (sample : Sample) (ht : now ≤ sample.at_) : InstalledOk (sample :: samples) sample.at_ state := by
  intro pool hp
  exact ⟨Nat.le_trans (h pool hp).1 ht, (h pool hp).2.mono sample⟩

namespace World

variable {displayPath : Bytes} {lvm : LvmTarget} {w w' : World}

/-- From one state to the next. -/
structure Onward (w w' : World) : Prop where
  ok : w'.Ok
  forward : ∀ state p state' p', w.installed = some state → state.pool = some p → w'.installed = some state' →
    state'.pool = some p' → Forward p p'

theorem Ok.unmoved (h : w.Ok) (hi : w'.installed = w.installed) (ok : w'.Ok) : Onward w w' := by
  refine ⟨ok, fun state p state' p' hs hp hs' hp' => ?_⟩
  rw [hi, hs] at hs'
  cases hs'
  rw [hp] at hp'
  cases hp'
  exact Forward.refl (h.installed state hs p hp).2

theorem Ok.update (h : w.Ok) (i : Nat) {s : Scanning} (hs : s.Ok w.samples w.now) :
    ∀ j, (Function.update w.scans i s j).Ok w.samples w.now := by
  intro j
  by_cases hj : j = i
  · subst hj
    rw [Function.update_self]
    exact hs
  · rw [Function.update_of_ne hj]
    exact h.scans j

theorem Ok.applied (h : w.Ok) {generation : Nat} {sample : Sample} (hp : w.poller = .sampled generation sample) :
    Onward w { w with installed := (apply w.installed generation sample).installed, poller := .idle } := by
  have hpoll := h.poller
  rw [hp] at hpoll
  obtain ⟨hm, -, state, hi, hle, hnewer⟩ := hpoll
  by_cases hg : state.generation = generation
  · subst hg
    cases hpool : state.pool with
    | none =>
      have hsame : (apply w.installed state.generation sample).installed = w.installed := by
        rw [hi, apply]
        dsimp only
        rw [if_neg (not_not.2 rfl), hpool]
      exact h.unmoved hsame ⟨by rw [hsame]; exact h.installed, trivial, h.scans⟩
    | some pool =>
      obtain ⟨tree, pool', hset, hsampled, hcur, hfor⟩ := Lvm.applied hpool hm (hnewer rfl pool hpool)
        (h.installed state hi pool hpool).2
      rw [hi, hset]
      have hpoll := h.poller
      rw [hp] at hpoll
      refine ⟨⟨?_, trivial, h.scans⟩, ?_⟩
      · rintro _ ⟨⟩ _ ⟨⟩
        rw [hsampled]
        exact ⟨hpoll.2.1, hcur⟩
      · rintro s p _ _ hs hsp ⟨⟩ ⟨⟩
        rw [hi] at hs
        cases hs
        rw [hpool] at hsp
        cases hsp
        exact hfor
  · have hsame : (apply w.installed generation sample).installed = w.installed := by
      rw [hi, apply]
      dsimp only
      rw [if_pos hg]
    exact h.unmoved hsame ⟨by rw [hsame]; exact h.installed, trivial, h.scans⟩

theorem Ok.replaced (h : w.Ok) {i : Nat} {tree : DirTree} {pool : Pool} (hs : w.scans i = .built tree pool) :
    Onward w { w with
      installed := some (replace w.installed tree (some pool)).1
      scans := Function.update w.scans i .idle } := by
  have hscan := h.scans i
  rw [hs] at hscan
  obtain ⟨sample, hm, hat, hn, hshown⟩ := hscan
  have hcur := hshown.current hm
  have hscans := h.update i (s := .idle) trivial
  -- a sample noted against the tree that goes is not applied to the one that comes
  have hpoller : ∀ state', (∀ state, w.installed = some state → state'.generation = state.generation + 1) →
      w.poller.Ok w.samples w.now (some state') := by
    intro state' hgen
    have hpoll := h.poller
    cases hp : w.poller with
    | idle => trivial
    | noted g =>
      rw [hp] at hpoll
      obtain ⟨state, hi, hle⟩ := hpoll
      have := hgen state hi
      exact ⟨state', rfl, by omega⟩
    | sampled g x =>
      rw [hp] at hpoll
      obtain ⟨hx, hxn, state, hi, hle, -⟩ := hpoll
      have := hgen state hi
      exact ⟨hx, hxn, state', rfl, by omega, fun he => absurd he (by omega)⟩
  have hfresh : ∀ generation, InstalledOk w.samples w.now ⟨generation, tree, some pool⟩ := by
    rintro generation _ ⟨⟩
    rw [← hat]
    exact ⟨hn, hcur⟩
  unfold replace
  cases hi : w.installed with
  | none =>
    refine ⟨⟨?_, hpoller _ fun state he => absurd (hi.symm.trans he) (by simp), hscans⟩, ?_⟩
    · rintro _ ⟨⟩
      exact hfresh 1
    · rintro s p s' p' he
      rw [hi] at he
      cases he
  | some old =>
    dsimp only
    cases ho : old.pool with
    | none =>
      refine ⟨⟨?_, hpoller _ fun state he => by cases hi.symm.trans he; rfl, hscans⟩, ?_⟩
      · rintro _ ⟨⟩
        exact hfresh _
      · rintro s p s' p' he hp
        rw [hi] at he
        cases he
        rw [ho] at hp
        cases hp
    | some older =>
      obtain ⟨hon, hocur⟩ := h.installed old hi older ho
      obtain ⟨tree', pool', flat, hk, hsampled, hcur', hfor⟩ := @kept _ _ tree _ _ _ hm hat hn hshown hon hocur
      dsimp only
      rw [hk]
      refine ⟨⟨?_, hpoller _ fun state he => by cases hi.symm.trans he; rfl, hscans⟩, ?_⟩
      · rintro _ ⟨⟩ _ ⟨⟩
        exact ⟨hsampled, hcur'⟩
      · rintro s p _ _ he hp ⟨⟩ ⟨⟩
        rw [hi] at he
        cases he
        rw [ho] at hp
        cases hp
        exact hfor

/-- Every step keeps the invariant, and moves no reading back. -/
theorem Ok.step (h : w.Ok) (hs : Step displayPath lvm w w') : Onward w w' := by
  cases hs with
  | note hp hi => exact h.unmoved rfl ⟨h.installed, ⟨_, hi, Nat.le_refl _⟩, h.scans⟩
  | sample sample hp ht =>
    have hpoll := h.poller
    rw [hp] at hpoll
    obtain ⟨state, hi, hle⟩ := hpoll
    refine h.unmoved rfl ⟨fun s hs => (h.installed s hs).mono sample ht, ?_, fun i => (h.scans i).mono sample ht⟩
    refine ⟨List.mem_cons_self .., Nat.le_refl _, state, hi, hle, fun _ pool hpool => ?_⟩
    exact Nat.le_trans (h.installed state hi pool hpool).1 ht
  | fail hp => exact h.unmoved rfl ⟨h.installed, trivial, h.scans⟩
  | apply hp => exact h.applied hp
  | scanSample i sample hs ht =>
    refine h.unmoved rfl ⟨fun s hs => (h.installed s hs).mono sample ht, ?_, fun j => ?_⟩
    · have hpoll := h.poller
      dsimp only
      cases hp : w.poller with
      | idle => trivial
      | noted g =>
        rw [hp] at hpoll
        exact hpoll
      | sampled g x =>
        rw [hp] at hpoll
        exact ⟨List.mem_cons_of_mem _ hpoll.1, Nat.le_trans hpoll.2.1 ht, hpoll.2.2⟩
    · by_cases hj : j = i
      · subst hj
        dsimp only
        rw [Function.update_self]
        exact ⟨List.mem_cons_self .., Nat.le_refl _⟩
      · dsimp only
        rw [Function.update_of_ne hj]
        exact (h.scans j).mono sample ht
  | @scanBuild i inputs pool tree hs hb =>
    have hscan := h.scans i
    rw [hs] at hscan
    obtain ⟨hsampled, hshown⟩ := build_shown hb
    refine h.unmoved rfl ⟨h.installed, h.poller, h.update i ?_⟩
    exact ⟨inputs.sample, hscan.1, hsampled.symm, hscan.2, hshown⟩
  | @scanWalk i tree pool pre post g dpre dpost d walked hs hg hd =>
    have hscan := h.scans i
    rw [hs] at hscan
    obtain ⟨sample, hm, hat, hn, hshown⟩ := hscan
    refine h.unmoved rfl ⟨h.installed, h.poller, h.update i ?_⟩
    exact ⟨sample, hm, hat, hn, hshown.graftWalk hg hd tree walked⟩
  | scanFail i => exact h.unmoved rfl ⟨h.installed, h.poller, h.update i trivial⟩
  | replace hs => exact h.replaced hs

theorem Reachable.ok (h : Reachable displayPath lvm w) : w.Ok := by
  induction h with
  | start =>
    refine ⟨?_, trivial, fun _ => trivial⟩
    rintro _ ⟨⟩
  | step _ hs ih => exact (ih.step hs).ok

end World

/-- Readings never move back in time. In every state of every interleaving: a step leaves no reading
installed for a device, and no pool, older than it was; a sample noted against another generation
changes nothing; and each installed reading is what a sample taken at its time shows. -/
theorem readings_forward {displayPath : Bytes} {lvm : LvmTarget} {w : World} (h : w.Reachable displayPath lvm) :
    (∀ w', World.Step displayPath lvm w w' → ∀ state p state' p', w.installed = some state → state.pool = some p →
      w'.installed = some state' → state'.pool = some p' → Forward p p') ∧
    (∀ state generation sample, w.installed = some state → generation ≠ state.generation →
      apply w.installed generation sample = { installed := w.installed, taken := false }) ∧
    ∀ state p, w.installed = some state → state.pool = some p → Current w.samples p.sampled p.guests := by
  have hok := h.ok
  refine ⟨fun w' hs => (hok.step hs).forward, fun state generation sample hi hne => ?_, fun state p hi hp =>
    (hok.installed state hi p hp).2⟩
  rw [hi, apply]
  dsimp only
  rw [if_pos (Ne.symm hne)]

/-- A scan that sampled the pool before a poll did, installed after the poll. -/
def rescanned : Pool × DirTree :=
  (build [] sampleLvm (sampleInputs (sampleReading (ascii "90") 6))).toOption.get (by decide)

theorem readings_forward_rescan : ∃ (p p' : Pool), p.sampled = 7 ∧
    (disksOf p'.guests).map Disk.allocated = [some (200 * 512), none] ∧ Forward p p' := by
  have h1 : World.Reachable [] sampleLvm _ := .step .start (.scanSample 0 (sampleReading (ascii "100") 5) rfl (Nat.zero_le _))
  have h2 := h1.step (.scanBuild (i := 0) rfl
    (show build [] sampleLvm (sampleInputs (sampleReading (ascii "100") 5)) = .ok sampleBuilt from rfl))
  have h3 := h2.step (.replace (i := 0) rfl)
  have h4 := h3.step (.note rfl rfl)
  have h5 := h4.step (.scanSample 1 (sampleReading (ascii "90") 6) rfl (by decide))
  have h6 := h5.step (.sample (sampleReading (ascii "200") 7) rfl (by decide))
  have h7 := h6.step (.apply rfl)
  have h8 := h7.step (.scanBuild (i := 1) rfl
    (show build [] sampleLvm (sampleInputs (sampleReading (ascii "90") 6)) = .ok rescanned from rfl))
  exact ⟨_, _, rfl, by decide, (readings_forward h8).1 _ (.replace (i := 1) rfl) _ _ _ _ rfl rfl rfl rfl⟩

end StorageHarvester.Lvm
