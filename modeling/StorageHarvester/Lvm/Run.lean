/-
A pool's tree over a whole run: built from a report, then walked, moved to new allocations and given
newer readings in any order. In every tree met each disk has its allocation, and the totals add up to
the pool's.
-/
import StorageHarvester.Lvm.Placed

namespace StorageHarvester.Lvm

open Config (LvmTarget)

/-! ## The invariant -/

/-- The totals add up, and each disk has what it should. -/
structure Balanced (found : Nat → Nat) (t : DirTree) (guests : List Guest) : Prop where
  sums : Sums t guests
  held : ∀ d ∈ disksOf guests, Held found t d

section Step

variable {found foune : Nat → Nat} {t u : DirTree} {pre post : List Guest} {g : Guest} {dpre dpost : List Disk} {d e : Disk}
  {by_ : Component → Int}

/-- A change at one disk leaves the others as they were. -/
theorem Balanced.moved (h : Balanced found t (pre ++ g :: post)) (hd : g.disks = dpre ++ d :: dpost)
    (m : Moved t u g.node d.node e.node by_) (hh : Held foune u e)
    (hfound : ∀ n < t.nodes.length, foune n = found n) :
    Balanced foune u (pre ++ { g with disks := dpre ++ e :: dpost } :: post) := by
  constructor
  · exact h.sums.moved hd m
  · intro x hx
    rw [disksOf_split pre post rfl] at hx
    have hold := h.held
    rw [disksOf_split pre post hd] at hold
    refine (forall_mem_split (P := Held foune u)).2 ⟨hh, fun y hy => ?_⟩ x hx
    obtain ⟨-, hl, hf⟩ := h.sums.other_disk hd m hy
    exact ((forall_mem_split.1 hold).2 y hy).congr hf (hfound _ hl)

theorem mem_split {guests : List Guest} (hg : guests = pre ++ g :: post) (hd : g.disks = dpre ++ d :: dpost) :
    g ∈ guests ∧ d ∈ g.disks ∧ d ∈ disksOf guests := by
  have h1 : g ∈ guests := by rw [hg]; simp
  have h2 : d ∈ g.disks := by rw [hd]; simp
  exact ⟨h1, h2, mem_disksOf.2 ⟨g, h1, h2⟩⟩

/-- What is no figure of a disk may change. -/
theorem Balanced.retagged (h : Balanced found t (pre ++ g :: post)) (hd : g.disks = dpre ++ d :: dpost)
    (hnode : e.node = d.node) (hh : Held found t e) :
    Balanced found t (pre ++ { g with disks := dpre ++ e :: dpost } :: post) := by
  obtain ⟨hgm, hdm, -⟩ := mem_split rfl hd
  have hp := h.sums.disk g hgm d hdm
  have m : Moved t t g.node d.node e.node fun _ => 0 := by
    refine ⟨⟨h.sums.down, .inl hnode, ?_, fun c => ?_, fun _ _ _ _ _ => rfl, fun _ _ => rfl,
      fun _ _ _ => (Int.add_zero _).symm⟩, h.sums.small⟩
    · rw [hnode]
      exact hp
    · rw [hnode]
      exact (Int.add_zero _).symm
  exact h.moved hd m hh fun _ _ => rfl

end Step

/-! ## Newer readings -/

/-- Where a disk takes another allocation, the sums stay below the limits. -/
def KeepFits (found : Nat → Nat) (older : List Guest) (s : DirTree × Bool) (d : Disk) : Prop :=
  ∀ seen a, seenDisk older d.dm = some seen → seen.allocated = some a → d.allocated ≠ some a →
    ∀ c, ((s.1.node 0).sub.get c : Int) + movedBy found s.1 d a c < 2 ^ 63

/-- The same along all disks still to come. -/
def KeepsFit (found : Nat → Nat) (older : List Guest) : DirTree × Bool → List Disk → Prop
  | _, [] => True
  | s, d :: rest => KeepFits found older s d ∧ KeepsFit found older (keepSeen older s d).1 rest

section Keep

variable {found : Nat → Nat} {older : List Guest}

theorem keepSeen_balanced {s : DirTree × Bool} {pre post : List Guest} {g : Guest} {dpre dpost : List Disk} {d : Disk}
    (h : Balanced found s.1 (pre ++ g :: post)) (hd : g.disks = dpre ++ d :: dpost) (hf : KeepFits found older s d) :
    Balanced found (keepSeen older s d).1.1
      (pre ++ { g with disks := dpre ++ (keepSeen older s d).2 :: dpost } :: post) := by
  obtain ⟨hgm, hdm, hm⟩ := mem_split (show pre ++ g :: post = pre ++ g :: post from rfl) hd
  have hh := h.held d hm
  have htag : ∀ d' : Disk, d'.node = d.node → d'.allocated = d.allocated → d'.walked = d.walked →
      d'.unaccounted = d.unaccounted → Held found s.1 d' := by
    intro d' hn ha hw hu
    exact ⟨by rw [hn, ha]; exact hh.allocated, by rw [hn, hu, hw]; exact hh.total, by rw [hn, hu]; exact hh.blocks,
      by rw [hn, hu]; exact hh.apparent, by rw [hn, hw]; exact hh.plain⟩
  unfold keepSeen
  cases hs : seenDisk older d.dm with
  | none => exact h.retagged hd rfl hh
  | some seen =>
    dsimp only
    cases ha : seen.allocated with
    | none => exact h.retagged hd rfl (htag _ rfl rfl rfl rfl)
    | some a =>
      dsimp only
      by_cases hne : d.allocated = some a
      · rw [if_neg (not_not.2 hne)]
        exact h.retagged hd rfl (htag _ rfl rfl rfl rfl)
      · rw [if_pos hne]
        -- first what else was seen, then the allocation
        have h1 := h.retagged (e := { d with
          active := seen.active, read := seen.read, written := seen.written, countersAt := seen.countersAt }) hd rfl
          (htag _ rfl rfl rfl rfl)
        obtain ⟨hgm', hdm', hm'⟩ := mem_split (g := { g with disks := dpre ++ { d with
          active := seen.active, read := seen.read, written := seen.written, countersAt := seen.countersAt } :: dpost })
          (show pre ++ _ :: post = pre ++ _ :: post from rfl) (show dpre ++ _ :: dpost = _ from rfl)
        obtain ⟨m, hh', hn, -⟩ := setAllocated_moved h1.sums hgm' hdm' (h1.held _ hm') (hf seen a hs ha hne)
        have h2 := h1.moved (e := { (setAllocated s.1 { d with
            active := seen.active, read := seen.read, written := seen.written, countersAt := seen.countersAt } a).disk with
              allocatedAt := seen.allocatedAt }) rfl (by rw [show Disk.node _ = d.node from hn]; exact m)
          ⟨hh'.allocated, hh'.total, hh'.blocks, hh'.apparent, hh'.plain⟩ fun _ _ => rfl
        exact h2

theorem overDisks_balanced : ∀ (disks : List Disk) {s : DirTree × Bool} {pre post : List Guest} {g : Guest} {dpre : List Disk}
    {later : List Disk}, Balanced found s.1 (pre ++ g :: post) → g.disks = dpre ++ disks →
    KeepsFit found older s (disks ++ later) →
    Balanced found (overDisks (keepSeen older) s disks).1.1
        (pre ++ { g with disks := dpre ++ (overDisks (keepSeen older) s disks).2 } :: post) ∧
      KeepsFit found older (overDisks (keepSeen older) s disks).1 later
  | [], s, pre, post, g, dpre, later, h, hd, hf => by
    refine ⟨?_, hf⟩
    show Balanced found s.1 (pre ++ { g with disks := dpre ++ [] } :: post)
    rw [← hd]
    exact h
  | d :: rest, s, pre, post, g, dpre, later, h, hd, hf => by
    have h1 := keepSeen_balanced h hd hf.1
    have h2 := overDisks_balanced rest h1
      (show dpre ++ (keepSeen older s d).2 :: rest = (dpre ++ [(keepSeen older s d).2]) ++ rest by simp) hf.2
    rw [List.append_assoc] at h2
    exact h2

theorem overGuests_balanced : ∀ (guests : List Guest) {s : DirTree × Bool} {pre : List Guest},
    Balanced found s.1 (pre ++ guests) → KeepsFit found older s (disksOf guests) →
    Balanced found (overGuests (keepSeen older) s guests).1.1 (pre ++ (overGuests (keepSeen older) s guests).2)
  | [], _, _, h, _ => h
  | g :: rest, s, pre, h, hf => by
    obtain ⟨h1, h2⟩ := overDisks_balanced g.disks h (show g.disks = [] ++ g.disks from rfl) hf
    rw [List.append_cons] at h1
    have h3 := overGuests_balanced rest h1 h2
    rw [← List.append_cons] at h3
    exact h3

end Keep

/-! ## Runs -/

section Run

variable (displayPath : Bytes) (lvm : LvmTarget) (inputs : Inputs)

/-- The trees and pools met from a build on, with what each walk found, while all sums stay below the
limits. -/
inductive PoolRun : DirTree → Pool → (Nat → Nat) → Prop
  | build {t : DirTree} {pool : Pool} (h : build displayPath lvm inputs = .ok (pool, t)) (hf : BuildFits pool.guests) :
      PoolRun t pool fun _ => 0
  | graftWalk {t : DirTree} {pool : Pool} {found : Nat → Nat} {pre post : List Guest} {g : Guest} {dpre dpost : List Disk}
      {d : Disk} {walked : DirTree} (h : PoolRun t pool found) (hg : pool.guests = pre ++ g :: post)
      (hd : g.disks = dpre ++ d :: dpost) (hplain : d.walked = false) (hw : WalkedTree walked)
      (hf : (walked.node 0).totalBlocks ≤ d.allocated.getD 0 →
        ∀ c, ((t.node 0).sub.get c : Int) + graftedBy t d walked c < 2 ^ 63) :
      PoolRun (graftWalk t d walked).1
        { pool with guests := pre ++ { g with disks := dpre ++ (graftWalk t d walked).2.1 :: dpost } :: post }
        (if (graftWalk t d walked).2.2 then Function.update found t.nodes.length (walked.node 0).totalBlocks else found)
  | setAllocated {t : DirTree} {pool : Pool} {found : Nat → Nat} {pre post : List Guest} {g : Guest} {dpre dpost : List Disk}
      {d : Disk} {allocated : Nat} (h : PoolRun t pool found) (hg : pool.guests = pre ++ g :: post)
      (hd : g.disks = dpre ++ d :: dpost)
      (hf : ∀ c, ((t.node 0).sub.get c : Int) + movedBy found t d allocated c < 2 ^ 63) :
      PoolRun (setAllocated t d allocated).tree
        { pool with guests := pre ++ { g with disks := dpre ++ (setAllocated t d allocated).disk :: dpost } :: post } found
  | keepNewerReadings {t t' : DirTree} {pool pool' : Pool} {found : Nat → Nat} {older : Pool} {flat : Bool}
      (h : PoolRun t pool found) (hf : KeepsFit found older.guests (t, false) (disksOf pool.guests))
      (hk : keepNewerReadings t (some pool) older = (t', some pool', flat)) : PoolRun t' pool' found

end Run

section AddsUp

variable {displayPath : Bytes} {lvm : LvmTarget} {inputs : Inputs} {t : DirTree} {pool : Pool} {found : Nat → Nat}

theorem placed_balanced {gs : List Guest} (ht : t.nodes = rollNodes (startNodes (placeGuests 1 gs)))
    (hf : BuildFits (placeGuests 1 gs)) (hplain : ∀ d ∈ disksOf gs, d.walked = false) :
    Balanced (fun _ => 0) t (placeGuests 1 gs) := by
  obtain ⟨hsums, hdisk⟩ := placed_sums ht hf
  refine ⟨hsums, fun d hd => ?_⟩
  obtain ⟨hw, hu⟩ := placeGuests_disks (Q := fun d => d.walked = false ∧ d.unaccounted = d.bytes)
    (fun _ _ h => ⟨h, rfl⟩) 1 hplain d hd
  obtain ⟨g, hg, hdm⟩ := mem_disksOf.1 hd
  obtain ⟨hb, hob, hoa⟩ := hdisk g hg d hdm .blocks
  have ha := (hdisk g hg d hdm .apparent).1
  have htotal : totalAt t d.node .blocks = d.bytes := by
    unfold totalAt
    rw [hb, hob]
    rfl
  refine ⟨fun a h => ?_, ?_, Nat.le_of_eq ?_, Nat.le_of_eq ?_, fun _ => ⟨hob, hoa⟩⟩
  · rw [htotal, Disk.bytes, show d.allocated = some a from h]
    rfl
  · rw [htotal, hu, hw]
    rfl
  · exact hu.trans hb.symm
  · exact hu.trans ha.symm

theorem build_balanced (h : build displayPath lvm inputs = .ok (pool, t)) (hf : BuildFits pool.guests) :
    Balanced (fun _ => 0) t pool.guests := by
  unfold build at h
  split at h
  · cases h
  · split at h
    · cases h
    · cases h
      exact placed_balanced rfl hf (estimateInactive_disks (foundGuests_disks (fun _ _ _ _ => rfl) _) (fun _ _ h => h) _ _)

theorem PoolRun.balanced (h : PoolRun displayPath lvm inputs t pool found) : Balanced found t pool.guests := by
  induction h with
  | build h hf => exact build_balanced h hf
  | @graftWalk t pool found pre post g dpre dpost d walked _ hg hd hplain hw hf ih =>
    obtain ⟨hgm, hdm, hm⟩ := mem_split hg hd
    by_cases hused : (walked.node 0).totalBlocks ≤ d.allocated.getD 0
    · obtain ⟨hr, hn, m, hh⟩ := graftWalk_moved ih.sums hgm hdm (ih.held d hm) hplain hw hused (hf hused)
      rw [if_pos hr]
      rw [hg] at ih
      exact ih.moved hd (by rw [hn]; exact m) hh fun n hl => Function.update_of_ne (Nat.ne_of_lt hl) _ _
    · have hh := ih.held d hm
      rw [hg] at ih
      rw [graftWalk_unused hused]
      exact ih.retagged hd rfl hh
  | @setAllocated t pool found pre post g dpre dpost d allocated _ hg hd hf ih =>
    obtain ⟨hgm, hdm, hm⟩ := mem_split hg hd
    obtain ⟨m, hh, hn, -⟩ := setAllocated_moved ih.sums hgm hdm (ih.held d hm) hf
    rw [hg] at ih
    exact ih.moved hd (by rw [hn]; exact m) hh fun _ _ => rfl
  | @keepNewerReadings t t' pool pool' found older flat _ hf hk ih =>
    unfold Lvm.keepNewerReadings at hk
    dsimp only at hk
    split at hk
    · have h := overGuests_balanced (s := (t, false)) pool.guests (show Balanced found t ([] ++ pool.guests) from ih) hf
      cases hk
      exact h
    · cases hk
      exact ih

/-- What adds up, in allocated bytes. -/
structure AddsUp (found : Nat → Nat) (t : DirTree) (guests : List Guest) : Prop where
  allocated : ∀ d ∈ disksOf guests, ∀ a, d.allocated = some a → (t.node d.node).totalBlocks = a
  unaccounted : ∀ d ∈ disksOf guests, d.unaccounted ≤ (t.node d.node).totalBlocks
  walked : ∀ d ∈ disksOf guests, d.walked = true → (t.node d.node).totalBlocks - d.unaccounted = found d.node
  guestTotal : ∀ g ∈ guests, (t.node g.node).totalBlocks = (g.disks.map fun d => (t.node d.node).totalBlocks).sum
  poolTotal : (t.node 0).totalBlocks = (guests.map fun g => (t.node g.node).totalBlocks).sum

theorem Balanced.addsUp {guests : List Guest} (h : Balanced found t guests) : AddsUp found t guests := by
  have hdisk : ∀ g ∈ guests, ∀ d ∈ g.disks, (t.node d.node).totalBlocks = totalAt t d.node .blocks := fun g hg d hd => by
    have := disk_bounds h.sums hg hd .blocks
    exact totalBlocks_eq (by omega)
  have hdisk' : ∀ d ∈ disksOf guests, (t.node d.node).totalBlocks = totalAt t d.node .blocks := fun d hd => by
    obtain ⟨g, hg, hd⟩ := mem_disksOf.1 hd
    exact hdisk g hg d hd
  have hbare : ∀ i, Bare (t.node i) → (t.node i).sub.get .blocks < 2 ^ 63 → (t.node i).totalBlocks = (t.node i).sub.get .blocks :=
    fun i hb hl => by
      have htotal : totalAt t i .blocks = (t.node i).sub.get .blocks := by
        unfold totalAt
        rw [hb.ownBlocks]
        rfl
      rw [totalBlocks_eq (by omega), htotal]
  have hguest : ∀ g ∈ guests, (t.node g.node).totalBlocks = (t.node g.node).sub.get .blocks := fun g hg =>
    hbare _ (h.sums.bareGuest g hg) (Nat.lt_of_le_of_lt (h.sums.guest_le hg .blocks) (h.sums.small .blocks))
  constructor
  · intro d hd a ha
    rw [hdisk' d hd]
    exact (h.held d hd).allocated a ha
  · intro d hd
    rw [hdisk' d hd, (h.held d hd).total]
    exact Nat.le_add_right _ _
  · intro d hd hw
    rw [hdisk' d hd, (h.held d hd).total, if_pos hw]
    omega
  · intro g hg
    rw [hguest g hg, h.sums.guestSum g hg .blocks, List.map_congr_left (hdisk g hg)]
    show (t.node g.node).direct.blocks + _ = _
    rw [(h.sums.bareGuest g hg).blocks, Nat.zero_add]
  · rw [hbare 0 h.sums.bareRoot (h.sums.small .blocks), h.sums.rootSum .blocks, List.map_congr_left hguest]
    show (t.node 0).direct.blocks + _ = _
    rw [h.sums.bareRoot.blocks, Nat.zero_add]

/-- The pool's tree always adds up, and the change a disk's new allocation returns is the change of
the pool's total. -/
theorem pool_adds_up (h : PoolRun displayPath lvm inputs t pool found) : AddsUp found t pool.guests ∧
    ∀ d ∈ disksOf pool.guests, ∀ allocated,
      (∀ c, ((t.node 0).sub.get c : Int) + movedBy found t d allocated c < 2 ^ 63) → ∀ c,
        (setAllocated t d allocated).delta.get c =
          (totalAt (setAllocated t d allocated).tree 0 c : Int) - totalAt t 0 c := by
  have hb := h.balanced
  refine ⟨hb.addsUp, fun d hd allocated hf c => ?_⟩
  obtain ⟨g, hg, hdm⟩ := mem_disksOf.1 hd
  obtain ⟨m, -, -, hdelta⟩ := setAllocated_moved hb.sums hg hdm (hb.held d hd) hf
  have hbare := hb.sums.bareRoot
  have hbare' := hbare.congr (m.on 0 (.inl rfl))
  have hsub := m.sub 0 (.inl rfl) c
  unfold totalAt
  rw [hdelta, hbare.ownBlocks, hbare.ownApparent, hbare'.ownBlocks, hbare'.ownApparent]
  omega

end AddsUp

/-! ## A sample -/

/-- A walk that found 12 KiB, 4 KiB of them the directory's own. -/
def sampleWalk : DirTree where
  displayRoot := []
  scanRoot := [slash]
  rootDev := 3
  nodes := [{ synthetic [] none 0 with
    ownBlocks := 4096, ownApparent := 4096, direct := { files := 1, blocks := 8192, apparent := 8000 }
    sub := { files := 1, blocks := 8192, apparent := 8000 } }]
  links := .empty
  handles := []
  plain := []
  untrackedLinks := []

def sampleGuest : Guest := sampleBuilt.1.guests.head (by decide)

def sampleDisk : Disk := sampleGuest.disks.head (by decide)

theorem walkedTree_sample : WalkedTree sampleWalk := by
  refine ⟨by decide, rfl, fun i p hp => ?_⟩
  cases i with
  | zero => cases hp
  | succ i => cases hp

def sampleGrafted : DirTree × Disk × Bool := graftWalk sampleBuilt.2 sampleDisk sampleWalk

/-- The container walked, and then trimmed below what the walk found. -/
theorem pool_adds_up_trimmed : ∃ (t : DirTree) (pool : Pool) (found : Nat → Nat), AddsUp found t pool.guests ∧
    (disksOf pool.guests).map (fun d => (d.walked, d.unaccounted)) = [(false, 4096), (false, 210944)] := by
  have hbuilt : PoolRun [] sampleLvm (sampleInputs (sampleReading (ascii "100") 5)) sampleBuilt.2 sampleBuilt.1 fun _ => 0 :=
    .build rfl ⟨by decide, by decide⟩
  have hwalked := hbuilt.graftWalk (show _ = [] ++ sampleGuest :: sampleBuilt.1.guests.tail from rfl)
    (show _ = [] ++ sampleDisk :: [] from rfl) rfl walkedTree_sample (fun _ c => by cases c <;> decide)
  have htrimmed := hwalked.setAllocated
    (show _ = [] ++ { sampleGuest with disks := [sampleGrafted.2.1] } :: sampleBuilt.1.guests.tail from rfl)
    (show _ = [] ++ sampleGrafted.2.1 :: [] from rfl)
    (show ∀ c, _ + movedBy _ _ _ 4096 c < 2 ^ 63 from fun c => by cases c <;> decide)
  exact ⟨_, _, _, (pool_adds_up htrimmed).1, by decide⟩

end StorageHarvester.Lvm
