/-
What the volumes never seen active are estimated at. Their shares of the pool's use that no active
volume accounts for are rounded down and cut off at their sizes, so that together they stay below
that use, and miss less than a byte each of it.
-/
import StorageHarvester.Lvm.Pool

namespace StorageHarvester.Lvm

/-! ## Proportional shares -/

section Shares

variable (rest total : Nat)

/-- The shares of `rest`, rounded down, and their remainders. -/
theorem sum_shares_add_remainders (sizes : List Nat) :
    total * (sizes.map fun s => rest * s / total).sum + (sizes.map fun s => rest * s % total).sum = rest * sizes.sum := by
  induction sizes with
  | nil => simp
  | cons s sizes ih =>
    have hs := Nat.div_add_mod (rest * s) total
    simp only [List.map_cons, List.sum_cons, Nat.mul_add]
    omega

variable {rest total}

theorem sum_remainders_lt (ht : 0 < total) : ∀ {sizes : List Nat}, sizes ≠ [] →
    (sizes.map fun s => rest * s % total).sum < total * sizes.length
  | [], h => absurd rfl h
  | s :: sizes, _ => by
    have hs := Nat.mod_lt (rest * s) ht
    simp only [List.map_cons, List.sum_cons, List.length_cons, Nat.mul_succ]
    cases sizes with
    | nil => simpa using hs
    | cons s' sizes =>
      have := sum_remainders_lt ht (List.cons_ne_nil s' sizes)
      omega

/-- Shares of `rest` by size are at most `rest` together. -/
theorem sum_shares_le {sizes : List Nat} (ht : 0 < sizes.sum) : (sizes.map fun s => rest * s / sizes.sum).sum ≤ rest := by
  have h := sum_shares_add_remainders rest sizes.sum sizes
  refine Nat.le_of_mul_le_mul_left ?_ ht
  rw [Nat.mul_comm sizes.sum rest]
  omega

/-- Rounding loses less than one for each of them. -/
theorem lt_sum_shares_add {sizes : List Nat} (ht : 0 < sizes.sum) :
    rest < (sizes.map fun s => rest * s / sizes.sum).sum + sizes.length := by
  have hne : sizes ≠ [] := fun h => by
    rw [h] at ht
    exact absurd ht (by decide)
  have h := sum_shares_add_remainders rest sizes.sum sizes
  have hr := @sum_remainders_lt rest _ ht _ hne
  refine Nat.lt_of_mul_lt_mul_left (a := sizes.sum) ?_
  rw [Nat.mul_comm sizes.sum rest, Nat.mul_add]
  omega

end Shares

/-! ## The estimates -/

/-- The bytes known to be allocated. -/
def knownBytes (guests : List Guest) : Nat := ((disksOf guests).filterMap Disk.allocated).sum

/-- The volumes never seen active. -/
def inactive (guests : List Guest) : List Disk := (disksOf guests).filter fun d => d.allocated.isNone

/-- The bytes they are estimated at. -/
def estimatedBytes (guests : List Guest) : Nat := ((inactive guests).map fun d => d.estimated.getD 0).sum

def inactiveSize (guests : List Guest) : Nat := ((inactive guests).map Disk.size).sum

/-- No sum of the estimate leaves `u64`. -/
structure EstimateFits (guests : List Guest) (used : Nat) : Prop where
  known : knownBytes guests < 2 ^ 64
  inactive : inactiveSize guests < 2 ^ 64
  used : used < 2 ^ 64

/-- No disk has an estimate yet, as when the guests have just been found. -/
def Unestimated (guests : List Guest) : Prop := ∀ d ∈ disksOf guests, d.estimated = none

/-- What an inactive disk is estimated at. -/
def estimateOf (rest unknown : Nat) (d : Disk) : Disk :=
  if d.allocated.isNone then { d with estimated := some (min (rest * d.size / unknown % 2 ^ 64) d.size) } else d

theorem disksOf_mapDisks (f : Disk → Disk) (guests : List Guest) : disksOf (mapDisks f guests) = (disksOf guests).map f := by
  unfold disksOf mapDisks
  rw [List.flatMap_map, List.map_flatMap]

/-- Either nothing is left to be estimated, or every inactive disk gets its share. -/
theorem estimateInactive_cases {guests : List Guest} {used : Nat} {volumes : List ThinVolume} (hv : ∀ v ∈ volumes, v.origin = none)
    (hf : EstimateFits guests used) :
    ((inactiveSize guests = 0 ∨ used ≤ knownBytes guests) ∧ estimateInactive guests used volumes = guests) ∨
      (0 < inactiveSize guests ∧ knownBytes guests < used ∧
        estimateInactive guests used volumes = mapDisks (estimateOf (used - knownBytes guests) (inactiveSize guests)) guests) := by
  have hany : (volumes.any fun v => v.origin.isSome) = false := by
    rw [List.any_eq_false]
    intro v hm
    rw [hv v hm]
    decide
  have hknown : ((disksOf guests).filterMap Disk.allocated).sum % 2 ^ 64 = knownBytes guests := Nat.mod_eq_of_lt hf.known
  have hsize : (((disksOf guests).filter fun d => d.allocated.isNone).map Disk.size).sum % 2 ^ 64 = inactiveSize guests :=
    Nat.mod_eq_of_lt hf.inactive
  unfold estimateInactive
  rw [hany, if_neg Bool.false_ne_true]
  dsimp only
  rw [hknown, hsize]
  split
  · rename_i h
    exact .inl ⟨h.imp id fun h => Nat.sub_eq_zero_iff_le.1 h, rfl⟩
  · rename_i h
    exact .inr ⟨by omega, by omega, rfl⟩

section Estimated

variable {guests : List Guest} {rest : Nat}

theorem allocated_estimateOf (rest unknown : Nat) (d : Disk) : (estimateOf rest unknown d).allocated = d.allocated := by
  unfold estimateOf
  split <;> rfl

/-- Nothing is known or unknown that was not before. -/
theorem known_mapDisks (rest unknown : Nat) : knownBytes (mapDisks (estimateOf rest unknown) guests) = knownBytes guests := by
  unfold knownBytes
  rw [disksOf_mapDisks, List.filterMap_map]
  exact congrArg List.sum (congrArg (fun f => (disksOf guests).filterMap f) (funext fun d => allocated_estimateOf rest unknown d))

theorem inactive_mapDisks (rest unknown : Nat) :
    inactive (mapDisks (estimateOf rest unknown) guests) = (inactive guests).map (estimateOf rest unknown) := by
  unfold inactive
  rw [disksOf_mapDisks, List.filter_map]
  exact congrArg (fun p => ((disksOf guests).filter p).map (estimateOf rest unknown))
    (funext fun d => by rw [Function.comp_apply, allocated_estimateOf])

theorem size_le_inactiveSize {d : Disk} (hd : d ∈ inactive guests) : d.size ≤ inactiveSize guests :=
  List.le_sum_of_mem (List.mem_map_of_mem hd)

/-- A share is at most what is shared, so it fits `u64`. -/
theorem share_le {d : Disk} (hd : d ∈ inactive guests) : rest * d.size / inactiveSize guests ≤ rest :=
  Nat.div_le_of_le_mul (by rw [Nat.mul_comm (inactiveSize guests)]; exact Nat.mul_le_mul_left _ (size_le_inactiveSize hd))

/-- The estimates are the shares, cut off at the sizes. -/
theorem estimatedBytes_mapDisks (hr : rest < 2 ^ 64) :
    estimatedBytes (mapDisks (estimateOf rest (inactiveSize guests)) guests) =
      ((inactive guests).map fun d => min (rest * d.size / inactiveSize guests) d.size).sum := by
  unfold estimatedBytes
  rw [inactive_mapDisks, List.map_map]
  congr 1
  refine List.map_congr_left fun d hd => ?_
  have hnone : d.allocated.isNone = true := (List.mem_filter.1 hd).2
  rw [Function.comp_apply, estimateOf, if_pos hnone, Nat.mod_eq_of_lt (Nat.lt_of_le_of_lt (share_le hd) hr)]
  rfl

theorem estimatedBytes_unestimated (h : Unestimated guests) : estimatedBytes guests = 0 := by
  unfold estimatedBytes
  rw [List.sum_eq_zero_iff]
  intro x hx
  obtain ⟨d, hd, rfl⟩ := List.mem_map.1 hx
  rw [h d (List.mem_filter.1 hd).1]
  rfl

end Estimated

/-- What holds after estimating, of the guests `before` and `after`. -/
structure Estimated (before after : List Guest) (used : Nat) : Prop where
  /-- No estimate exceeds its volume's size. -/
  capped : ∀ d ∈ disksOf after, ∀ bytes, d.estimated = some bytes → bytes ≤ d.size
  /-- Allocations and estimates are within what the pool holds, or is known to. -/
  total : knownBytes after + estimatedBytes after ≤ max used (knownBytes after)
  /-- Where there is room for them, the estimates miss less than a byte for each inactive volume. -/
  short : used - knownBytes before ≤ inactiveSize before → inactive before ≠ [] →
    used - knownBytes before < estimatedBytes after + (inactive before).length
  /-- Only the estimates of disks without a known allocation are new. -/
  others : ∃ f : Disk → Disk, after = mapDisks f before ∧ (∀ d, d.allocated.isSome → f d = d) ∧
    ∀ d, { f d with estimated := d.estimated } = d
  /-- The products fit `u128`, and the shares `u64`. -/
  fits : ∀ d ∈ inactive before, (used - knownBytes before) * d.size < 2 ^ 128 ∧
    (used - knownBytes before) * d.size / inactiveSize before < 2 ^ 64

/-- The estimates are bounded by what the pool holds. -/
theorem estimate_bounded {guests : List Guest} {used : Nat} {volumes : List ThinVolume} (hv : ∀ v ∈ volumes, v.origin = none)
    (hf : EstimateFits guests used) (hn : Unestimated guests) : Estimated guests (estimateInactive guests used volumes) used := by
  have hused := hf.used
  have hinactive := hf.inactive
  have hfits : ∀ d ∈ inactive guests, (used - knownBytes guests) * d.size < 2 ^ 128 ∧
      (used - knownBytes guests) * d.size / inactiveSize guests < 2 ^ 64 := fun d hd => by
    have hsize := size_le_inactiveSize hd
    have hshare := @share_le guests (used - knownBytes guests) d hd
    refine ⟨?_, by omega⟩
    calc (used - knownBytes guests) * d.size < 2 ^ 64 * 2 ^ 64 := Nat.mul_lt_mul'' (by omega) (by omega)
      _ = 2 ^ 128 := rfl
  rcases estimateInactive_cases hv hf with ⟨hnothing, he⟩ | ⟨hsize, hrest, he⟩
  · rw [he]
    refine ⟨fun d hd bytes hb => ?_, ?_, fun hroom hne => ?_, ⟨id, ?_, fun d _ => rfl, fun d => rfl⟩, hfits⟩
    · rw [hn d hd] at hb
      cases hb
    · rw [estimatedBytes_unestimated hn]
      omega
    · -- nothing is left over
      have hpos := List.length_pos_iff.2 hne
      omega
    · unfold mapDisks
      simp
  · rw [he]
    have hlt : used - knownBytes guests < 2 ^ 64 := by omega
    have hsum : ((inactive guests).map fun d => (used - knownBytes guests) * d.size / inactiveSize guests).sum =
        (((inactive guests).map Disk.size).map fun s => (used - knownBytes guests) * s / ((inactive guests).map Disk.size).sum).sum := by
      rw [List.map_map]
      rfl
    refine ⟨fun d hd bytes hb => ?_, ?_, fun hroom _ => ?_, ⟨_, rfl, fun d hd => ?_, fun d => ?_⟩, hfits⟩
    · rw [disksOf_mapDisks] at hd
      obtain ⟨d', hd', rfl⟩ := List.mem_map.1 hd
      unfold estimateOf at hb ⊢
      split at hb
      · rename_i hnone
        rw [if_pos hnone]
        cases hb
        exact Nat.min_le_right _ _
      · rw [hn d' hd'] at hb
        cases hb
    · have hle : ((inactive guests).map fun d => min ((used - knownBytes guests) * d.size / inactiveSize guests) d.size).sum ≤
          ((inactive guests).map fun d => (used - knownBytes guests) * d.size / inactiveSize guests).sum :=
        List.sum_le_sum fun d _ => Nat.min_le_left _ _
      have hshares : _ ≤ used - knownBytes guests := sum_shares_le hsize
      rw [known_mapDisks, estimatedBytes_mapDisks hlt]
      omega
    · -- no share is cut off
      have hwhole : ∀ d ∈ inactive guests, min ((used - knownBytes guests) * d.size / inactiveSize guests) d.size =
          (used - knownBytes guests) * d.size / inactiveSize guests := fun d _ =>
        Nat.min_eq_left (Nat.div_le_of_le_mul (Nat.mul_le_mul_right _ hroom))
      have hshares := @lt_sum_shares_add (used - knownBytes guests) _ hsize
      rw [estimatedBytes_mapDisks hlt, List.map_congr_left hwhole, hsum]
      rwa [List.length_map] at hshares
    · unfold estimateOf
      rw [if_neg]
      rw [Option.isNone_iff_eq_none]
      exact Option.isSome_iff_ne_none.1 hd
    · unfold estimateOf
      split <;> rfl

/-- The guests a scan finds have no estimates. -/
theorem unestimated_found (lvm : Config.LvmTarget) (inputs : Inputs) (storage : Option Bytes) :
    Unestimated (foundGuests lvm inputs storage) :=
  foundGuests_disks (fun _ _ _ _ => rfl) storage

/-- A container with one active disk, and an inactive one no guest claims. -/
def sampleGuests : List Guest := foundGuests sampleLvm (sampleInputs (sampleReading (ascii "100") 5)) (some (ascii "s"))

theorem estimate_bounded_sample :
    Estimated sampleGuests (estimateInactive sampleGuests 262144 (sampleInputs (sampleReading (ascii "100") 5)).volumes) 262144 ∧
      estimatedBytes (estimateInactive sampleGuests 262144 (sampleInputs (sampleReading (ascii "100") 5)).volumes) = 210944 :=
  ⟨estimate_bounded (by decide) ⟨by decide, by decide, by decide⟩ (unestimated_found _ _ _), by decide⟩

/-- Without inactive volumes nothing is missed: not less than none. -/
theorem short_without_inactive : ¬∀ (guests : List Guest) (used : Nat) (volumes : List ThinVolume), (∀ v ∈ volumes, v.origin = none) →
    EstimateFits guests used → Unestimated guests → used - knownBytes guests ≤ inactiveSize guests →
    used - knownBytes guests < estimatedBytes (estimateInactive guests used volumes) + (inactive guests).length := by
  intro h
  have := h (sampleGuests.take 1) 51200 [⟨ascii "a", 1048576, true, none⟩] (by decide) ⟨by decide, by decide, by decide⟩
    (fun d hd => unestimated_found _ _ _ d (List.mem_flatMap.2 (by
      obtain ⟨g, hg, hd⟩ := List.mem_flatMap.1 hd
      exact ⟨g, List.mem_of_mem_take hg, hd⟩))) (by decide)
  exact absurd this (by decide)

end StorageHarvester.Lvm
