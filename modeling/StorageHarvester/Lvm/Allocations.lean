/-
What `graft_walk` and `set_allocated` do to the sums of a pool's tree, while these stay below the
limits of the machine: each moves one disk's total, and the guest's and the pool's by as much.
-/
import StorageHarvester.Lvm.Sums

namespace StorageHarvester.Lvm

open Forest

variable {t u v : DirTree} {guests : List Guest} {g : Guest} {d : Disk}

/-! ## Carrying up -/

/-- What a change carried up from a guest does. -/
structure Carried (v u : DirTree) (guest : Nat) (delta : Delta) : Prop where
  node : ∀ j, (u.node j).figures = { v.node j with sub := (u.node j).sub }.figures
  at_ : ∀ j, j = 0 ∨ j = guest → ∀ c, ((u.node j).sub.get c : Int) = (v.node j).sub.get c + delta.get c
  off : ∀ j, ¬(j = 0 ∨ j = guest) → (u.node j).figures = (v.node j).figures

theorem propagate_carried {guest : Nat} {delta : Delta} (hd : Down v.parentOf) (hroot : (v.node 0).parent = none)
    (hguest : (v.node guest).parent = some 0)
    (hfit : ∀ j, j = 0 ∨ j = guest → ∀ c, 0 ≤ ((v.node j).sub.get c : Int) + delta.get c ∧
      ((v.node j).sub.get c : Int) + delta.get c < 2 ^ 64) : Carried v (v.propagate guest delta) guest delta := by
  have habove : ∀ j, Above v.parentOf j guest ↔ j = 0 ∨ j = guest := fun j => by
    rw [above_of_parent hguest, above_root hroot]
    exact or_comm
  have hp := DirTree.propagate_spec hd (lt_of_parent hguest) fun j hj => hfit j ((habove j).1 hj)
  constructor
  · intro j
    rw [hp.node j]
  · exact fun j hj c => hp.at_ j c ((habove j).2 hj)
  · intro j hj
    rw [hp.node j, hp.off j (mt (habove j).1 hj)]

theorem Carried.down {guest : Nat} {delta : Delta} (hc : Carried v u guest delta) (hd : Down v.parentOf) :
    Down u.parentOf := by
  rw [show u.parentOf = v.parentOf from funext fun j => congrArg Prod.fst (hc.node j)]
  exact hd

theorem Moving.carried {guest disk new : Nat} {by_ paid : Component → Int} {delta : Delta}
    (m : Moving t v guest disk new by_ paid) (hc : Carried v u guest delta)
    (hnew : ¬(new = 0 ∨ new = guest)) : Moving t u guest disk new by_ fun c => paid c + delta.get c where
  down := hc.down m.down
  fresh := m.fresh
  parent := (congrArg Prod.fst (hc.off new hnew)).trans m.parent
  total := fun c => by
    rw [totalAt_congr (hc.off new hnew)]
    exact m.total c
  off := fun j hj hd hg h0 => by
    rw [hc.off j (by rintro (h | h) <;> contradiction)]
    exact m.off j hj hd hg h0
  on := fun j hj => by
    have h := m.on j hj
    have h' := hc.node j
    simp only [DirNode.figures, Prod.mk.injEq] at h h' ⊢
    rw [h'.1, h'.2.1, h'.2.2.1, h'.2.2.2.1]
    tauto
  sub := fun j hj c => by
    rw [hc.at_ j hj c, m.sub j hj c]
    omega

/-! ## Bounds -/

namespace Sums

theorem guest_le (h : Sums t guests) (hg : g ∈ guests) (c : Component) :
    (t.node g.node).sub.get c ≤ (t.node 0).sub.get c := by
  have hs := h.rootSum c
  have hle := List.single_le_sum (fun x _ => Nat.zero_le x) _
    (List.mem_map_of_mem (f := fun g => (t.node g.node).sub.get c) hg)
  omega

theorem disk_le (h : Sums t guests) (hg : g ∈ guests) (hd : d ∈ g.disks) (c : Component) :
    totalAt t d.node c ≤ (t.node g.node).sub.get c := by
  have hs := h.guestSum g hg c
  have hle := List.single_le_sum (fun x _ => Nat.zero_le x) _
    (List.mem_map_of_mem (f := fun d => totalAt t d.node c) hd)
  omega

end Sums

/-! ## Disks -/

/-- What holds of each disk: its node has its allocation, of which a walk, if there was one, found
`found`. -/
structure Held (found : Nat → Nat) (t : DirTree) (d : Disk) : Prop where
  allocated : ∀ a ∈ d.allocated, totalAt t d.node .blocks = a
  total : totalAt t d.node .blocks = d.unaccounted + if d.walked then found d.node else 0
  blocks : d.unaccounted ≤ (t.node d.node).sub.blocks
  apparent : d.unaccounted ≤ (t.node d.node).sub.apparent
  plain : d.walked = false → (t.node d.node).ownBlocks = 0 ∧ (t.node d.node).ownApparent = 0

theorem Held.congr {found found' : Nat → Nat} (h : Held found t d) (hf : (u.node d.node).figures = (t.node d.node).figures)
    (hfound : found' d.node = found d.node) : Held found' u d := by
  have ht := totalAt_congr hf
  simp only [DirNode.figures, Prod.mk.injEq] at hf
  obtain ⟨-, hb, ha, -, hs⟩ := hf
  exact ⟨by rw [ht]; exact h.allocated, by rw [ht, hfound]; exact h.total, by rw [hs]; exact h.blocks, by rw [hs]; exact h.apparent,
    by rw [hb, ha]; exact h.plain⟩

theorem totalBlocks_eq {n : Nat} (h : totalAt t n .blocks < 2 ^ 64) : (t.node n).totalBlocks = totalAt t n .blocks := by
  unfold DirNode.totalBlocks saturatingAdd u64Max
  unfold totalAt at h ⊢
  simp only [Tally.get, sizeAt] at h ⊢
  omega

/-! ## Moving a disk to an allocation -/

/-- The change of the disk's total when it is moved to `allocated`, in unbounded integers: all of it
for a walked disk that holds less than the walk found, its unaccounted blocks otherwise. -/
def movedBy (found : Nat → Nat) (t : DirTree) (d : Disk) (allocated : Nat) (c : Component) : Int :=
  if d.walked = true ∧ allocated < found d.node then (sizeAt allocated allocated c : Int) - totalAt t d.node c
  else sizeAt 1 1 c * ((allocated : Int) - totalAt t d.node .blocks)

/-- A change of size, in each component. -/
theorem get_size_of (x y : Int) (c : Component) : (Delta.size x y).get c = match c with
    | .blocks => x
    | .apparent => y
    | _ => 0 := by cases c <;> rfl

theorem get_flat (n : Nat) (c : Component) : ({ blocks := n, apparent := n } : Tally).get c = sizeAt n n c := by
  cases c <;> rfl

theorem get_sizeDelta {blocks apparent : Nat} {c : Component} (h : sizeAt blocks apparent c < 2 ^ 63) :
    (sizeDelta blocks apparent).get c = sizeAt blocks apparent c := by
  rw [sizeDelta, get_size_of]
  cases c with
  | blocks | apparent =>
    dsimp only [sizeAt] at h ⊢
    rw [wrapI64_eq] <;> omega
  | files | dirs | symlinks => rfl

/-- What the limits come to along the way up from a disk. -/
theorem disk_bounds (h : Sums t guests) (hg : g ∈ guests) (hd : d ∈ g.disks) (c : Component) : totalAt t d.node c ≤ (t.node g.node).sub.get c ∧
    (t.node g.node).sub.get c ≤ (t.node 0).sub.get c ∧ (t.node 0).sub.get c < 2 ^ 63 :=
  ⟨h.disk_le hg hd c, h.guest_le hg c, h.small c⟩

section SetAllocated

variable {found : Nat → Nat} {allocated : Nat} (h : Sums t guests) (hg : g ∈ guests) (hd : d ∈ g.disks) (hh : Held found t d)
include h hg hd hh

theorem files_eq : (t.node d.node).totalBlocks - d.unaccounted = if d.walked then found d.node else 0 := by
  have hb := disk_bounds h hg hd .blocks
  rw [totalBlocks_eq (by omega), hh.total]
  omega

/-- The disk goes opaque. -/
theorem setAllocated_flat (hf : d.walked = true ∧ allocated < found d.node)
    (hfit : ∀ c, ((t.node 0).sub.get c : Int) + movedBy found t d allocated c < 2 ^ 63) :
    Moved t (setAllocated t d allocated).tree g.node d.node d.node (movedBy found t d allocated) ∧
      Held found (setAllocated t d allocated).tree (setAllocated t d allocated).disk ∧
      (setAllocated t d allocated).disk.node = d.node ∧
      ∀ c, (setAllocated t d allocated).delta.get c = movedBy found t d allocated c := by
  have hfiles := files_eq h hg hd hh
  rw [if_pos hf.1] at hfiles
  have hby : ∀ c, movedBy found t d allocated c = (sizeAt allocated allocated c : Int) - totalAt t d.node c := fun c => if_pos hf
  have hpd := h.disk g hg d hd
  have hpg := h.guest g hg
  have hdl := lt_of_parent hpd
  have hbound := disk_bounds h hg hd
  -- the node alone
  have hsame : SameFigures t (detachChildren t d.node) :=
    (DirTree.sameFigures_modifyNode t d.node (f := fun n => { n with children := [] }) fun _ => rfl).trans
      (DirTree.sameFigures_foldl_detach _ _)
  have hat : (goFlat t d.node allocated).node d.node =
      flatNode allocated ((detachChildren t d.node).node d.node) :=
    DirTree.node_modifyNode_self (by rw [hsame.length]; exact hdl) _
  have hoff : ∀ j, j ≠ d.node →
      ((goFlat t d.node allocated).node j).figures = (t.node j).figures := fun j hj => by
    unfold goFlat
    rw [DirTree.node_modifyNode_of_ne hj]
    exact hsame.figures j
  have htotal : ∀ c, totalAt (goFlat t d.node allocated) d.node c =
      sizeAt allocated allocated c := fun c => by
    unfold totalAt
    rw [hat]
    cases c <;> rfl
  have hparent : ∀ j, ((goFlat t d.node allocated).node j).parent = (t.node j).parent := by
    intro j
    by_cases hj : j = d.node
    · rw [hj, hat]
      exact hsame.parent d.node
    · exact congrArg Prod.fst (hoff j hj)
  have hne : ∀ j, j = 0 ∨ j = g.node → j ≠ d.node := by
    rintro j (rfl | rfl) hj
    · rw [← hj, h.root] at hpd
      cases hpd
    · have := h.down _ _ hpd
      omega
  have hmoving : Moving t (goFlat t d.node allocated) g.node d.node d.node
      (movedBy found t d allocated) fun _ => 0 := by
    refine ⟨?_, .inl rfl, (hparent _).trans hpd, fun c => ?_, fun j _ hj _ _ => hoff j hj, fun j hj => ?_, fun j hj c => ?_⟩
    · rw [show DirTree.parentOf _ = t.parentOf from funext hparent]
      exact h.down
    · rw [htotal, hby]
      omega
    · have := hoff j (hne j hj)
      simp only [DirNode.figures, Prod.mk.injEq] at this ⊢
      tauto
    · rw [show (DirTree.node _ j).sub = (t.node j).sub from congrArg (fun s => s.2.2.2.2) (hoff j (hne j hj))]
      omega
  -- what is carried up
  have hset : setAllocated t d allocated =
      ⟨(goFlat t d.node allocated).propagate g.node
          (flatDelta (t.node d.node) allocated),
        { d with allocated := some allocated, estimated := none, walked := false, unaccounted := allocated },
        flatDelta (t.node d.node) allocated, true⟩ := by
    unfold setAllocated
    dsimp only
    rw [if_pos ⟨hf.1, by rw [hfiles]; exact hf.2⟩, hparent, hpd]
  have hdelta : ∀ c, (flatDelta (t.node d.node) allocated).get c = movedBy found t d allocated c := by
    intro c
    unfold flatDelta
    have h1 := hbound c
    have h2 := hfit c
    rw [hby] at h2 ⊢
    have h3 : totalAt t d.node c = (t.node d.node).sub.get c + sizeAt (t.node d.node).ownBlocks (t.node d.node).ownApparent c :=
      rfl
    have hown : (sizeDelta (t.node d.node).ownBlocks (t.node d.node).ownApparent).get c =
        sizeAt (t.node d.node).ownBlocks (t.node d.node).ownApparent c := get_sizeDelta (by omega)
    have hneg := Delta.get_negate_eq (d := sizeDelta (t.node d.node).ownBlocks (t.node d.node).ownApparent) (c := c)
      (by rw [hown]; omega) (by rw [hown]; omega)
    have hflat := get_flat allocated c
    have hbetween : (Delta.between (t.node d.node).sub { blocks := allocated, apparent := allocated }).get c =
        (({ blocks := allocated, apparent := allocated } : Tally).get c : Int) - (t.node d.node).sub.get c :=
      Delta.get_between_eq (by omega) (by rw [hflat]; omega)
    rw [Delta.get_plus_eq] <;> rw [hbetween, hneg, hown, hflat] <;> omega
  have hcarried := @propagate_carried _ _ (flatDelta (t.node d.node) allocated) hmoving.down
    ((hparent 0).trans h.root) ((hparent g.node).trans hpg) fun j hj c => by
      have h1 := hbound c
      have h2 := hfit c
      have h3 := hmoving.sub j hj c
      rw [hdelta, h3, hby] at *
      rcases hj with rfl | rfl <;> omega
  have hnew : ¬(d.node = 0 ∨ d.node = g.node) := fun he => hne d.node he rfl
  have hmoved := hmoving.carried hcarried hnew
  simp only [hdelta, zero_add] at hmoved
  have hd' := hcarried.off d.node hnew
  simp only [DirNode.figures, Prod.mk.injEq] at hd'
  obtain ⟨-, hb', ha', -, hs'⟩ := hd'
  rw [hat] at hb' ha' hs'
  have htotal' : totalAt ((goFlat t d.node allocated).propagate g.node (flatDelta (t.node d.node) allocated)) d.node .blocks =
      allocated := (totalAt_congr (hcarried.off d.node hnew) .blocks).trans (htotal .blocks)
  rw [hset]
  refine ⟨⟨hmoved, fun c => ?_⟩, ⟨?_, htotal', ?_, ?_, fun _ => ⟨hb', ha'⟩⟩, rfl, hdelta⟩
  · have h1 := hmoved.sub 0 (.inl rfl) c
    have h2 := hfit c
    dsimp only
    omega
  · rintro _ ⟨⟩
    exact htotal'
  · exact Nat.le_of_eq (congrArg Tally.blocks hs').symm
  · exact Nat.le_of_eq (congrArg Tally.apparent hs').symm

/-- What a change of a disk's unaccounted blocks does. -/
structure Shifted (t u : DirTree) (guest disk : Nat) (by_ : Component → Int) : Prop where
  node : ∀ j, (u.node j).figures = { t.node j with direct := (u.node j).direct, sub := (u.node j).sub }.figures
  direct : ∀ j, j ≠ disk → (u.node j).direct = (t.node j).direct
  at_ : ∀ j, j = 0 ∨ j = guest ∨ j = disk → ∀ c, ((u.node j).sub.get c : Int) = (t.node j).sub.get c + by_ c
  off : ∀ j, ¬(j = 0 ∨ j = guest ∨ j = disk) → (u.node j).sub = (t.node j).sub

omit hh in
theorem propagate_shifted {delta : Delta} (hfit : ∀ j, j = 0 ∨ j = g.node ∨ j = d.node → ∀ c,
    0 ≤ ((t.node j).sub.get c : Int) + delta.get c ∧ ((t.node j).sub.get c : Int) + delta.get c < 2 ^ 64) :
    Shifted t ((t.applyDirect d.node delta).propagate d.node delta) g.node d.node delta.get := by
  have hpd := h.disk g hg d hd
  have hshape := DirTree.sameShape_applyDirect t d.node delta
  have hnode : ∀ j, ((t.applyDirect d.node delta).node j).figures =
      { t.node j with direct := ((t.applyDirect d.node delta).node j).direct }.figures := fun j => by
    rw [DirTree.node_applyDirect]
    split <;> rfl
  have hsub : ∀ j, ((t.applyDirect d.node delta).node j).sub = (t.node j).sub := fun j =>
    congrArg (fun s => s.2.2.2.2) (hnode j)
  have habove : ∀ j, Above (t.applyDirect d.node delta).parentOf j d.node ↔ j = 0 ∨ j = g.node ∨ j = d.node := fun j => by
    rw [hshape.parentOf, above_of_parent hpd, above_of_parent (h.guest g hg), above_root h.root]
    tauto
  have hp := DirTree.propagate_spec (t := t.applyDirect d.node delta) (d := delta) (i := d.node)
    (by rw [hshape.parentOf]; exact h.down) (by rw [hshape.length]; exact lt_of_parent hpd) fun j hj c => by
      rw [hsub]
      exact hfit j ((habove j).1 hj) c
  constructor
  · intro j
    have := hnode j
    simp only [DirNode.figures, Prod.mk.injEq] at this ⊢
    rw [hp.node j]
    tauto
  · intro j hj
    rw [hp.node j, DirTree.node_applyDirect, if_neg fun h => hj h.1]
  · intro j hj c
    rw [hp.at_ j c ((habove j).2 hj), hsub]
  · intro j hj
    rw [hp.off j (mt (habove j).1 hj), hsub]

/-- Only the part no file accounts for moves. -/
theorem setAllocated_plain (hf : ¬(d.walked = true ∧ allocated < found d.node))
    (hfit : ∀ c, ((t.node 0).sub.get c : Int) + movedBy found t d allocated c < 2 ^ 63) :
    Moved t (setAllocated t d allocated).tree g.node d.node d.node (movedBy found t d allocated) ∧
      Held found (setAllocated t d allocated).tree (setAllocated t d allocated).disk ∧
      (setAllocated t d allocated).disk.node = d.node ∧
      ∀ c, (setAllocated t d allocated).delta.get c = movedBy found t d allocated c := by
  have hfiles := files_eq h hg hd hh
  have hby : ∀ c, movedBy found t d allocated c = sizeAt 1 1 c * ((allocated : Int) - totalAt t d.node .blocks) :=
    fun c => if_neg hf
  have hpd := h.disk g hg d hd
  have hbound := disk_bounds h hg hd
  have htotal := hh.total
  have hfitb := hfit .blocks
  rw [hby] at hfitb
  have hb := hbound .blocks
  simp only [sizeAt] at hfitb
  -- the unaccounted part before and after
  obtain ⟨unaccounted, hun⟩ : ∃ n, n = if d.walked = true then allocated - (if d.walked = true then found d.node else 0)
    else allocated := ⟨_, rfl⟩
  have hafter : unaccounted + (if d.walked = true then found d.node else 0) = allocated := by
    rw [hun]
    by_cases hw : d.walked = true
    · rw [if_pos hw, if_pos hw]
      have := Nat.not_lt.1 fun hl => hf ⟨hw, hl⟩
      omega
    · rw [if_neg hw, if_neg hw, Nat.add_zero]
  have hchange : wrapI64 (wrapI64 unaccounted - wrapI64 d.unaccounted) = (allocated : Int) - totalAt t d.node .blocks := by
    rw [wrapI64_eq (x := unaccounted), wrapI64_eq (x := d.unaccounted), wrapI64_eq] <;> omega
  obtain ⟨change, hch⟩ : ∃ x : Int, x = (allocated : Int) - totalAt t d.node .blocks := ⟨_, rfl⟩
  have hdelta : ∀ c, (Delta.size change change).get c = movedBy found t d allocated c := fun c => by
    rw [get_size_of, hby, ← hch]
    cases c <;> simp [sizeAt]
  have hset : setAllocated t d allocated =
      ⟨if change ≠ 0 then (t.applyDirect d.node (Delta.size change change)).propagate d.node (Delta.size change change) else t,
        { d with allocated := some allocated, estimated := none, unaccounted := unaccounted }, Delta.size change change, false⟩ := by
    unfold setAllocated
    dsimp only
    have hn : ¬(d.walked = true ∧ allocated < if d.walked = true then found d.node else 0) := by
      rintro ⟨hw, hl⟩
      rw [if_pos hw] at hl
      exact hf ⟨hw, hl⟩
    rw [hfiles, if_neg hn, ← hun, hchange, ← hch]
  have hshift : Shifted t (if change ≠ 0 then
      (t.applyDirect d.node (Delta.size change change)).propagate d.node (Delta.size change change) else t)
      g.node d.node (movedBy found t d allocated) := by
    by_cases h0 : change = 0
    · rw [if_neg (not_not.2 h0)]
      refine ⟨fun _ => rfl, fun _ _ => rfl, fun j _ c => ?_, fun _ _ => rfl⟩
      rw [hby, ← hch, h0]
      omega
    · rw [if_pos h0, show movedBy found t d allocated = (Delta.size change change).get from funext fun c => (hdelta c).symm]
      refine propagate_shifted h hg hd fun j hj c => ?_
      have h1 := hbound c
      have h2 := hfit c
      have h3 : (t.node d.node).sub.get c ≤ totalAt t d.node c := Nat.le_add_right _ _
      -- what goes was unaccounted
      have h4 : 0 ≤ ((t.node d.node).sub.get c : Int) + movedBy found t d allocated c := by
        have hblocks := hh.blocks
        have happarent := hh.apparent
        rw [hby]
        cases c <;> simp only [Tally.get, sizeAt] <;> omega
      rw [hdelta]
      rcases hj with rfl | rfl | rfl <;> omega
  have hne : ∀ j, j = 0 ∨ j = g.node → j ≠ d.node := by
    rintro j (rfl | rfl) hj
    · rw [← hj, h.root] at hpd
      cases hpd
    · have := h.down _ _ hpd
      omega
  generalize hu : (if change ≠ 0 then
    (t.applyDirect d.node (Delta.size change change)).propagate d.node (Delta.size change change) else t) = u at hset hshift
  have htotal' : ∀ c, (totalAt u d.node c : Int) = totalAt t d.node c + movedBy found t d allocated c := fun c => by
    have h1 := hshift.at_ d.node (.inr (.inr rfl)) c
    have h2 := hshift.node d.node
    simp only [DirNode.figures, Prod.mk.injEq] at h2
    unfold totalAt
    rw [h2.2.1, h2.2.2.1]
    omega
  have hself := hshift.node d.node
  simp only [DirNode.figures, Prod.mk.injEq] at hself
  rw [hset]
  refine ⟨⟨⟨?_, .inl rfl, hself.1.trans hpd, htotal', fun j _ hjd hjg hj0 => ?_, fun j hj => ?_, fun j hj => ?_⟩, fun c => ?_⟩,
    ⟨?_, ?_, ?_, ?_, fun hw => ?_⟩, rfl, hdelta⟩
  · rw [show DirTree.parentOf u = t.parentOf from funext fun j => congrArg Prod.fst (hshift.node j)]
    exact h.down
  · have := hshift.node j
    rw [hshift.direct j hjd, hshift.off j (by rintro (he | he | he); exacts [hj0 he, hjg he, hjd he])] at this
    exact this
  · have := hshift.node j
    rw [hshift.direct j (hne j hj)] at this
    exact this
  · exact hshift.at_ j (hj.imp_right .inl)
  · have h1 := hshift.at_ 0 (.inl rfl) c
    have h2 := hfit c
    dsimp only
    omega
  · rintro _ ⟨⟩
    have := htotal' .blocks
    rw [hby] at this
    simp only [sizeAt] at this
    dsimp only
    omega
  · have := htotal' .blocks
    rw [hby] at this
    simp only [sizeAt] at this
    dsimp only
    omega
  · have h1 := hshift.at_ d.node (.inr (.inr rfl)) .blocks
    have h2 := hh.blocks
    rw [hby] at h1
    simp only [sizeAt, Tally.get] at h1
    dsimp only
    omega
  · have h1 := hshift.at_ d.node (.inr (.inr rfl)) .apparent
    have h2 := hh.apparent
    rw [hby] at h1
    simp only [sizeAt, Tally.get] at h1
    dsimp only
    omega
  · rw [hself.2.1, hself.2.2.1]
    exact hh.plain hw

/-- Moving a disk to an allocation. -/
theorem setAllocated_moved (hfit : ∀ c, ((t.node 0).sub.get c : Int) + movedBy found t d allocated c < 2 ^ 63) :
    Moved t (setAllocated t d allocated).tree g.node d.node d.node (movedBy found t d allocated) ∧
      Held found (setAllocated t d allocated).tree (setAllocated t d allocated).disk ∧
      (setAllocated t d allocated).disk.node = d.node ∧
      ∀ c, (setAllocated t d allocated).delta.get c = movedBy found t d allocated c := by
  by_cases hf : d.walked = true ∧ allocated < found d.node
  · exact setAllocated_flat h hg hd hh hf hfit
  · exact setAllocated_plain h hg hd hh hf hfit

end SetAllocated

/-! ## Grafting a walk -/

/-- A walked tree: its root has no parent, and parents come before their children. -/
structure WalkedTree (walked : DirTree) : Prop where
  pos : 0 < walked.nodes.length
  root : (walked.node 0).parent = none
  down : Down walked.parentOf

/-- The allocated blocks no file of the walk accounts for. -/
def remainder (d : Disk) (walked : DirTree) : Nat := d.allocated.getD 0 - (walked.node 0).totalBlocks

/-- The change of the disk's total when the walk takes its place, in unbounded integers. -/
def graftedBy (t : DirTree) (d : Disk) (walked : DirTree) (c : Component) : Int :=
  (totalAt walked 0 c : Int) + sizeAt (remainder d walked) (remainder d walked) c - totalAt t d.node c

theorem node_asDisk {walked : DirTree} (hw : WalkedTree walked) (key : Bytes) (rest : Nat) :
    (asDisk walked key rest).node 0 = { walked.node 0 with
      name := key
      direct := (walked.node 0).direct.addSize rest rest
      sub := (walked.node 0).sub.addSize rest rest } := DirTree.node_modifyNode_self hw.pos _

theorem parentOf_asDisk (walked : DirTree) (key : Bytes) (rest : Nat) :
    (asDisk walked key rest).parentOf = walked.parentOf := by
  funext j
  unfold DirTree.parentOf asDisk
  rw [DirTree.node_modifyNode]
  split <;> rfl

section GraftWalk

variable {found : Nat → Nat} {walked : DirTree} (h : Sums t guests) (hg : g ∈ guests) (hd : d ∈ g.disks) (hh : Held found t d)
include h hg hd hh

theorem allocated_lt : d.allocated.getD 0 < 2 ^ 63 := by
  have hb := disk_bounds h hg hd .blocks
  cases ha : d.allocated with
  | none => exact Nat.two_pow_pos 63
  | some a =>
    have := hh.allocated a ha
    show a < 2 ^ 63
    omega

/-- A walk that is used takes the disk's place. -/
theorem graftWalk_moved (hplain : d.walked = false) (hw : WalkedTree walked)
    (hused : (walked.node 0).totalBlocks ≤ d.allocated.getD 0)
    (hfit : ∀ c, ((t.node 0).sub.get c : Int) + graftedBy t d walked c < 2 ^ 63) :
    (graftWalk t d walked).2.2 = true ∧ (graftWalk t d walked).2.1.node = t.nodes.length ∧
      Moved t (graftWalk t d walked).1 g.node d.node t.nodes.length (graftedBy t d walked) ∧
      Held (Function.update found t.nodes.length (walked.node 0).totalBlocks) (graftWalk t d walked).1
        (graftWalk t d walked).2.1 := by
  have hpd := h.disk g hg d hd
  have hpg := h.guest g hg
  have hbound := disk_bounds h hg hd
  have halloc := allocated_lt h hg hd hh
  have hdisk : ∀ c, totalAt t d.node c = (t.node d.node).sub.get c := fun c => by
    obtain ⟨hb, ha⟩ := hh.plain hplain
    unfold totalAt
    rw [hb, ha]
    cases c <;> rfl
  have hwalked : (walked.node 0).totalBlocks = totalAt walked 0 .blocks := by
    have := hused
    unfold DirNode.totalBlocks saturatingAdd u64Max at this ⊢
    unfold totalAt
    simp only [Tally.get, sizeAt]
    omega
  obtain ⟨rest, hrest⟩ : ∃ n, n = remainder d walked := ⟨_, rfl⟩
  have hby : ∀ c, graftedBy t d walked c = (totalAt walked 0 c : Int) + sizeAt rest rest c - (t.node d.node).sub.get c :=
    fun c => by rw [graftedBy, ← hrest, hdisk]
  -- the disk's node goes
  obtain ⟨gone, hgone⟩ : ∃ x, x = (Delta.ofTally (t.node d.node).sub).negate := ⟨_, rfl⟩
  have hgoneAt : ∀ c, gone.get c = -((t.node d.node).sub.get c : Int) := fun c => by
    have h1 := hbound c
    have h2 := Delta.get_ofTally (t := (t.node d.node).sub) (c := c) (by rw [← hdisk]; omega)
    rw [hdisk] at h1
    rw [hgone, Delta.get_negate_eq] <;> rw [h2] <;> omega
  have hdet := DirTree.sameFigures_detach t d.node
  have hleave := @propagate_carried (t.detach d.node).1 g.node gone
    (by rw [hdet.parentOf]; exact h.down) ((hdet.parent 0).trans h.root) ((hdet.parent g.node).trans hpg) fun j hj c => by
      have h1 := hbound c
      rw [hdisk] at h1
      rw [hgoneAt, hdet.sub]
      rcases hj with rfl | rfl <;> omega
  obtain ⟨v, hv⟩ : ∃ v, v = (t.detach d.node).1.propagate g.node gone := ⟨_, rfl⟩
  rw [← hv] at hleave
  have hvlen : v.nodes.length = t.nodes.length := by
    rw [hv, (DirTree.sameShape_propagate _ _ _).length]
    exact hdet.length
  -- the walk comes
  obtain ⟨w, hwe⟩ : ∃ w, w = asDisk walked d.key rest := ⟨_, rfl⟩
  have hw0 := node_asDisk hw d.key rest
  have hwdown : Down w.parentOf := by
    rw [hwe, parentOf_asDisk]
    exact hw.down
  have hwpos : 0 < w.nodes.length := by
    rw [hwe, asDisk, DirTree.length_modifyNode]
    exact hw.pos
  have hsmall : ∀ c, totalAt walked 0 c + sizeAt rest rest c < 2 ^ 63 := fun c => by
    have h1 := hfit c
    have h2 := hbound c
    rw [hby] at h1
    rw [hdisk] at h2
    omega
  have hwsub : ∀ c, (w.node 0).sub.get c = (walked.node 0).sub.get c + sizeAt rest rest c := fun c => by
    have h1 := hsmall c
    have h2 : (walked.node 0).sub.get c ≤ totalAt walked 0 c := Nat.le_add_right _ _
    rw [hwe, hw0]
    exact Tally.get_addSize (by omega)
  have hwown : (w.node 0).ownBlocks = (walked.node 0).ownBlocks ∧ (w.node 0).ownApparent = (walked.node 0).ownApparent ∧
      (w.node 0).parent = none := by
    rw [hwe, hw0]
    exact ⟨rfl, rfl, hw.root⟩
  have hnewf := @DirTree.figures_graft_new v w g.node _ hwpos
  rw [Nat.add_zero, hvlen] at hnewf
  simp only [DirTree.graftNode, DirNode.figures, hwown.2.2, Prod.mk.injEq] at hnewf
  obtain ⟨hnp, hnb, hna, -, hns⟩ := hnewf
  have htotal : ∀ c, totalAt (v.graft g.node w).1 t.nodes.length c = totalAt walked 0 c + sizeAt rest rest c := fun c => by
    unfold totalAt
    rw [hns, hnb, hna, hwsub, hwown.1, hwown.2.1]
    omega
  have hold : ∀ j < t.nodes.length, ((v.graft g.node w).1.node j).figures = (v.node j).figures := fun j hj =>
    DirTree.figures_graft_old (by rw [hvlen]; exact hj)
  have hin : ∀ j, j = 0 ∨ j = g.node → j < t.nodes.length := by
    rintro j (rfl | rfl)
    · exact Nat.lt_of_le_of_lt (Nat.zero_le _) (lt_of_parent hpd)
    · exact lt_of_parent hpg
  have hcomes : Moving t (v.graft g.node w).1 g.node d.node t.nodes.length (graftedBy t d walked) gone.get := by
    refine ⟨DirTree.down_graft (hleave.down (by rw [hdet.parentOf]; exact h.down)) hwdown (by rw [hvlen]; exact lt_of_parent hpg),
      .inr (Nat.le_refl _), hnp, fun c => ?_, fun j hj hjd hjg hj0 => ?_, fun j hj => ?_, fun j hj c => ?_⟩
    · rw [htotal, hby, hdisk]
      omega
    · rw [hold j hj, hleave.off j (by rintro (he | he); exacts [hj0 he, hjg he])]
      exact hdet.figures j
    · have h1 := hold j (hin j hj)
      have h2 := hleave.node j
      have h3 := hdet.figures j
      simp only [DirNode.figures, Prod.mk.injEq] at h1 h2 h3 ⊢
      rw [h1.1, h1.2.1, h1.2.2.1, h1.2.2.2.1, h2.1, h2.2.1, h2.2.2.1, h2.2.2.2.1]
      exact ⟨h3.1, h3.2.1, h3.2.2.1, h3.2.2.2.1, trivial⟩
    · rw [show ((v.graft g.node w).1.node j).sub = (v.node j).sub from congrArg (fun s => s.2.2.2.2) (hold j (hin j hj)),
        hleave.at_ j hj c, hdet.sub]
  -- what it adds
  obtain ⟨added, hadded⟩ : ∃ x, x = (Delta.ofTally (w.node 0).sub).plus (sizeDelta (w.node 0).ownBlocks (w.node 0).ownApparent) :=
    ⟨_, rfl⟩
  have haddedAt : ∀ c, added.get c = (totalAt walked 0 c : Int) + sizeAt rest rest c := fun c => by
    have h1 := hsmall c
    have h2 := hwsub c
    have h3 : totalAt walked 0 c = (walked.node 0).sub.get c + sizeAt (walked.node 0).ownBlocks (walked.node 0).ownApparent c :=
      rfl
    have h4 := Delta.get_ofTally (t := (w.node 0).sub) (c := c) (by omega)
    have h5 : (sizeDelta (w.node 0).ownBlocks (w.node 0).ownApparent).get c =
        sizeAt (w.node 0).ownBlocks (w.node 0).ownApparent c := get_sizeDelta (by rw [hwown.1, hwown.2.1]; omega)
    rw [hwown.1, hwown.2.1] at h5
    rw [hadded, hwown.1, hwown.2.1, Delta.get_plus_eq] <;> rw [h4, h5] <;> omega
  have hg0 : g.node ≠ t.nodes.length := Nat.ne_of_lt (lt_of_parent hpg)
  have hcarried := @propagate_carried _ _ added hcomes.down ((congrArg Prod.fst (hcomes.on 0 (.inl rfl))).trans h.root)
    ((congrArg Prod.fst (hcomes.on g.node (.inr rfl))).trans hpg) fun j hj c => by
      have h1 := hbound c
      have h2 := hfit c
      have h3 := hcomes.sub j hj c
      rw [hdisk] at h1
      rw [hby] at h2
      rw [haddedAt, h3, hgoneAt]
      rcases hj with rfl | rfl <;> omega
  have hnew : ¬(t.nodes.length = 0 ∨ t.nodes.length = g.node) := by
    rintro (he | he)
    · exact absurd (lt_of_parent hpg) (by omega)
    · exact hg0 he.symm
  have hmoved := hcomes.carried hcarried hnew
  rw [show (fun c => gone.get c + added.get c) = graftedBy t d walked from funext fun c => by
    rw [hgoneAt, haddedAt, hby]
    omega] at hmoved
  have hset : graftWalk t d walked = ((v.graft g.node w).1.propagate g.node added,
      { d with node := t.nodes.length, walked := true, unaccounted := rest }, true) := by
    unfold graftWalk
    dsimp only
    rw [if_neg (Nat.not_lt.2 hused), hpd]
    dsimp only
    rw [← hgone, ← hv, show d.allocated.getD 0 - (walked.node 0).totalBlocks = rest from hrest.symm, ← hwe, ← hadded,
      show (v.graft g.node w).2 = t.nodes.length from hvlen]
  have hfinal := fun c => (totalAt_congr (hcarried.off _ hnew) c).trans (htotal c)
  have hself := hcarried.off _ hnew
  simp only [DirNode.figures, Prod.mk.injEq] at hself
  have hrestEq : rest = d.allocated.getD 0 - (walked.node 0).totalBlocks := hrest
  rw [hset]
  refine ⟨rfl, rfl, ⟨hmoved, fun c => ?_⟩, ⟨?_, ?_, ?_, ?_, fun hf => absurd hf (by simp)⟩⟩
  · have h1 := hmoved.sub 0 (.inl rfl) c
    have h2 := hfit c
    dsimp only
    omega
  · intro a ha
    have h1 := hfinal .blocks
    have ha : d.allocated = some a := ha
    rw [ha] at hrestEq hused
    simp only [sizeAt, Option.getD_some] at h1 hrestEq hused
    dsimp only
    omega
  · have h1 := hfinal .blocks
    simp only [sizeAt] at h1
    dsimp only
    rw [if_pos rfl, Function.update_self]
    omega
  · have h1 := hwsub .blocks
    simp only [sizeAt, Tally.get] at h1
    dsimp only
    rw [hself.2.2.2.2, hns]
    omega
  · have h1 := hwsub .apparent
    simp only [sizeAt, Tally.get] at h1
    dsimp only
    rw [hself.2.2.2.2, hns]
    omega

end GraftWalk

/-- A walk that found more than the disk holds is not used. -/
theorem graftWalk_unused {walked : DirTree} (h : ¬(walked.node 0).totalBlocks ≤ d.allocated.getD 0) :
    graftWalk t d walked = (t, d, false) := by
  unfold graftWalk
  exact if_pos (Nat.not_le.1 h)

end StorageHarvester.Lvm
