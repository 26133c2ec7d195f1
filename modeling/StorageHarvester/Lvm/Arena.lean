/-
The arena of every tree there is: one a scan or a pool's build makes, and what re-reads, grafts, walks of
containers and new allocations make of it. Its directories stay listed by name below their parents, and
what is cut off is dead, so that a displayed path leads back to its directory.
-/
import StorageHarvester.Live.Owners
import StorageHarvester.Lvm.Times

namespace StorageHarvester

open Forest

/-- A well-shaped tree with proper names. -/
structure Shaped (t : DirTree) : Prop where
  shape : Shape t
  names : t.ProperNames

namespace Shaped

variable {t u : DirTree}

theorem congr (h : Shaped t) (hs : SameShape t u) : Shaped u := by
  refine ⟨h.shape.congr hs, fun i hi hpos => ?_⟩
  rw [hs.alive] at hi
  rw [hs.name]
  exact h.names i hi hpos

theorem detach (h : Shaped t) {child p : Nat} (hc : (t.node child).alive = true) (hp : (t.node child).parent = some p) :
    Shaped (t.detach child).1 := by
  refine ⟨h.shape.detach hc hp, fun i hi hpos => ?_⟩
  have hold := ((h.shape.alive_detach hc hp i).1 hi).1
  rw [h.shape.node_detach hc hp]
  exact h.names i hold hpos

theorem renamed (h : Shaped t) (name : Bytes) : Shaped (t.renameRoot name) := by
  refine ⟨h.shape.renameRoot name, fun i hi hpos => ?_⟩
  rw [t.node_renameRoot] at hi
  rw [t.name_renameRoot name (by omega)]
  exact h.names i hi hpos

/-- A grafted tree's root goes by a name that is not there yet. -/
theorem graft (h : Shaped t) {other : DirTree} (ho : Shaped other) {under : Nat} (hu : (t.node under).alive = true)
    (hproper : ProperName (other.node 0).name)
    (hfresh : ∀ c ∈ (t.node under).children, (t.node c).name ≠ (other.node 0).name) : Shaped (t.graft under other).1 := by
  have g := h.shape.graft_spec hu ho.shape.pos hfresh
  refine ⟨g.shape h.shape ho.shape hu, fun i hi hpos => ?_⟩
  rcases g.cases (DirTree.lt_of_alive hi) with hil | ⟨k, hk, rfl⟩
  · rw [g.name_old hil]
    exact h.names i ((g.alive_old hil).symm.trans hi) hpos
  · rw [g.name_new hk]
    rcases Nat.eq_zero_or_pos k with rfl | hk0
    · exact hproper
    · exact ho.names k ((g.alive_new hk).symm.trans hi) hk0

/-- A child's name is no other child's. -/
theorem fresh_detach (h : Shaped t) {child p : Nat} (hc : (t.node child).alive = true) (hp : (t.node child).parent = some p) :
    ∀ c ∈ ((t.detach child).1.node p).children, ((t.detach child).1.node c).name ≠ (t.node child).name := by
  intro c hm he
  obtain ⟨hpa, hlisted⟩ := h.shape.listed child p hc hp
  rw [h.shape.children_detach hc hp, if_pos rfl, List.mem_filter, decide_eq_true_eq] at hm
  rw [h.shape.node_detach hc hp] at he
  exact hm.2 (h.shape.name_inj hpa hm.1 hlisted he)

end Shaped

namespace Lvm

section Disks

variable {t : DirTree}

/-- A container's walked tree in place of its disk's node. -/
theorem shaped_graftWalk (h : Shaped t) {disk : Disk} {walked : DirTree} (hw : Shaped walked)
    (ha : (t.node disk.node).alive = true) (hn : (t.node disk.node).name = disk.key) (hk : ProperName disk.key) :
    Shaped (graftWalk t disk walked).1 := by
  unfold graftWalk
  dsimp only
  split
  · exact h
  · cases hp : (t.node disk.node).parent with
    | none => exact h
    | some guest =>
      dsimp only
      have hcut := h.detach ha hp
      have hguest : ((t.detach disk.node).1.node guest).alive = true := by
        refine (h.shape.alive_detach ha hp guest).2 ⟨(h.shape.listed disk.node guest ha hp).1, fun habove => ?_⟩
        have := habove.le h.shape.down
        have := h.shape.down disk.node guest hp
        omega
      have hfresh := h.fresh_detach ha hp
      have hgone := DirTree.sameShape_propagate (t.detach disk.node).1 guest (Delta.ofTally (t.node disk.node).sub).negate
      generalize (t.detach disk.node).1.propagate guest (Delta.ofTally (t.node disk.node).sub).negate = t₁ at hgone
      have hsame : SameShape (walked.renameRoot disk.key)
          (asDisk walked disk.key (disk.allocated.getD 0 - (walked.node 0).totalBlocks)) := by
        unfold DirTree.renameRoot asDisk
        refine ⟨by simp, fun i => ?_⟩
        rw [DirTree.node_modifyNode, DirTree.node_modifyNode]
        split <;> rfl
      have hnamed := (hw.renamed disk.key).congr hsame
      have hroot : ((asDisk walked disk.key (disk.allocated.getD 0 - (walked.node 0).totalBlocks)).node 0).name = disk.key := by
        unfold asDisk
        rw [DirTree.node_modifyNode_self hw.shape.pos]
      refine ((hcut.congr hgone).graft hnamed (by rw [hgone.alive]; exact hguest) (by rw [hroot]; exact hk) fun c hc => ?_).congr
        (DirTree.sameShape_propagate _ guest _)
      rw [hgone.children] at hc
      rw [hgone.name, hroot, ← hn]
      exact hfresh c hc

/-- Two trees of one shape, but for the children of `node`, which the second does not list. -/
structure Cut (node : Nat) (t u : DirTree) : Prop where
  length : u.nodes.length = t.nodes.length
  shape : ∀ j, (u.node j).shape = { t.node j with children := if j = node then [] else (t.node j).children }.shape

theorem Cut.detach {u : DirTree} {node child : Nat} (h : Cut node t u) (ht : Shape t) (hc : (t.node child).alive = true)
    (hp : (t.node child).parent = some node) : Cut node (t.detach child).1 (u.detach child).1 := by
  have hlt := ht.down child node hp
  have hparent : ∀ j, (u.node j).parent = (t.node j).parent := fun j => congrArg (fun s => s.2.1) (h.shape j)
  have hkids : ∀ j, (u.node j).children = if j = node then [] else (t.node j).children := fun j =>
    congrArg (fun s => s.2.2.2.1) (h.shape j)
  have halive : ∀ j, (u.node j).alive = (t.node j).alive := fun j => congrArg (fun s => s.2.2.2.2) (h.shape j)
  refine ⟨by rw [DirTree.length_detach, DirTree.length_detach, h.length], fun j => ?_⟩
  rw [ht.node_detach hc hp, ht.node_detach_of hc h.length ((hparent child).trans hp) hlt halive fun i hi => ?_]
  · have hj := h.shape j
    simp only [DirNode.shape, Prod.mk.injEq] at hj ⊢
    obtain ⟨h1, h2, h3, h4, h5⟩ := hj
    refine ⟨h1, h2, h3, ?_, by rw [h5]⟩
    rw [h4]
    split <;> rfl
  · rw [hkids, if_neg (by omega)]

/-- A node whose children are cut off one by one ends up alone. -/
theorem shaped_detachChildren (h : Shaped t) {node : Nat} (ha : (t.node node).alive = true) : Shaped (detachChildren t node) := by
  have hfold : ∀ (children : List Nat) (t u : DirTree), Shaped t → (t.node node).alive = true → (t.node node).children = children →
      Cut node t u → Shaped (children.foldl (fun u child => (u.detach child).1) u) := by
    intro children
    induction children with
    | nil =>
      intro t u h ha hkids hcut
      refine h.congr ⟨hcut.length, fun j => ?_⟩
      refine (hcut.shape j).trans ?_
      by_cases hj : j = node
      · rw [hj, if_pos rfl, ← hkids]
      · rw [if_neg hj]
    | cons c rest ih =>
      intro t u h ha hkids hcut
      obtain ⟨hca, hcp⟩ := h.shape.child node ha c (by rw [hkids]; exact List.mem_cons_self)
      have hlt := h.shape.down c node hcp
      have hnotmem : c ∉ rest := (List.nodup_cons.1 (hkids ▸ h.shape.nodup ha)).1
      rw [List.foldl_cons]
      refine ih _ _ (h.detach hca hcp) ?_ ?_ (hcut.detach h.shape hca hcp)
      · refine (h.shape.alive_detach hca hcp node).2 ⟨ha, fun habove => ?_⟩
        have := habove.le h.shape.down
        omega
      · rw [h.shape.children_detach hca hcp, if_pos rfl, hkids, List.filter_cons_of_neg (by simp), List.filter_eq_self]
        intro x hx
        rw [decide_eq_true_eq]
        rintro rfl
        exact hnotmem hx
  refine hfold _ t _ h ha rfl ⟨by simp, fun j => ?_⟩
  rw [DirTree.node_modifyNode]
  by_cases hj : j = node
  · rw [if_pos ⟨hj, DirTree.lt_of_alive (hj ▸ ha)⟩, if_pos hj]
  · rw [if_neg fun hc => hj hc.1, if_neg hj]

theorem shaped_setAllocated (h : Shaped t) {disk : Disk} (ha : (t.node disk.node).alive = true) (allocated : Nat) :
    Shaped (setAllocated t disk allocated).tree := by
  unfold setAllocated
  dsimp only
  split
  · have hflat : Shaped (goFlat t disk.node allocated) :=
      (shaped_detachChildren h ha).congr (DirTree.sameShape_modifyNode _ _ fun _ => rfl)
    cases ((goFlat t disk.node allocated).node disk.node).parent with
    | none => exact hflat
    | some p => exact hflat.congr (DirTree.sameShape_propagate _ _ _)
  · generalize wrapI64 (wrapI64 ((if disk.walked = true then allocated - ((t.node disk.node).totalBlocks - disk.unaccounted)
      else allocated : Nat) : Int) - wrapI64 (disk.unaccounted : Int)) = change
    by_cases hz : change ≠ 0
    · rw [if_pos hz]
      exact h.congr ((DirTree.sameShape_applyDirect t _ _).trans (DirTree.sameShape_propagate _ _ _))
    · rw [if_neg hz]
      exact h

end Disks

/-! ## A build -/

section Build

variable {gs : List Guest} {i : Nat}

/-- Every node but the pool's is a guest's or a disk's. -/
theorem start_cases (h0 : 0 < i) (hl : i < (startNodes (placeGuests 1 gs)).length) :
    (∃ g ∈ placeGuests 1 gs, i = g.node ∧ (startNodes (placeGuests 1 gs)).getD i default = guestNode g) ∨
      ∃ g ∈ placeGuests 1 gs, ∃ d ∈ g.disks, i = d.node ∧ (startNodes (placeGuests 1 gs)).getD i default = diskNode g.node d := by
  obtain ⟨g, hg, he⟩ := List.mem_flatMap.1 (placed_of_lt h0 hl)
  rcases List.mem_cons.1 he with he | he
  · exact .inl ⟨g, hg, congrArg Prod.fst he, congrArg Prod.snd he⟩
  · obtain ⟨d, hd, he⟩ := List.mem_map.1 he
    exact .inr ⟨g, hg, d, hd, (congrArg Prod.fst he).symm, (congrArg Prod.snd he).symm⟩

/-- Guests and disks are told apart by their names. -/
structure Distinct (gs : List Guest) : Prop where
  labels : (gs.map Guest.label).Nodup
  keys : ∀ g ∈ gs, (g.disks.map Disk.key).Nodup

/-- Siblings have different names. -/
theorem start_injective (hd : Distinct (placeGuests 1 gs)) {a b p : Nat}
    (ha : a < (startNodes (placeGuests 1 gs)).length) (hb : b < (startNodes (placeGuests 1 gs)).length)
    (hpa : startParent (startNodes (placeGuests 1 gs)) a = some p) (hpb : startParent (startNodes (placeGuests 1 gs)) b = some p)
    (hn : ((startNodes (placeGuests 1 gs)).getD a default).name = ((startNodes (placeGuests 1 gs)).getD b default).name) : a = b := by
  have hpos : ∀ {i : Nat}, startParent (startNodes (placeGuests 1 gs)) i = some p → 0 < i := by
    intro i hi
    rcases Nat.eq_zero_or_pos i with rfl | h0
    · rw [parent_pool] at hi
      cases hi
    · exact h0
  unfold startParent at hpa hpb
  rcases start_cases (hpos hpa) ha with ⟨g, hg, rfl, he⟩ | ⟨g, hg, d, hdisk, rfl, he⟩ <;>
    rcases start_cases (hpos hpb) hb with ⟨g', hg', rfl, he'⟩ | ⟨g', hg', d', hdisk', rfl, he'⟩ <;>
    rw [he] at hpa hn <;> rw [he'] at hpb hn
  · rw [List.inj_on_of_nodup_map hd.labels hg hg' hn]
  · -- a guest is below the pool, and a disk below a guest
    have h0 := (guest_start hg').2.1
    have hp : g'.node = 0 := Option.some.inj (hpb.trans hpa.symm)
    omega
  · have h0 := (guest_start hg).2.1
    have hp : g.node = 0 := Option.some.inj (hpa.trans hpb.symm)
    omega
  · have hp : some g.node = some g'.node := hpa.trans hpb.symm
    obtain rfl := List.inj_on_of_nodup_map (placed_nodup gs).1 hg hg' (Option.some.inj hp)
    rw [List.inj_on_of_nodup_map (hd.keys g hg) hdisk hdisk' hn]

theorem shape_placed {t : DirTree} (ht : t.nodes = rollNodes (startNodes (placeGuests 1 gs)))
    (hd : Distinct (placeGuests 1 gs)) : Shape t := by
  have hlen : t.nodes.length = (startNodes (placeGuests 1 gs)).length := by
    rw [ht, rollNodes, List.length_map, List.length_zipIdx]
  have hnode : ∀ i < (startNodes (placeGuests 1 gs)).length, t.node i = { (startNodes (placeGuests 1 gs)).getD i default with
      sub := (t.node i).sub, children := startChildren (startNodes (placeGuests 1 gs)) i } := by
    intro i hi
    have h := node_rollNodes hi
    unfold DirTree.node
    rw [ht, h]
  have hparents : t.parentOf = startParent (startNodes (placeGuests 1 gs)) := by
    funext i
    by_cases hi : i < (startNodes (placeGuests 1 gs)).length
    · rw [DirTree.parentOf, hnode i hi]
      rfl
    · rw [DirTree.parentOf, DirTree.node_of_le (by omega), startParent, List.getD_eq_default _ _ (Nat.le_of_not_lt hi)]
  have hparent : ∀ i, (t.node i).parent = startParent (startNodes (placeGuests 1 gs)) i := fun i => congrFun hparents i
  have halive : ∀ i < (startNodes (placeGuests 1 gs)).length, (t.node i).alive = true := by
    intro i hi
    rw [hnode i hi]
    rcases Nat.eq_zero_or_pos i with rfl | h0
    · rw [startNodes_eq]
      rfl
    · rcases start_cases h0 hi with ⟨g, -, -, he⟩ | ⟨g, -, d, -, -, he⟩ <;> rw [he] <;> rfl
  have hpos : 0 < (startNodes (placeGuests 1 gs)).length := by rw [length_startNodes]; omega
  -- children are computed from parents, so both directions come from `startParent`
  have hchildren : ∀ i j, j ∈ (t.node i).children → (t.node j).alive = true ∧ (t.node j).parent = some i := by
    intro i j hj
    by_cases hi : i < (startNodes (placeGuests 1 gs)).length
    · rw [hnode i hi] at hj
      obtain ⟨hjl, hjp⟩ := mem_startChildren.1 hj
      exact ⟨halive j hjl, (hparent j).trans hjp⟩
    · rw [DirTree.node_of_le (by omega)] at hj
      cases hj
  refine ⟨⟨halive 0 hpos, (hparent 0).trans (parent_pool gs)⟩, ?depth_root, hparents ▸ down_start gs, fun i hi hl => ?hasParent,
    fun i p hp => ?depth, fun i _ => hchildren i, fun i p hi hp => ?listed, fun i hi => ?sorted⟩
  case depth_root =>
    rw [hnode 0 hpos, startNodes_eq]
    rfl
  case hasParent =>
    rw [hparent, startParent]
    rcases start_cases hi (hlen ▸ hl) with ⟨g, -, -, he⟩ | ⟨g, -, d, -, -, he⟩ <;> rw [he] <;> exact ⟨_, rfl⟩
  case depth =>
    have hil : i < (startNodes (placeGuests 1 gs)).length := hlen ▸ DirTree.lt_of_parentOf hp
    have h0 : 0 < i := by
      rcases Nat.eq_zero_or_pos i with rfl | h0
      · rw [hparent, parent_pool] at hp
        cases hp
      · exact h0
    rw [hparent, startParent] at hp
    rcases start_cases h0 hil with ⟨g, hg, -, he⟩ | ⟨g, hg, d, hdisk, -, he⟩
    · rw [he] at hp
      cases hp
      rw [hnode i hil, he, hnode 0 hpos, startNodes_eq]
      rfl
    · rw [he] at hp
      cases hp
      obtain ⟨hgs, -, hgl⟩ := guest_start hg
      rw [hnode i hil, he, hnode g.node hgl, hgs]
      rfl
  case listed =>
    have hil : i < (startNodes (placeGuests 1 gs)).length := hlen ▸ DirTree.lt_of_alive hi
    have hp' : startParent (startNodes (placeGuests 1 gs)) i = some p := (hparent i).symm.trans hp
    have hpl : p < (startNodes (placeGuests 1 gs)).length := Nat.lt_trans (down_start gs i p hp') hil
    refine ⟨halive p hpl, ?_⟩
    rw [hnode p hpl]
    exact mem_startChildren.2 ⟨hil, hp'⟩
  case sorted =>
    have hil : i < (startNodes (placeGuests 1 gs)).length := hlen ▸ DirTree.lt_of_alive hi
    -- distinct names under one parent make the sort strict
    have hsorted : (startChildren (startNodes (placeGuests 1 gs)) i).Pairwise fun a b =>
        compare ((startNodes (placeGuests 1 gs)).getD a default).name ((startNodes (placeGuests 1 gs)).getD b default).name = .lt := by
      refine pairwise_lt_insertionSort (fun j => ((startNodes (placeGuests 1 gs)).getD j default).name) ?_
      rw [List.map_reverse, List.nodup_reverse]
      refine List.Nodup.map_on (fun a ha b hb hab => ?_) (List.nodup_range.filter _)
      rw [List.mem_filter, List.mem_range, decide_eq_true_eq] at ha hb
      exact start_injective hd ha.1 hb.1 ha.2 hb.2 hab
    have hname : ∀ j, j ∈ startChildren (startNodes (placeGuests 1 gs)) i →
        (t.node j).name = ((startNodes (placeGuests 1 gs)).getD j default).name := by
      intro j hj
      rw [hnode j (mem_startChildren.1 hj).1]
    rw [hnode i hil]
    refine hsorted.imp_of_mem fun {a b} ha hb hab => ?_
    rw [hname a ha, hname b hb]
    exact hab

/-- Guests and disks have names to be looked up by. -/
structure WellNamed (gs : List Guest) : Prop extends Distinct gs where
  names : ∀ g ∈ gs, slash ∉ g.name
  disks : ∀ d ∈ disksOf gs, ProperName d.key

/-- Only the volumes no guest claims are a guest without a number. -/
def Numbered (g : Guest) : Prop := g.vmid = none → g.name = ascii "Unattached"

theorem numbered_placeGuests : ∀ (next : Nat) {gs : List Guest}, (∀ g ∈ gs, Numbered g) → ∀ g ∈ placeGuests next gs, Numbered g
  | _, [], _, _, hg => absurd hg List.not_mem_nil
  | next, g₀ :: rest, h, g, hg => by
    rcases List.mem_cons.1 hg with rfl | hg
    · exact h g₀ List.mem_cons_self
    · exact numbered_placeGuests _ (fun g hg => h g (List.mem_cons_of_mem _ hg)) g hg

theorem numbered_estimateInactive {gs : List Guest} (h : ∀ g ∈ gs, Numbered g) (used : Nat) (volumes : List ThinVolume) :
    ∀ g ∈ estimateInactive gs used volumes, Numbered g := by
  unfold estimateInactive
  split
  · exact h
  · dsimp only
    split
    · exact h
    · rintro g hg
      obtain ⟨g₀, hg₀, rfl⟩ := List.mem_map.1 hg
      exact h g₀ hg₀

theorem numbered_foundGuests (lvm : Config.LvmTarget) (inputs : Inputs) (storage : Option Bytes) :
    ∀ g ∈ foundGuests lvm inputs storage, Numbered g := by
  intro g hg
  rcases List.mem_append.1 hg with hg | hg
  · obtain ⟨⟨vmid, kind, config⟩, -, he⟩ := List.mem_filterMap.1 hg
    dsimp only at he
    split at he
    · cases he
    · cases he
      rintro ⟨⟩
  · split at hg
    · cases hg
    · rw [List.mem_singleton.1 hg]
      exact fun _ => rfl

/-- A guest's label is a name a directory entry can have. -/
theorem proper_label {g : Guest} (hn : Numbered g) (hs : slash ∉ g.name) : ProperName g.label := by
  unfold Guest.label
  cases hv : g.vmid with
  | none =>
    simp only
    rw [hn hv]
    decide
  | some vmid =>
    simp only
    have hlen : 2 < (g.name ++ ascii " (" ++ decimal vmid ++ ascii ")").length := by
      simp only [List.length_append]
      have h1 : (ascii " (").length = 2 := by decide
      have h2 : (ascii ")").length = 1 := by decide
      omega
    refine ⟨fun he => ?_, fun hm => ?_, fun he => ?_, fun he => ?_⟩
    · rw [he] at hlen
      exact absurd hlen (by decide)
    · simp only [List.mem_append] at hm
      rcases hm with ((hm | hm) | hm) | hm
      · exact hs hm
      · exact absurd hm (by decide)
      · exact absurd (decimal_range vmid hm).1 (by decide)
      · exact absurd hm (by decide)
    · rw [he] at hlen
      exact absurd hlen (by decide)
    · rw [he] at hlen
      exact absurd hlen (by decide)

theorem shaped_build {displayPath : Bytes} {lvm : Config.LvmTarget} {inputs : Inputs} {pool : Pool} {t : DirTree}
    (h : build displayPath lvm inputs = .ok (pool, t)) (hw : WellNamed pool.guests) : Shaped t := by
  unfold build at h
  split at h
  · cases h
  · split at h
    · cases h
    · cases h
      dsimp only at hw
      refine ⟨shape_placed rfl hw.toDistinct, fun i hi hpos => ?_⟩
      have hl := DirTree.lt_of_alive hi
      dsimp only at hl
      rw [rollNodes, List.length_map, List.length_zipIdx] at hl
      unfold DirTree.node
      dsimp only
      rw [node_rollNodes hl]
      dsimp only
      rcases start_cases hpos hl with ⟨g, hg, -, he⟩ | ⟨g, hg, d, hd, -, he⟩
      · rw [he]
        refine proper_label (numbered_placeGuests 1 (numbered_estimateInactive ?_ _ _) g hg) (hw.names g hg)
        exact numbered_foundGuests _ _ _
      · rw [he]
        exact hw.disks d (mem_disksOf.2 ⟨g, hg, hd⟩)

end Build

end Lvm

/-! ## Re-reads -/

theorem shaped_relist {st : TreeState} {answers : Answers} (hs : answers.Sound) (h : Shaped st.tree) (target : Target) (node : Nat) :
    Shaped (relist target answers st node).1.tree := by
  unfold relist
  split
  · exact h
  · rename_i hread
    rw [Bool.or_eq_true, Bool.not_eq_true', not_or, Bool.not_eq_false, Bool.not_eq_true] at hread
    cases hl : readListing target answers st node with
    | error error =>
      dsimp only
      split
      · split <;> exact h
      · exact h
    | ok listing =>
      dsimp only
      obtain ⟨hm, -⟩ := mergeRun_rule hs.walks (fun _ _ _ => True) (fun _ _ _ => trivial)
        (mergeRun_merged target answers st node listing) (merging_start hs.entries h.shape h.names hread.1 hl) trivial
      obtain ⟨hands, hsame, he⟩ := applyAll_hands target answers st node listing
      rw [he]
      exact (Shaped.congr ⟨hm.shape, hm.names⟩ hsame.shape).congr (sameShape_hands _ hands)

/-! ## Runs -/

/-- The trees of scans and of pools, and all that is made of them. -/
inductive ArenaReached : DirTree → Prop
  | scan {host : Host} {target : Target} {hash : Bytes → Nat} {t : DirTree} {counted : Table Inode (Nat × Link)}
      (h : Walk.CountScan host target hash t counted) (hk : host.listing.Proper) : ArenaReached t
  | build {displayPath : Bytes} {lvm : Config.LvmTarget} {inputs : Lvm.Inputs} {pool : Lvm.Pool} {t : DirTree}
      (h : Lvm.build displayPath lvm inputs = .ok (pool, t)) (hw : Lvm.WellNamed pool.guests) : ArenaReached t
  | relist {st : TreeState} (h : ArenaReached st.tree) (target : Target) (answers : Answers) (node : Nat) (hs : answers.Sound) :
      ArenaReached (relist target answers st node).1.tree
  /-- A tree is grafted under a name of its own. -/
  | graft {t other : DirTree} (h : ArenaReached t) (ho : ArenaReached other) {under : Nat} {name : Bytes}
      (hu : (t.node under).alive = true) (hn : ProperName name) (hf : ∀ c ∈ (t.node under).children, (t.node c).name ≠ name) :
      ArenaReached (t.graft under (other.renameRoot name)).1
  | graftWalk {t walked : DirTree} (h : ArenaReached t) (hw : ArenaReached walked) {disk : Lvm.Disk}
      (ha : (t.node disk.node).alive = true) (hn : (t.node disk.node).name = disk.key) (hk : ProperName disk.key) :
      ArenaReached (Lvm.graftWalk t disk walked).1
  | setAllocated {t : DirTree} (h : ArenaReached t) {disk : Lvm.Disk} (ha : (t.node disk.node).alive = true) (allocated : Nat) :
      ArenaReached (Lvm.setAllocated t disk allocated).tree

theorem ArenaReached.shaped {t : DirTree} (h : ArenaReached t) : Shaped t := by
  induction h with
  | scan h hk =>
    have hf := h.fresh hk
    exact ⟨hf.shape, hf.names⟩
  | build h hw => exact Lvm.shaped_build h hw
  | relist h target answers node hs ih => exact shaped_relist hs ih target node
  | @graft t other h ho under name hu hn hf ih iho =>
    have hroot : ((other.renameRoot name).node 0).name = name := by
      unfold DirTree.renameRoot
      rw [DirTree.node_modifyNode_self iho.shape.pos]
    exact ih.graft (iho.renamed _) hu (by rw [hroot]; exact hn) fun c hc => by rw [hroot]; exact hf c hc
  | graftWalk h hw ha hn hk ih ihw => exact Lvm.shaped_graftWalk ih ihw ha hn hk
  | setAllocated h ha allocated ih => exact Lvm.shaped_setAllocated ih ha allocated

/-- What the lookups go by. -/
structure ArenaKept (t : DirTree) : Prop where
  /-- A directory's children are listed by name, each once. -/
  sorted : ∀ i, (t.node i).alive = true →
    (t.node i).children.Pairwise fun a b => compare (t.node a).name (t.node b).name = .lt
  children : ∀ i, (t.node i).alive = true → ∀ j ∈ (t.node i).children, (t.node j).alive = true ∧ (t.node j).parent = some i
  listed : ∀ i, (t.node i).alive = true → 0 < i →
    ∃ p, (t.node i).parent = some p ∧ (t.node p).alive = true ∧ i ∈ (t.node p).children
  detached : ∀ child p, (t.node child).alive = true → (t.node child).parent = some p → ∀ j, Above t.parentOf child j →
    ((t.detach child).1.node j).alive = false
  dead : ∀ a i, (t.node a).alive = false → Above t.parentOf a i → (t.node i).alive = false
  depth : ∀ i p, (t.node i).parent = some p → (t.node i).depth = (t.node p).depth + 1
  smaller : ∀ i p, (t.node i).parent = some p → p < i
  /-- A displayed path leads back to its directory. -/
  found : t.displayRoot.head? = some slash → ∀ i, (t.node i).alive = true → Utf8.valid (t.displayPathBytes i) = true →
    t.find (t.displayPath i) = some i
  /-- A lookup answers only with the directory the query names. -/
  finds : ∀ query i, t.find query = some i → (t.node i).alive = true ∧
    pathComponents query = pathComponents t.displayRoot ++ (t.components i).map .normal
  /-- One outside the root, or through a parent directory, has no answer. -/
  outside : ∀ query, (¬∃ rest, pathComponents query = pathComponents t.displayRoot ++ rest ∧ .parentDir ∉ rest) →
    t.find query = none

/-- Whatever is done to a tree, it stays one that can be looked up in. -/
theorem arena_kept {t : DirTree} (h : ArenaReached t) : ArenaKept t := by
  obtain ⟨hs, hn⟩ := h.shaped
  refine ⟨hs.sorted, hs.child, fun i hi hpos => ?_, fun child p hc hp j hj => hs.dead_detach hc hp hj, fun a i ha habove => ?_,
    hs.depth, hs.down, fun hroot i hi hv => hs.find_displayPath hn hroot hi hv, fun query i hf => hs.find_some hn hf,
    fun query ho => ?_⟩
  · obtain ⟨p, hp⟩ := hs.hasParent i hpos (DirTree.lt_of_alive hi)
    exact ⟨p, hp, hs.listed i p hi hp⟩
  · by_contra hi
    rw [Bool.not_eq_false] at hi
    have halive := hs.alive_of_above habove hi
    rw [ha] at halive
    cases halive
  · cases hf : t.find query with
    | none => rfl
    | some i =>
      refine absurd ⟨_, (hs.find_some hn hf).2, fun hm => ?_⟩ ho
      obtain ⟨name, -, he⟩ := List.mem_map.1 hm
      cases he

namespace Lvm

/-- The sample pool, displayed at a path. -/
def shownPool : Pool × DirTree :=
  (build (ascii "/p") sampleLvm (sampleInputs (sampleReading (ascii "100") 5))).toOption.get (by decide)

def shownDisk : Disk := (shownPool.1.guests.head (by decide)).disks.head (by decide)

theorem reached_shownPool : ArenaReached shownPool.2 := by
  have hbuild : build (ascii "/p") sampleLvm (sampleInputs (sampleReading (ascii "100") 5)) = .ok (shownPool.1, shownPool.2) := rfl
  exact .build hbuild ⟨⟨by decide, by decide⟩, by decide, by decide⟩

/-- A container's directories are found below the disk they are on. -/
theorem arena_kept_walked : ∃ t, ArenaKept t ∧ t.find (ascii "/p/ct (101)/rootfs") = some 5 := by
  have hwalked : ArenaReached (agedTree 5) := by
    refine .scan (.unread (Walk.scans_aged 5) rfl (Walk.tree_agedResult 5)) fun path reading h => ?_
    have h : Except.ok reading = Except.ok { entries := [], fail := none } := h
    cases h
    exact ⟨List.nodup_nil, nofun⟩
  have hgrafted := reached_shownPool.graftWalk hwalked (show (shownPool.2.node shownDisk.node).alive = true by decide) (by decide)
    (by decide)
  exact ⟨_, arena_kept hgrafted, by decide⟩

/-- A guest's configuration that names one key twice. -/
def twiceInputs : Inputs :=
  { sampleInputs (sampleReading (ascii "100") 5) with
    guests := [(101, .lxc, ⟨some (ascii "ct"), [⟨ascii "rootfs", ascii "s", ascii "a", false⟩,
      ⟨ascii "rootfs", ascii "s", ascii "b", false⟩], []⟩)] }

def twicePool : Pool × DirTree := (build (ascii "/p") sampleLvm twiceInputs).toOption.get (by decide)

/-- Its two disks are listed under one name, and only one of them is found. -/
theorem disk_hidden : (∀ g ∈ twicePool.1.guests, slash ∉ g.name) ∧ (twicePool.2.node 2).alive = true ∧
    (twicePool.2.node 3).alive = true ∧ twicePool.2.displayPath 2 = twicePool.2.displayPath 3 ∧
    ¬∀ displayPath lvm inputs pool t, build displayPath lvm inputs = .ok (pool, t) → (∀ g ∈ pool.guests, slash ∉ g.name) →
      ∀ i, (t.node i).alive = true → (t.node i).children.Pairwise fun a b => compare (t.node a).name (t.node b).name = .lt := by
  refine ⟨by decide, by decide, by decide, by decide, fun h => ?_⟩
  have hbuild : build (ascii "/p") sampleLvm twiceInputs = .ok (twicePool.1, twicePool.2) := rfl
  exact absurd (h _ _ _ _ _ hbuild (by decide) 1 (by decide)) (by decide)

end Lvm

end StorageHarvester
