/-
The tree `build` makes adds up: nodes are numbered in the order they are placed, each guest's disks
after it, and the backwards pass carries every disk's bytes to its guest and to the pool.
-/
import StorageHarvester.Lvm.Allocations

namespace StorageHarvester.Lvm

open Forest

/-! ## Numbers -/

/-- The nodes of the guests and their disks, each with its number. -/
def placed (guests : List Guest) : List (Nat × DirNode) :=
  guests.flatMap fun g => (g.node, guestNode g) :: g.disks.map fun d => (d.node, diskNode g.node d)

theorem placeDisks_nodes : ∀ (next : Nat) (disks : List Disk),
    (placeDisks next disks).map Disk.node = List.range' next disks.length
  | _, [] => rfl
  | next, d :: rest => by
    rw [placeDisks, List.map_cons, placeDisks_nodes (next + 1) rest]
    rfl

theorem length_placeDisks (next : Nat) (disks : List Disk) : (placeDisks next disks).length = disks.length := by
  rw [← List.length_map (f := Disk.node), placeDisks_nodes, List.length_range']

theorem placed_numbers : ∀ (next : Nat) (guests : List Guest),
    (placed (placeGuests next guests)).map Prod.fst = List.range' next (placed (placeGuests next guests)).length
  | _, [] => rfl
  | next, g :: rest => by
    have ih := placed_numbers (next + 1 + g.disks.length) rest
    have hsplit : placed (placeGuests next (g :: rest)) =
        ((next, guestNode { g with node := next, disks := placeDisks (next + 1) g.disks }) ::
          (placeDisks (next + 1) g.disks).map fun d => (d.node, diskNode next d)) ++
        placed (placeGuests (next + 1 + g.disks.length) rest) := rfl
    have hdisks : ((placeDisks (next + 1) g.disks).map fun d => (d.node, diskNode next d)).map Prod.fst =
        List.range' (next + 1) g.disks.length := by
      rw [List.map_map]
      exact placeDisks_nodes (next + 1) g.disks
    rw [hsplit, List.map_append, ih, List.map_cons, hdisks, List.length_append, List.length_cons, List.length_map,
      length_placeDisks]
    show next :: List.range' (next + 1) g.disks.length ++ _ = _
    rw [← List.range'_succ, Nat.add_assoc next 1, Nat.add_comm 1, List.range'_append_1]

theorem placed_nodes (guests : List Guest) :
    (placed guests).map Prod.snd = guests.flatMap fun g => guestNode g :: g.disks.map (diskNode g.node) := by
  unfold placed
  rw [List.map_flatMap]
  congr 1
  funext g
  rw [List.map_cons, List.map_map]
  rfl

theorem placeDisks_lt : ∀ {next : Nat} {disks : List Disk} {d : Disk}, d ∈ placeDisks next disks → next ≤ d.node := by
  rintro next disks d hd
  have hm : d.node ∈ (placeDisks next disks).map Disk.node := List.mem_map_of_mem hd
  rw [placeDisks_nodes, List.mem_range'_1] at hm
  exact hm.1

theorem placeGuests_lt : ∀ {next : Nat} {guests : List Guest} {g : Guest}, g ∈ placeGuests next guests →
    ∀ d ∈ g.disks, g.node < d.node
  | _, [], _, hg, _, _ => absurd hg List.not_mem_nil
  | next, g₀ :: rest, g, hg, d, hd => by
    rcases List.mem_cons.1 hg with rfl | hg
    · exact placeDisks_lt hd
    · exact placeGuests_lt hg d hd

/-! ## The nodes before the roll-up -/

section Start

variable {gs : List Guest} {i : Nat} {n : DirNode}

theorem startNodes_eq (guests : List Guest) : startNodes guests =
    { synthetic [] none 0 with direct := { dirs := guests.length } } :: (placed guests).map Prod.snd := by
  rw [placed_nodes]
  rfl

theorem length_startNodes (guests : List Guest) : (startNodes guests).length = (placed guests).length + 1 := by
  rw [startNodes_eq, List.length_cons, List.length_map]

/-- A placed node stands at its number. -/
theorem start_at (h : (i, n) ∈ placed (placeGuests 1 gs)) :
    (startNodes (placeGuests 1 gs)).getD i default = n ∧ 0 < i ∧ i < (startNodes (placeGuests 1 gs)).length := by
  obtain ⟨k, hk, he⟩ := List.mem_iff_getElem.1 h
  have hnum := placed_numbers 1 gs
  have hi : ((placed (placeGuests 1 gs)).map Prod.fst)[k]? = some i := by
    rw [List.getElem?_map, List.getElem?_eq_getElem hk, he]
    rfl
  rw [hnum, List.getElem?_range' hk] at hi
  have hki : i = k + 1 := by
    have := Option.some.inj hi
    omega
  subst hki
  rw [length_startNodes, startNodes_eq, List.getD_cons_succ]
  refine ⟨?_, Nat.succ_pos k, by omega⟩
  rw [List.getD_eq_getElem?_getD, List.getElem?_map, List.getElem?_eq_getElem hk, he]
  rfl

/-- Every node but the pool's is placed. -/
theorem placed_of_lt (h0 : 0 < i) (hl : i < (startNodes (placeGuests 1 gs)).length) :
    (i, (startNodes (placeGuests 1 gs)).getD i default) ∈ placed (placeGuests 1 gs) := by
  rw [length_startNodes] at hl
  have hm : i ∈ (placed (placeGuests 1 gs)).map Prod.fst := by
    rw [placed_numbers, List.mem_range'_1]
    omega
  obtain ⟨e, he, rfl⟩ := List.mem_map.1 hm
  rw [(start_at (n := e.2) he).1]
  exact he

theorem guest_placed {guests : List Guest} {g : Guest} (hg : g ∈ guests) : (g.node, guestNode g) ∈ placed guests :=
  List.mem_flatMap.2 ⟨g, hg, List.mem_cons_self ..⟩

theorem disk_placed {guests : List Guest} {g : Guest} {d : Disk} (hg : g ∈ guests) (hd : d ∈ g.disks) :
    (d.node, diskNode g.node d) ∈ placed guests :=
  List.mem_flatMap.2 ⟨g, hg, List.mem_cons_of_mem _ (List.mem_map_of_mem hd)⟩

theorem down_start (gs : List Guest) : Down (startParent (startNodes (placeGuests 1 gs))) := by
  intro i p hp
  unfold startParent at hp
  rcases Nat.eq_zero_or_pos i with rfl | h0
  · rw [startNodes_eq] at hp
    cases hp
  · by_cases hl : i < (startNodes (placeGuests 1 gs)).length
    · obtain ⟨g, hg, he⟩ := List.mem_flatMap.1 (placed_of_lt h0 hl)
      rcases List.mem_cons.1 he with he | he
      · have hn := congrArg Prod.snd he
        dsimp only at hn
        rw [hn] at hp
        cases hp
        exact h0
      · obtain ⟨d, hd, he⟩ := List.mem_map.1 he
        have hi := congrArg Prod.fst he
        have hn := congrArg Prod.snd he
        dsimp only at hi hn
        rw [← hn] at hp
        cases hp
        rw [← hi]
        exact placeGuests_lt hg d hd
    · rw [List.getD_eq_default _ _ (Nat.le_of_not_lt hl)] at hp
      cases hp

/-- A sum over all nodes: the pool's, the guests' and the disks'. -/
theorem sum_start (f : Nat → Nat) : ∑ j ∈ Finset.range (startNodes (placeGuests 1 gs)).length, f j =
    f 0 + ((placeGuests 1 gs).map fun g => f g.node + (g.disks.map fun d => f d.node).sum).sum := by
  have hlist : ∑ j ∈ Finset.range (startNodes (placeGuests 1 gs)).length, f j =
      ((List.range (startNodes (placeGuests 1 gs)).length).map f).sum := rfl
  have hnum : (placed (placeGuests 1 gs)).map Prod.fst =
      (placeGuests 1 gs).flatMap fun g => g.node :: g.disks.map Disk.node := by
    unfold placed
    rw [List.map_flatMap]
    congr 1
    funext g
    rw [List.map_cons, List.map_map]
    rfl
  rw [hlist, length_startNodes, List.range_eq_range', List.range'_succ, List.map_cons, List.sum_cons, ← placed_numbers, hnum,
    List.map_flatMap, List.flatMap_def, List.sum_flatten, List.map_map]
  congr 2
  refine List.map_congr_left fun g _ => ?_
  rw [Function.comp_apply, List.map_cons, List.sum_cons, List.map_map]
  rfl

end Start

/-! ## The roll-up -/

/-- All sums of the tree a build makes stay below the limits. -/
structure BuildFits (guests : List Guest) : Prop where
  bytes : ((disksOf guests).map Disk.bytes).sum < 2 ^ 63
  dirs : guests.length + (disksOf guests).length < 2 ^ 63

theorem node_rollNodes {nodes : List DirNode} {i : Nat} (hi : i < nodes.length) :
    (rollNodes nodes).getD i default = { nodes.getD i default with
      sub := Forest.rollUp Tally.add (startParent nodes) (nodes.length - 1) (fun i => (nodes.getD i default).direct) i
      children := startChildren nodes i } := by
  unfold rollNodes
  rw [List.getD_eq_getElem _ _ (by rw [List.length_map, List.length_zipIdx]; exact hi), List.getElem_map,
    List.getElem_zipIdx, List.getD_eq_getElem _ _ hi, Nat.zero_add]

open Classical in
/-- What is gathered at and below a node. -/
noncomputable def gathered (nodes : List DirNode) (c : Component) (v : Nat) : Nat :=
  ∑ j ∈ Finset.range nodes.length, if Above (startParent nodes) v j then (nodes.getD j default).direct.get c else 0

theorem rolled_get {nodes : List DirNode} (hd : Down (startParent nodes)) {v : Nat} (hv : v < nodes.length) (c : Component) :
    min ((Forest.rollUp Tally.add (startParent nodes) (nodes.length - 1) (fun i => (nodes.getD i default).direct) v).get c) u64Max =
      min (gathered nodes c v) u64Max := by
  have hlen : nodes.length - 1 + 1 = nodes.length := by omega
  have hsum := rollUp_eq_sum hd (k := nodes.length - 1) (v := v) (fun j => (nodes.getD j default).direct.get c) (by omega)
  rw [hlen] at hsum
  unfold gathered
  rw [← hsum, rollUp_map (fun t : Tally => min (t.get c) u64Max) (g := fun a b => min (a + b) u64Max) (fun a b => ?_),
    rollUp_map (fun x : Nat => min x u64Max) (g := fun a b => min (a + b) u64Max) (fun a b => ?_)]
  · omega
  · have := Tally.capped_get_add a b c
    omega

/-- A node gathers what is in it, and what its children gather. -/
theorem gathered_eq {nodes : List DirNode} (hd : Down (startParent nodes)) {v : Nat} (hv : v < nodes.length) (c : Component) :
    gathered nodes c v = (nodes.getD v default).direct.get c +
      ∑ j ∈ Finset.range nodes.length, if startParent nodes j = some v then gathered nodes c j else 0 := by
  classical
  have h := sum_above_children hd (v := v) (k := nodes.length - 1) (by omega) fun j => (nodes.getD j default).direct.get c
  rw [show nodes.length - 1 + 1 = nodes.length by omega] at h
  exact h

theorem sum_single {α : Type} {k : α → Nat} {f : α → Nat} {x : α} {l : List α} (hn : (l.map k).Nodup) (hx : x ∈ l)
    (hz : ∀ y ∈ l, k y ≠ k x → f y = 0) : (l.map f).sum = f x := by
  obtain ⟨pre, post, rfl⟩ := List.append_of_mem hx
  rw [List.map_append, List.map_cons, List.nodup_middle, List.nodup_cons, ← List.map_append] at hn
  have hzero : ∀ y ∈ pre ++ post, f y = 0 := fun y hy =>
    hz y ((forall_mem_split (P := (· ∈ pre ++ x :: post)).1 fun _ h => h).2 y hy) fun he => hn.1 (he ▸ List.mem_map_of_mem hy)
  rw [List.map_append, List.map_cons, List.sum_append, List.sum_cons,
    List.sum_eq_zero (l := pre.map f) (by simpa using fun y hy => hzero y (List.mem_append_left _ hy)),
    List.sum_eq_zero (l := post.map f) (by simpa using fun y hy => hzero y (List.mem_append_right _ hy))]
  omega

section Placed

variable {gs : List Guest} {g : Guest} {d : Disk}

theorem placed_nodup (gs : List Guest) : ((placeGuests 1 gs).map Guest.node).Nodup ∧
    ((disksOf (placeGuests 1 gs)).map Disk.node).Nodup := by
  have hnum : (placed (placeGuests 1 gs)).map Prod.fst =
      (placeGuests 1 gs).flatMap fun g => g.node :: g.disks.map Disk.node := by
    unfold placed
    rw [List.map_flatMap]
    congr 1
    funext g
    rw [List.map_cons, List.map_map]
    rfl
  have hn : ((placeGuests 1 gs).flatMap fun g => g.node :: g.disks.map Disk.node).Nodup := by
    rw [← hnum, placed_numbers]
    exact List.nodup_range'
  rw [List.nodup_flatMap] at hn
  constructor
  · rw [List.Nodup, List.pairwise_map]
    refine hn.2.imp fun {a b} hab he => ?_
    exact hab (List.mem_cons_self ..) (he ▸ List.mem_cons_self ..)
  · unfold disksOf
    rw [List.map_flatMap, List.nodup_flatMap]
    refine ⟨fun g hg => (List.nodup_cons.1 (hn.1 g hg)).2, hn.2.imp fun {a b} hab => ?_⟩
    exact fun x ha hb => hab (List.mem_cons_of_mem _ ha) (List.mem_cons_of_mem _ hb)

theorem guest_start (hg : g ∈ placeGuests 1 gs) : (startNodes (placeGuests 1 gs)).getD g.node default = guestNode g ∧
    0 < g.node ∧ g.node < (startNodes (placeGuests 1 gs)).length := start_at (guest_placed hg)

theorem disk_start (hg : g ∈ placeGuests 1 gs) (hd : d ∈ g.disks) :
    (startNodes (placeGuests 1 gs)).getD d.node default = diskNode g.node d ∧
      0 < d.node ∧ d.node < (startNodes (placeGuests 1 gs)).length := start_at (disk_placed hg hd)

theorem parent_guest (hg : g ∈ placeGuests 1 gs) : startParent (startNodes (placeGuests 1 gs)) g.node = some 0 := by
  unfold startParent
  rw [(guest_start hg).1]
  rfl

theorem parent_disk (hg : g ∈ placeGuests 1 gs) (hd : d ∈ g.disks) :
    startParent (startNodes (placeGuests 1 gs)) d.node = some g.node := by
  unfold startParent
  rw [(disk_start hg hd).1]
  rfl

theorem parent_pool (gs : List Guest) : startParent (startNodes (placeGuests 1 gs)) 0 = none := by
  rw [startParent, startNodes_eq]
  rfl

theorem gathered_disk (hg : g ∈ placeGuests 1 gs) (hd : d ∈ g.disks) (c : Component) :
    gathered (startNodes (placeGuests 1 gs)) c d.node = (diskNode g.node d).direct.get c := by
  obtain ⟨hn, h0, hl⟩ := disk_start hg hd
  rw [gathered_eq (down_start gs) hl, hn, sum_start, parent_pool]
  simp only [reduceCtorEq, if_false, Nat.zero_add]
  rw [List.sum_eq_zero, Nat.add_zero]
  intro x hx
  obtain ⟨g', hg', rfl⟩ := List.mem_map.1 hx
  have hne : g'.node ≠ d.node := by
    rintro he
    have h1 := parent_guest hg'
    rw [he, parent_disk hg hd] at h1
    have := (guest_start hg).2.1
    rw [Option.some.inj h1] at this
    exact absurd this (Nat.lt_irrefl 0)
  rw [parent_guest hg', if_neg fun he => absurd (Option.some.inj he) (Nat.ne_of_lt h0), List.sum_eq_zero, Nat.add_zero]
  intro y hy
  obtain ⟨d', hd', rfl⟩ := List.mem_map.1 hy
  rw [parent_disk hg' hd', if_neg fun he => hne (Option.some.inj he)]

theorem gathered_guest (hg : g ∈ placeGuests 1 gs) (c : Component) :
    gathered (startNodes (placeGuests 1 gs)) c g.node =
      (guestNode g).direct.get c + (g.disks.map fun d => gathered (startNodes (placeGuests 1 gs)) c d.node).sum := by
  obtain ⟨hn, h0, hl⟩ := guest_start hg
  rw [gathered_eq (down_start gs) hl, hn, sum_start, parent_pool]
  simp only [reduceCtorEq, if_false, Nat.zero_add]
  rw [sum_single (k := Guest.node) (placed_nodup gs).1 hg, parent_guest hg,
    if_neg fun he => absurd (Option.some.inj he) (Nat.ne_of_lt h0), Nat.zero_add]
  · congr 2
    refine List.map_congr_left fun d hd => ?_
    rw [parent_disk hg hd, if_pos rfl]
  · intro g' hg' hne
    rw [parent_guest hg', if_neg fun he => absurd (Option.some.inj he) (Nat.ne_of_lt h0), List.sum_eq_zero, Nat.add_zero]
    intro y hy
    obtain ⟨d, hd, rfl⟩ := List.mem_map.1 hy
    rw [parent_disk hg' hd, if_neg fun he => hne (Option.some.inj he)]

theorem gathered_pool (gs : List Guest) (c : Component) :
    gathered (startNodes (placeGuests 1 gs)) c 0 = ((startNodes (placeGuests 1 gs)).getD 0 default).direct.get c +
      ((placeGuests 1 gs).map fun g => gathered (startNodes (placeGuests 1 gs)) c g.node).sum := by
  rw [gathered_eq (down_start gs) (by rw [length_startNodes]; omega), sum_start, parent_pool]
  simp only [reduceCtorEq, if_false, Nat.zero_add]
  congr 2
  refine List.map_congr_left fun g hg => ?_
  rw [parent_guest hg, if_pos rfl, List.sum_eq_zero, Nat.add_zero]
  intro y hy
  obtain ⟨d, hd, rfl⟩ := List.mem_map.1 hy
  have := (guest_start hg).2.1
  rw [parent_disk hg hd, if_neg fun he => absurd (Option.some.inj he) (Nat.ne_of_gt this)]

/-- Every node is below the pool's. -/
theorem pool_above {i : Nat} (hi : i < (startNodes (placeGuests 1 gs)).length) :
    Above (startParent (startNodes (placeGuests 1 gs))) 0 i := by
  rcases Nat.eq_zero_or_pos i with rfl | h0
  · exact .refl
  · obtain ⟨g, hg, he⟩ := List.mem_flatMap.1 (placed_of_lt h0 hi)
    rcases List.mem_cons.1 he with he | he
    · have hn := congrArg Prod.fst he
      dsimp only at hn
      rw [hn]
      exact .step (parent_guest hg) .refl
    · obtain ⟨d, hd, he⟩ := List.mem_map.1 he
      have hn := congrArg Prod.fst he
      dsimp only at hn
      rw [← hn]
      exact .step (parent_disk hg hd) (.step (parent_guest hg) .refl)

theorem gathered_le (gs : List Guest) (c : Component) (i : Nat) :
    gathered (startNodes (placeGuests 1 gs)) c i ≤ gathered (startNodes (placeGuests 1 gs)) c 0 := by
  refine Finset.sum_le_sum fun j hj => ?_
  rw [if_pos (pool_above (Finset.mem_range.1 hj))]
  split
  · exact Nat.le_refl _
  · exact Nat.zero_le _

theorem bytes_lt (hf : BuildFits (placeGuests 1 gs)) (hg : g ∈ placeGuests 1 gs) (hd : d ∈ g.disks) : d.bytes < 2 ^ 63 := by
  have hm : d.bytes ∈ (disksOf (placeGuests 1 gs)).map Disk.bytes := List.mem_map_of_mem (mem_disksOf.2 ⟨g, hg, hd⟩)
  exact Nat.lt_of_le_of_lt (List.single_le_sum (fun x _ => Nat.zero_le x) _ hm) hf.bytes

theorem gathered_bytes (hf : BuildFits (placeGuests 1 gs)) (hg : g ∈ placeGuests 1 gs) (hd : d ∈ g.disks) (c : Component) :
    gathered (startNodes (placeGuests 1 gs)) c d.node = sizeAt d.bytes d.bytes c := by
  have hb := bytes_lt hf hg hd
  rw [gathered_disk hg hd]
  show (({} : Tally).addSize d.bytes d.bytes).get c = _
  rw [Tally.get_addSize, Tally.get_default, Nat.zero_add]
  rw [Tally.get_default]
  cases c <;> simp only [sizeAt] <;> omega

theorem gathered_pool_lt (hf : BuildFits (placeGuests 1 gs)) (c : Component) :
    gathered (startNodes (placeGuests 1 gs)) c 0 < 2 ^ 63 := by
  have hguests : (placeGuests 1 gs).map (fun g => gathered (startNodes (placeGuests 1 gs)) c g.node) =
      (placeGuests 1 gs).map fun g => (guestNode g).direct.get c + (g.disks.map fun d => sizeAt d.bytes d.bytes c).sum :=
    List.map_congr_left fun g hg => by
      rw [gathered_guest hg, List.map_congr_left fun d hd => gathered_bytes hf hg hd c]
  have hbytes : ((placeGuests 1 gs).map fun g => (g.disks.map Disk.bytes).sum).sum =
      ((disksOf (placeGuests 1 gs)).map Disk.bytes).sum := by
    rw [disksOf, List.map_flatMap, List.flatMap_def, List.sum_flatten, List.map_map]
    rfl
  have hdirs : ((placeGuests 1 gs).map fun g => g.disks.length).sum = (disksOf (placeGuests 1 gs)).length := by
    rw [disksOf, List.length_flatMap]
  have hzero : ∀ l : List Disk, (l.map fun _ => 0).sum = 0 := fun l => List.sum_eq_zero (by simp)
  have h1 := hf.bytes
  have h2 := hf.dirs
  rw [gathered_pool, hguests, startNodes_eq, List.getD_cons_zero]
  cases c with
  | files | symlinks => simp [guestNode, synthetic, Tally.get, sizeAt]
  | dirs =>
    simp only [guestNode, synthetic, Tally.get, sizeAt, hzero, Nat.add_zero]
    rw [hdirs]
    exact h2
  | blocks | apparent =>
    simp only [guestNode, synthetic, Tally.get, sizeAt, Nat.zero_add]
    exact hbytes ▸ h1

/-- The tree a build makes adds up. -/
theorem placed_sums {t : DirTree} (ht : t.nodes = rollNodes (startNodes (placeGuests 1 gs))) (hf : BuildFits (placeGuests 1 gs)) :
    Sums t (placeGuests 1 gs) ∧ ∀ g ∈ placeGuests 1 gs, ∀ d ∈ g.disks, ∀ c,
      (t.node d.node).sub.get c = sizeAt d.bytes d.bytes c ∧ (t.node d.node).ownBlocks = 0 ∧ (t.node d.node).ownApparent = 0 := by
  have hnode : ∀ i < (startNodes (placeGuests 1 gs)).length, t.node i =
      { (startNodes (placeGuests 1 gs)).getD i default with
        sub := Forest.rollUp Tally.add (startParent (startNodes (placeGuests 1 gs))) ((startNodes (placeGuests 1 gs)).length - 1)
          (fun i => ((startNodes (placeGuests 1 gs)).getD i default).direct) i
        children := startChildren (startNodes (placeGuests 1 gs)) i } := fun i hi => by
    unfold DirTree.node
    rw [ht]
    exact node_rollNodes hi
  have h0 : 0 < (startNodes (placeGuests 1 gs)).length := by rw [length_startNodes]; omega
  have hparent : t.parentOf = startParent (startNodes (placeGuests 1 gs)) := by
    funext i
    by_cases hi : i < (startNodes (placeGuests 1 gs)).length
    · rw [DirTree.parentOf, hnode i hi]
      rfl
    · have hl : t.nodes.length = (startNodes (placeGuests 1 gs)).length := by
        rw [ht, rollNodes, List.length_map, List.length_zipIdx]
      rw [DirTree.parentOf, DirTree.node_of_le (by omega), startParent, List.getD_eq_default _ _ (by omega)]
  -- nothing saturates
  have hsub : ∀ i < (startNodes (placeGuests 1 gs)).length, ∀ c,
      (t.node i).sub.get c = gathered (startNodes (placeGuests 1 gs)) c i := by
    intro i hi c
    have h1 := rolled_get (down_start gs) hi c
    have h2 := gathered_pool_lt hf c
    have h3 := gathered_le gs c i
    rw [hnode i hi]
    dsimp only
    unfold u64Max at h1
    omega
  have hg : ∀ g ∈ placeGuests 1 gs, t.node g.node = { guestNode g with
      sub := (t.node g.node).sub, children := (t.node g.node).children } := fun g hg => by
    rw [hnode _ (guest_start hg).2.2, (guest_start hg).1]
  have hd : ∀ g ∈ placeGuests 1 gs, ∀ d ∈ g.disks, t.node d.node = { diskNode g.node d with
      sub := (t.node d.node).sub, children := (t.node d.node).children } := fun g hg d hd => by
    rw [hnode _ (disk_start hg hd).2.2, (disk_start hg hd).1]
  have hroot : t.node 0 = { synthetic [] none 0 with
      direct := { dirs := (placeGuests 1 gs).length }, sub := (t.node 0).sub, children := (t.node 0).children } := by
    rw [hnode 0 h0, startNodes_eq]
    rfl
  have hdisk : ∀ g ∈ placeGuests 1 gs, ∀ d ∈ g.disks, ∀ c, (t.node d.node).sub.get c = sizeAt d.bytes d.bytes c ∧
      (t.node d.node).ownBlocks = 0 ∧ (t.node d.node).ownApparent = 0 := fun g hgm d hdm c => by
    refine ⟨(hsub _ (disk_start hgm hdm).2.2 c).trans (gathered_bytes hf hgm hdm c), ?_, ?_⟩
    · rw [hd g hgm d hdm]
      rfl
    · rw [hd g hgm d hdm]
      rfl
  refine ⟨⟨?_, ?_, fun g hgm => ?_, fun g hgm d hdm => ?_, (placed_nodup gs).1, (placed_nodup gs).2, ?_, fun g hgm => ?_,
    fun c => ?_, fun g hgm c => ?_, fun c => ?_⟩, hdisk⟩
  · rw [hparent]
    exact down_start gs
  · rw [hroot]
    rfl
  · rw [hg g hgm]
    rfl
  · rw [hd g hgm d hdm]
    rfl
  · rw [hroot]
    exact ⟨rfl, rfl, rfl, rfl⟩
  · rw [hg g hgm]
    exact ⟨rfl, rfl, rfl, rfl⟩
  · rw [hsub 0 h0, gathered_pool, List.map_congr_left fun g hgm => hsub _ (guest_start hgm).2.2 c, hroot, startNodes_eq]
    rfl
  · have htotal : g.disks.map (fun d => totalAt t d.node c) =
        g.disks.map fun d => gathered (startNodes (placeGuests 1 gs)) c d.node := List.map_congr_left fun d hdm => by
      obtain ⟨h1, h2, h3⟩ := hdisk g hgm d hdm c
      unfold totalAt
      rw [h2, h3, hsub _ (disk_start hgm hdm).2.2]
      cases c <;> rfl
    rw [hsub _ (guest_start hgm).2.2, gathered_guest hgm, htotal, hg g hgm]
  · rw [hsub 0 h0]
    exact gathered_pool_lt hf c

end Placed

end StorageHarvester.Lvm
