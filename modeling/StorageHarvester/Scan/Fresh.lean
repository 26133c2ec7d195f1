/-
What `build_tree` makes of a walk: a well-shaped tree whose totals add up, whatever the schedule was
and whatever the kernel answered. Sums are compared up to `u64::MAX`, where adding saturates; below
it they are exact.
-/
import StorageHarvester.Scan.Tracked
import StorageHarvester.Tree.Fresh

namespace StorageHarvester

open Forest

/-! ## Sums up to a limit -/

/-- Sorting by name puts distinct names in strict order. -/
theorem pairwise_lt_insertionSort {α : Type*} (name : α → Bytes) {l : List α} (hn : (l.map name).Nodup) :
    (l.insertionSort fun a b => nameLe (name a) (name b) = true).Pairwise fun a b => compare (name a) (name b) = .lt := by
  have htotal : Std.Total fun a b : α => nameLe (name a) (name b) = true := ⟨fun a b => by
    unfold nameLe
    cases h : compare (name a) (name b) with
    | lt => exact .inl rfl
    | eq => exact .inl rfl
    | gt => exact .inr (by rw [compare_gt_iff.1 h]; rfl)⟩
  have htrans : IsTrans α fun a b => nameLe (name a) (name b) = true := ⟨fun a b c hab hbc => by
    unfold nameLe at hab hbc ⊢
    simp only [ne_eq, decide_eq_true_eq] at hab hbc ⊢
    exact Ordering.isLE_iff_ne_gt.1 (Std.TransCmp.isLE_trans (Ordering.isLE_iff_ne_gt.2 hab) (Ordering.isLE_iff_ne_gt.2 hbc))⟩
  have hs := List.pairwise_insertionSort (fun a b : α => nameLe (name a) (name b) = true) l
  have hn' : ((l.insertionSort fun a b => nameLe (name a) (name b) = true).map name).Nodup :=
    ((List.perm_insertionSort _ l).map name).nodup_iff.2 hn
  rw [List.nodup_iff_pairwise_ne, List.pairwise_map] at hn'
  refine (hs.and hn').imp fun {a b} hab => ?_
  cases h : compare (name a) (name b) with
  | lt => rfl
  | eq => exact absurd (Std.LawfulEqCmp.eq_of_compare h) hab.2
  | gt =>
    have h1 := hab.1
    unfold nameLe at h1
    rw [h] at h1
    exact absurd rfl (of_decide_eq_true h1)

/-- What is directly inside a directory, or in the untracked directories below it. -/
def NodeTally.part (t : NodeTally) (direct : Bool) : Tally := if direct then t.direct else t.below

namespace Walk

/-! ## The arena of the tree -/

theorem mem_childrenOf {nodes : List TrackedNode} {i j : Nat} :
    j ∈ childrenOf nodes i ↔ j < nodes.length ∧ (nodeIn nodes j).parent = some i := by
  unfold childrenOf
  rw [List.mem_insertionSort, List.mem_reverse, List.mem_filter, List.mem_range]
  simp [parentIn, nodeIn]

theorem sum_childrenOf (nodes : List TrackedNode) (i : Nat) (f : Nat → Int) :
    ((childrenOf nodes i).map f).sum = ∑ j ∈ Finset.range nodes.length, if parentIn nodes j = some i then f j else 0 := by
  have hperm : (childrenOf nodes i).Perm ((List.range nodes.length).filter fun j => parentIn nodes j = some i) :=
    (List.perm_insertionSort _ _).trans (List.reverse_perm _)
  rw [(hperm.map f).sum_eq]
  induction nodes.length with
  | zero => rfl
  | succ n ih =>
    rw [List.range_succ, List.filter_append, List.map_append, List.sum_append, ih, Finset.sum_range_succ]
    congr 1
    by_cases h : parentIn nodes n = some i <;> simp [h]

theorem childrenOf_sorted {nodes : List TrackedNode} (h : Arena nodes) (i : Nat) :
    (childrenOf nodes i).Pairwise fun a b => compare (nodeIn nodes a).name (nodeIn nodes b).name = .lt := by
  refine pairwise_lt_insertionSort (fun j => (nodeIn nodes j).name) ?_
  rw [List.map_reverse, List.nodup_reverse]
  refine List.Nodup.map_on ?_ (List.nodup_range.filter _)
  intro a ha b hb hab
  simp only [List.mem_filter, List.mem_range, decide_eq_true_eq] at ha hb
  by_contra hne
  have hlt : ∀ {a b : Nat}, (hab : a < b) → (hb : b < nodes.length) → parentIn nodes a = some i → parentIn nodes b = some i →
      (nodeIn nodes a).name ≠ (nodeIn nodes b).name := by
    intro a b hab hb hpa hpb
    have := List.pairwise_iff_getElem.1 h.siblings a b (by omega) hb hab
    rw [nodeIn, nodeIn, List.getD_eq_getElem _ _ (show a < nodes.length by omega), List.getD_eq_getElem _ _ hb]
    refine this ?_
    rw [parentIn, List.getD_eq_getElem _ _ (show a < nodes.length by omega)] at hpa
    rw [parentIn, List.getD_eq_getElem _ _ hb] at hpb
    rw [hpa, hpb]
  rcases Nat.lt_or_gt_of_ne hne with hlt' | hgt
  · exact hlt hlt' hb.1 ha.2 hb.2 hab
  · exact hlt hgt ha.1 hb.2 ha.2 hab.symm

section Built

variable {target : Target} {nodes : List TrackedNode} {tallies : Nat → NodeTally} {links : Table Inode LinkOwner}
  {plain : List (Nat × Nat)} {rootDev : Nat} {t : DirTree}

/-- What `build_tree` puts at each place. -/
structure Built (nodes : List TrackedNode) (tallies : Nat → NodeTally) (t : DirTree) : Prop where
  length : t.nodes.length = nodes.length
  node : ∀ i < nodes.length, t.node i =
    { treeNode (nodeIn nodes i) (tallies i) with
      sub := (t.node i).sub
      newest := (t.node i).newest
      isSealed := (t.node i).isSealed
      children := childrenOf nodes i }
  sub : ∀ i < nodes.length, (t.node i).sub =
    (rollUp pushUp (parentIn nodes) (nodes.length - 1)
      (fun i => ((treeNode (nodeIn nodes i) (tallies i)).sub, (treeNode (nodeIn nodes i) (tallies i)).newest)) i).1
  /-- Only where nothing is below in untracked directories is a directory not sealed. -/
  unsealed : ∀ i < nodes.length, (t.node i).isSealed = false → (tallies i).below = {}

theorem built_of_buildTree (h : buildTree target nodes tallies links plain rootDev = some t) :
    Built nodes tallies t ∧ t.links = links ∧ t.clamped = false ∧ nodes ≠ [] := by
  unfold buildTree at h
  split at h
  · cases h
  · rename_i hne
    simp only [Option.some.injEq] at h
    subst h
    have hget : ∀ (f : Nat → DirNode) (i : Nat), i < nodes.length → ((List.range nodes.length).map f).getD i default = f i := by
      intro f i hi
      rw [List.getD_eq_getElem _ _ (by simpa using hi), List.getElem_map, List.getElem_range]
    refine ⟨⟨by simp, fun i hi => ?_, fun i hi => ?_, fun i hi hs => ?_⟩, rfl, rfl, by simpa using hne⟩
    · unfold DirTree.node
      rw [hget _ i hi]
      rfl
    · unfold DirTree.node
      rw [hget _ i hi]
      rfl
    · unfold DirTree.node at hs
      rw [hget _ i hi] at hs
      simp only [treeNode, Bool.or_eq_false_iff, Bool.not_eq_false'] at hs
      simpa [Tally.isEmpty] using hs.1.2

theorem Built.parentOf (hb : Built nodes tallies t) : t.parentOf = parentIn nodes := by
  funext i
  unfold DirTree.parentOf
  rcases Nat.lt_or_ge i nodes.length with hi | hi
  · rw [hb.node i hi]; rfl
  · rw [DirTree.node_of_le (by rw [hb.length]; exact hi), parentIn, List.getD_eq_default _ _ hi]
    rfl

theorem Arena.down (h : Arena nodes) : Down (parentIn nodes) := by
  intro i p hp
  rcases Nat.lt_or_ge i nodes.length with hi | hi
  · rcases Nat.eq_zero_or_pos i with rfl | hpos
    · have h0 := h.root.1
      unfold nodeIn at h0
      rw [parentIn, h0] at hp
      cases hp
    · obtain ⟨q, hq, h1, -⟩ := h.below i hpos hi
      unfold nodeIn at h1
      rw [parentIn, h1] at hp
      cases hp
      exact hq
  · rw [parentIn, List.getD_eq_default _ _ hi] at hp
    cases hp

theorem Built.shape (hb : Built nodes tallies t) (h : Arena nodes) : Shape t := by
  have hparent : ∀ i, (t.node i).parent = (nodeIn nodes i).parent := fun i => congrFun hb.parentOf i
  have hlt : ∀ {i}, (t.node i).alive = true → i < nodes.length := fun hi => hb.length ▸ DirTree.lt_of_alive hi
  have hname : ∀ i < nodes.length, (t.node i).name = (nodeIn nodes i).name := fun i hi => by rw [hb.node i hi]; rfl
  have halive : ∀ i < nodes.length, (t.node i).alive = true := fun i hi => by rw [hb.node i hi]; rfl
  have hdepth : ∀ i < nodes.length, (t.node i).depth = (nodeIn nodes i).depth := fun i hi => by rw [hb.node i hi]; rfl
  have hkids : ∀ i < nodes.length, (t.node i).children = childrenOf nodes i := fun i hi => by rw [hb.node i hi]
  have hsome : ∀ i p, (t.node i).parent = some p → i < nodes.length ∧ p < i := by
    intro i p hp
    have hpi := h.down i p ((hparent i).symm.trans hp)
    refine ⟨?_, hpi⟩
    by_contra hn
    rw [DirTree.node_of_le (by rw [hb.length]; omega)] at hp
    cases hp
  refine ⟨⟨halive 0 h.pos, (hparent 0).trans h.root.1⟩, (hdepth 0 h.pos).trans h.root.2, ?_, ?_, ?_, ?_, ?_, ?_⟩
  · rw [hb.parentOf]; exact h.down
  · intro i hi hl
    obtain ⟨p, -, hp, -⟩ := h.below i hi (hb.length ▸ hl)
    exact ⟨p, (hparent i).trans hp⟩
  · intro i p hp
    obtain ⟨hi, hpi⟩ := hsome i p hp
    have hpos : 0 < i := by omega
    obtain ⟨q, -, hq, hd, -⟩ := h.below i hpos hi
    rw [hparent, hq] at hp
    cases hp
    rw [hdepth i hi, hdepth p (by omega), hd]
  · intro i hi j hj
    rw [hkids i (hlt hi)] at hj
    obtain ⟨hjl, hjp⟩ := mem_childrenOf.1 hj
    exact ⟨halive j hjl, (hparent j).trans hjp⟩
  · intro i p _ hp
    obtain ⟨hi, hpi⟩ := hsome i p hp
    have hpl : p < nodes.length := Nat.lt_trans hpi hi
    refine ⟨halive p hpl, ?_⟩
    rw [hkids p hpl]
    exact mem_childrenOf.2 ⟨hi, (hparent i).symm.trans hp⟩
  · intro i hi
    rw [hkids i (hlt hi)]
    refine (childrenOf_sorted h i).imp_of_mem fun {a b} ha hb' hab => ?_
    rw [hname a (mem_childrenOf.1 ha).1, hname b (mem_childrenOf.1 hb').1]
    exact hab

theorem Built.properNames (hb : Built nodes tallies t) (h : Arena nodes) : t.ProperNames := by
  intro i hi hpos
  have hl : i < nodes.length := hb.length ▸ DirTree.lt_of_alive hi
  obtain ⟨p, -, -, -, hn⟩ := h.below i hpos hl
  rw [hb.node i hl]
  exact hn

/-! ## The roll-up -/

theorem Built.overChildren (hb : Built nodes tallies t) {i : Nat} (hi : i < nodes.length) (f : DirNode → Int) :
    t.overChildren i f = ∑ j ∈ Finset.range nodes.length, if parentIn nodes j = some i then f (t.node j) else 0 := by
  unfold DirTree.overChildren
  rw [hb.node i hi]
  exact sum_childrenOf nodes i fun j => f (t.node j)

open Classical in
/-- Up to the limit, a directory's `sub` adds up what was gathered at and below it. -/
theorem Built.capped_sub (hb : Built nodes tallies t) (h : Arena nodes) {i : Nat} (hi : i < nodes.length) (c : Component) :
    min ((t.node i).sub.get c) u64Max =
      min (∑ j ∈ Finset.range nodes.length, if Above (parentIn nodes) i j then
        ((tallies j).direct.add (tallies j).below).get c else 0) u64Max := by
  have hlen : nodes.length - 1 + 1 = nodes.length := by have := h.pos; omega
  have hsum := rollUp_eq_sum h.down (k := nodes.length - 1) (v := i)
    (fun j => ((tallies j).direct.add (tallies j).below).get c) (by omega)
  rw [hlen] at hsum
  rw [← hsum, hb.sub i hi,
    rollUp_map (fun p : Tally × Int => min (p.1.get c) u64Max) (g := fun a b => min (a + b) u64Max) (fun a b => ?_),
    rollUp_map (fun x : Nat => min x u64Max) (g := fun a b => min (a + b) u64Max) (fun a b => ?_)]
  · rfl
  · omega
  · have := Tally.capped_get_add a.1 b.1 c
    show min ((a.1.add b.1).get c) u64Max = _
    omega

/-- As long as the root's total does not saturate, a directory's surplus is what untracked directories
below it hold. -/
theorem Built.surplus (hb : Built nodes tallies t) (h : Arena nodes) {c : Component} (hroot : (t.node 0).sub.get c < u64Max)
    {i : Nat} (hi : i < nodes.length) : t.surplus i c = (tallies i).below.get c := by
  classical
  let g (j : Nat) : Nat := ((tallies j).direct.add (tallies j).below).get c
  let S (v : Nat) : Nat := ∑ j ∈ Finset.range nodes.length, if Above (parentIn nodes) v j then g j else 0
  have hcap : ∀ v < nodes.length, min ((t.node v).sub.get c) u64Max = min (S v) u64Max := fun v hv => hb.capped_sub h hv c
  have hle : ∀ v, S v ≤ S 0 := by
    intro v
    refine Finset.sum_le_sum fun j hj => ?_
    have ha : Above (parentIn nodes) 0 j := by
      have := (hb.shape h).root_above (i := j) (by rw [hb.length]; exact Finset.mem_range.1 hj)
      rwa [hb.parentOf] at this
    rw [if_pos ha]
    split
    · exact Nat.le_refl _
    · exact Nat.zero_le _
  have hS0 := hcap 0 h.pos
  have hsub : ∀ v < nodes.length, (t.node v).sub.get c = S v := by
    intro v hv
    have h1 := hcap v hv
    have h2 := hle v
    omega
  have hlen : nodes.length - 1 + 1 = nodes.length := by have := h.pos; omega
  have hsplit := sum_above_children h.down (v := i) (k := nodes.length - 1) (by omega) g
  rw [hlen] at hsplit
  have hsplit' : S i = g i + ∑ j ∈ Finset.range nodes.length, if parentIn nodes j = some i then S j else 0 := hsplit
  have hg : g i = (tallies i).direct.get c + (tallies i).below.get c := by
    have h1 := Tally.capped_get_add (tallies i).direct (tallies i).below c
    have h2 := hle i
    have h3 : g i ≤ S i := by rw [hsplit']; exact Nat.le_add_right _ _
    show ((tallies i).direct.add (tallies i).below).get c = _
    have h4 : ((tallies i).direct.add (tallies i).below).get c ≤ S i := h3
    omega
  have hkids : t.overChildren i (fun n => n.sub.get c) =
      ((∑ j ∈ Finset.range nodes.length, if parentIn nodes j = some i then S j else 0 : Nat) : Int) := by
    have hcast : ∀ (l : Finset Nat) (f : Nat → Nat), ((∑ j ∈ l, f j : Nat) : Int) = ∑ j ∈ l, (f j : Int) := fun l f =>
      map_sum (Nat.castAddMonoidHom Int) f l
    rw [hb.overChildren hi, hcast]
    refine Finset.sum_congr rfl fun j hj => ?_
    split
    · rw [hsub j (Finset.mem_range.1 hj)]
    · rfl
  have hdirect : (t.node i).direct = (tallies i).direct := by rw [hb.node i hi]; rfl
  unfold DirTree.surplus
  rw [hkids, hsub i hi, hdirect]
  omega

end Built

/-! ## The merged data of the workers -/

theorem capped_mergeTally (workers : List Worker) (j : Nat) (direct : Bool) (c : Component) :
    min (((Worker.mergeTally workers j).part direct).get c) u64Max =
      min (workers.map fun d => ((d.tallies j).part direct).get c).sum u64Max := by
  have hfold : ∀ (workers : List Worker) (t : NodeTally), min (((workers.foldl (fun t w =>
      { direct := t.direct.add (w.tallies j).direct, below := t.below.add (w.tallies j).below
        newest := max t.newest (w.tallies j).newest }) t : NodeTally).part direct).get c) u64Max =
      min ((t.part direct).get c + (workers.map fun d => ((d.tallies j).part direct).get c).sum) u64Max := by
    intro workers
    induction workers with
    | nil => intro t; simp
    | cons d workers ih =>
      intro t
      have hadd : ∀ newest, min (((NodeTally.mk (t.direct.add (d.tallies j).direct) (t.below.add (d.tallies j).below) newest).part direct).get c)
          u64Max = min ((t.part direct).get c + ((d.tallies j).part direct).get c) u64Max := by
        intro newest
        cases direct <;> exact Tally.capped_get_add _ _ c
      have hadd := hadd (max t.newest (d.tallies j).newest)
      rw [List.foldl_cons, ih, List.map_cons, List.sum_cons]
      omega
  have h := hfold workers {}
  have hzero : (NodeTally.part {} direct).get c = 0 := by cases direct <;> exact Tally.get_default c
  rw [hzero, Nat.zero_add] at h
  exact h

/-- What the winning links add to a part of directory `j`'s tally. -/
def wonIn (winners : List (Inode × Nat × Link)) (j : Nat) (direct : Bool) (c : Component) : Nat :=
  (winners.map fun e => if e.2.2.node = j ∧ e.2.2.direct = direct then sizeAt e.2.2.blocks e.2.2.apparent c else 0).sum

/-- What the winning links add to the `direct` of directory `j`. -/
def wonBy (winners : List (Inode × Nat × Link)) (j : Nat) (c : Component) : Nat :=
  (winners.map fun e => if e.2.2.node = j ∧ e.2.2.direct = true then sizeAt e.2.2.blocks e.2.2.apparent c else 0).sum

theorem capped_addWinners (winners : List (Inode × Nat × Link)) (tallies : Nat → NodeTally) (j : Nat) (direct : Bool) (c : Component) :
    min ((((winners.foldl (fun tallies e => addWinner tallies e.2.2) tallies) j).part direct).get c) u64Max =
      min (((tallies j).part direct).get c + wonIn winners j direct c) u64Max := by
  induction winners generalizing tallies with
  | nil => simp [wonIn]
  | cons e winners ih =>
    have hwon : wonIn (e :: winners) j direct c =
        (if e.2.2.node = j ∧ e.2.2.direct = direct then sizeAt e.2.2.blocks e.2.2.apparent c else 0) + wonIn winners j direct c := by
      simp [wonIn]
    have hone : min (((addWinner tallies e.2.2 j).part direct).get c) u64Max = min (((tallies j).part direct).get c +
        if e.2.2.node = j ∧ e.2.2.direct = direct then sizeAt e.2.2.blocks e.2.2.apparent c else 0) u64Max := by
      unfold addWinner
      rw [Function.update_apply]
      by_cases hj : j = e.2.2.node
      · subst hj
        rw [if_pos rfl]
        unfold NodeTally.modifyPart NodeTally.part
        cases he : e.2.2.direct <;> cases direct <;> simp [Tally.capped_get_addSize]
      · rw [if_neg hj, if_neg fun h => hj h.1.symm, Nat.add_zero]
    rw [List.foldl_cons, ih, hwon]
    omega

theorem get_mergeLinks : ∀ (offset : Nat) (workers : List Worker) (winners : Table Inode (Nat × Link)) {inode : Inode}
    {winner : Nat × Link}, (Worker.mergeLinks offset workers winners).get inode = some winner →
    winners.get inode = some winner ∨ ∃ d ∈ workers, d.links.get inode = some winner.2
  | _, [], _, _, _, h => .inl h
  | offset, d :: workers, winners, inode, winner, h => by
    have hfold : ∀ (l : List (Inode × Link)) (winners : Table Inode (Nat × Link)),
        (l.foldl (fun winners e => keepLowest winners e.1 (offset, e.2) fun link => link.2.key) winners).get inode = some winner →
        winners.get inode = some winner ∨ (inode, winner.2) ∈ l := by
      intro l
      induction l with
      | nil => intro winners h; exact .inl h
      | cons e l ih =>
        intro winners h
        rw [List.foldl_cons] at h
        rcases ih _ h with h | h
        · rcases get_keepLowest h with h | ⟨rfl, rfl⟩
          · exact .inl h
          · exact .inr (List.mem_cons_self ..)
        · exact .inr (List.mem_cons_of_mem _ h)
    rw [Worker.mergeLinks] at h
    rcases get_mergeLinks (offset + d.entries.length) workers _ h with h | ⟨d', hd', h⟩
    · rcases hfold _ _ h with h | h
      · exact .inl h
      · exact .inr ⟨d, List.mem_cons_self .., Table.get_eq_some.2 h⟩
    · exact .inr ⟨d', List.mem_cons_of_mem _ hd', h⟩

/-- The files a finished walk has an owner for are those won in a tracked directory. -/
theorem links_of_finish {w : Walk} {nodes : List TrackedNode} {workers : List Worker} {t : DirTree}
    (ht : (finish w nodes workers).tree = some t) :
    t.links = Table.ofList ((Worker.mergeLinks 0 workers .empty).entries.filterMap fun e =>
        if e.2.2.direct then some (e.1, linkOwner workers e.1 e.2.2) else none) ∧
      (((Worker.mergeLinks 0 workers .empty).entries.filterMap fun e =>
        if e.2.2.direct then some (e.1, linkOwner workers e.1 e.2.2) else none).map Prod.fst).Nodup := by
  obtain ⟨u, hu, hut⟩ := Option.map_eq_some_iff.1 ht
  obtain ⟨-, hlk, -, -⟩ := built_of_buildTree hu
  refine ⟨by rw [← hut]; exact hlk, (Worker.mergeLinks 0 workers .empty).nodup.sublist ?_⟩
  have hsub : ∀ l : List (Inode × Nat × Link), ((l.filterMap fun e =>
      if e.2.2.direct then some (e.1, linkOwner workers e.1 e.2.2) else none).map Prod.fst).Sublist (l.map Prod.fst) := by
    intro l
    induction l with
    | nil => exact List.Sublist.slnil
    | cons e l ih =>
      rw [List.filterMap_cons]
      cases e.2.2.direct with
      | true => exact ih.cons_cons _
      | false => exact ih.cons _
  exact hsub _

/-- They hold no more than all files won. -/
theorem linked_of_finish {w : Walk} {nodes : List TrackedNode} {workers : List Worker} {t : DirTree}
    (ht : (finish w nodes workers).tree = some t) (c : Component) : t.linked c ≤
      (((Worker.mergeLinks 0 workers .empty).entries.map fun e => sizeAt e.2.2.blocks e.2.2.apparent c).sum : Nat) := by
  obtain ⟨hlk, hnodup⟩ := links_of_finish ht
  unfold DirTree.linked
  rw [hlk, Table.total_ofList hnodup]
  induction (Worker.mergeLinks 0 workers .empty).entries with
  | nil => exact le_rfl
  | cons e l ih =>
    rw [List.filterMap_cons, List.map_cons, List.sum_cons, Nat.cast_add]
    cases e.2.2.direct with
    | true =>
      simp only [if_true, List.map_cons, List.sum_cons]
      exact Int.add_le_add le_rfl ih
    | false =>
      simp only [Bool.false_eq_true, if_false]
      have hpos : (0 : Int) ≤ (sizeAt e.2.2.blocks e.2.2.apparent c : Nat) := Int.natCast_nonneg _
      omega

/-- A directory owns the files its links won. -/
theorem owned_of_finish {w : Walk} {nodes : List TrackedNode} {workers : List Worker} {t : DirTree}
    (ht : (finish w nodes workers).tree = some t) (j : Nat) (c : Component) :
    t.owned j c = wonBy (Worker.mergeLinks 0 workers .empty).entries j c := by
  obtain ⟨hlk, hnodup⟩ := links_of_finish ht
  unfold DirTree.owned wonBy
  rw [hlk, Table.total_ofList hnodup]
  induction (Worker.mergeLinks 0 workers .empty).entries with
  | nil => rfl
  | cons e l ih =>
    rw [List.filterMap_cons, List.map_cons, List.sum_cons, Nat.cast_add, ← ih]
    -- a winner in an untracked directory is owned by none
    cases hd : e.2.2.direct with
    | true =>
      simp only [if_true, List.map_cons, List.sum_cons, and_true, linkOwner, LinkOwner.size]
      congr 1
      split <;> rfl
    | false => simp

/-- The own inodes of a directory's children are those of the nodes it is the parent of. -/
theorem Built.overChildren_own {nodes : List TrackedNode} {tallies : Nat → NodeTally} {t : DirTree} (hb : Built nodes tallies t) {i : Nat}
    (hi : i < nodes.length) (c : Component) : t.overChildren i (fun n => n.own c) = (ownBelow nodes i c : Int) := by
  have hown : ∀ j < nodes.length, (t.node j).own c = ((nodeIn nodes j).own c : Int) := fun j hj => by
    rw [hb.node j hj]
    rfl
  have hperm : (childrenOf nodes i).Perm ((List.range nodes.length).filter fun j => parentIn nodes j = some i) :=
    (List.perm_insertionSort _ _).trans (List.reverse_perm _)
  have hnodes : nodes = (List.range nodes.length).map (nodeIn nodes) := by
    refine List.ext_getElem (by simp) fun k hk hk' => ?_
    rw [List.getElem_map, List.getElem_range, nodeIn, List.getD_eq_getElem _ _ hk]
  have hcast : ∀ l : List Nat, (l.map fun j => ((nodeIn nodes j).own c : Int)).sum = (((l.map fun j => (nodeIn nodes j).own c).sum : Nat) : Int) := by
    intro l
    induction l with
    | nil => rfl
    | cons j l ih => simp only [List.map_cons, List.sum_cons, ih, Nat.cast_add]
  rw [hb.overChildren hi, Finset.sum_congr rfl fun j hj => show (if parentIn nodes j = some i then (t.node j).own c else 0) =
    if parentIn nodes j = some i then ((nodeIn nodes j).own c : Int) else 0 by rw [hown j (Finset.mem_range.1 hj)]]
  rw [← sum_childrenOf nodes i fun j => ((nodeIn nodes j).own c : Int), (hperm.map _).sum_eq]
  unfold ownBelow
  conv_rhs => rw [hnodes]
  rw [List.filter_map, List.map_map]
  exact hcast _

/-- The tree of a finished walk is fresh. -/
theorem fresh_of_finish {w : Walk} {nodes : List TrackedNode} {workers : List Worker} {t : DirTree} (h : Arena nodes)
    (hlinks : ∀ d ∈ workers, LinksIn d nodes.length)
    (hcov : ∀ j c, min (ownBelow nodes j c) u64Max ≤ (workers.map fun d => min ((d.tallies j).direct.get c) u64Max).sum)
    (ht : (finish w nodes workers).tree = some t) : Fresh t := by
  let winners := Worker.mergeLinks 0 workers .empty
  let tallies := winners.entries.foldl (fun tallies e => addWinner tallies e.2.2) (Worker.mergeTally workers)
  let owned := winners.entries.filterMap fun e => if e.2.2.direct then some (e.1, linkOwner workers e.1 e.2.2) else none
  obtain ⟨u, hu, hut⟩ := Option.map_eq_some_iff.1 ht
  obtain ⟨hb, -, hcl, -⟩ := built_of_buildTree hu
  have hb : Built nodes tallies t := by rw [← hut]; exact ⟨hb.length, hb.node, hb.sub, hb.unsealed⟩
  obtain ⟨hlk, hnodup⟩ : t.links = Table.ofList owned ∧ (owned.map Prod.fst).Nodup := links_of_finish ht
  have hshape := hb.shape h
  refine ⟨hshape, hb.properNames h, fun i hi => ?_, fun inode owner ho => ?_, fun i hi c hd => ?_, fun c hc i hi => ?_, ?_⟩
  · rw [hb.node i (hb.length ▸ hi)]; rfl
  · rw [hlk] at ho
    obtain ⟨e, he, heq⟩ := List.mem_filterMap.1 (Table.mem_of_get_ofList ho)
    split at heq
    · cases heq
      rcases get_mergeLinks 0 workers .empty (Table.get_eq_some.2 he) with hg | ⟨d, hd, hg⟩
      · rw [Table.get_empty] at hg; cases hg
      · rw [hb.length]
        exact hlinks d hd _ _ hg
    · cases heq
  · rw [hb.length] at hi
    have hdirect : (t.node i).direct = (tallies i).direct := by rw [hb.node i hi]; rfl
    have h1 : min ((((winners.entries.foldl (fun tallies e => addWinner tallies e.2.2) (Worker.mergeTally workers)) i).direct.get c)) u64Max =
        min ((Worker.mergeTally workers i).direct.get c + wonBy winners.entries i c) u64Max :=
      capped_addWinners winners.entries (Worker.mergeTally workers) i true c
    have h2 : min ((Worker.mergeTally workers i).direct.get c) u64Max = min (workers.map fun d => (d.tallies i).direct.get c).sum u64Max :=
      capped_mergeTally workers i true c
    have h3 := hcov i c
    have h4 : (workers.map fun d => min ((d.tallies i).direct.get c) u64Max).sum ≤ (workers.map fun d => (d.tallies i).direct.get c).sum :=
      List.sum_le_sum fun d _ => Nat.min_le_left _ _
    rw [hdirect] at hd
    have hd' : ((winners.entries.foldl (fun tallies e => addWinner tallies e.2.2) (Worker.mergeTally workers)) i).direct.get c < u64Max := hd
    unfold DirTree.rest
    rw [hb.overChildren_own hi, show t.owned i c = wonBy winners.entries i c from owned_of_finish ht i c, hdirect]
    show (ownBelow nodes i c : Int) ≤ (((winners.entries.foldl (fun tallies e => addWinner tallies e.2.2) (Worker.mergeTally workers)) i).direct.get c : Int) - _
    omega
  · rw [hb.length] at hi
    rw [hb.surplus h hc hi]
    refine ⟨Int.natCast_nonneg _, fun hs => ?_⟩
    rw [hb.unsealed i hi hs, Tally.get_default]
    rfl
  · rw [← hut]; exact hcl

end Walk

end StorageHarvester
