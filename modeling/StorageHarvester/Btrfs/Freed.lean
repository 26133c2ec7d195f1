/-
What the sharing pass means. Every extent and every piece of inline data is charged to the lowest
directory that holds all its references, and what deleting a directory frees is the sum of what is
referred to from its subtree alone.
-/
import StorageHarvester.Btrfs.Settle

namespace StorageHarvester.Btrfs

open Forest

/-! ## What is charged where -/

/-- All of `refs` lie in directories of the tree at or below `n`. -/
def Within (parent : Nat → Option Nat) (refs : List (Option Nat)) (n : Nat) : Prop := ∀ r ∈ refs, AboveOpt parent n r

/-- `n` is the lowest directory that all of `refs` lie at or below. -/
def Lowest (parent : Nat → Option Nat) (refs : List (Option Nat)) (n : Nat) : Prop :=
  Within parent refs n ∧ ∀ c, Within parent refs c → Above parent c n

/-- The directories the extent at `bytenr` is referred to from. -/
def extentReferrers (s : Skeleton) (items : List Item) (bytenr : Nat) : List (Option Nat) :=
  items.flatMap fun item => match item.onDisk with
    | some (b, _) => if b = bytenr then referrers s items item.key.objectid else []
    | none => []

/-- Every extent and every piece of inline data, with its references and its bytes. An extent counts
in whole 4 KiB units, at most `u32::MAX` of them. -/
def charges (s : Skeleton) (items : List Item) : List (List (Option Nat) × Nat) :=
  ((items.filterMap Item.onDisk).dedup.map fun e => (extentReferrers s items e.1, e.2 * 4096)) ++
    (items.filterMap Item.inlined).map fun e => (referrers s items e.1, e.2)

open Classical in
/-- The bytes of the charges whose references are as `P` says. -/
noncomputable def charged (charges : List (List (Option Nat) × Nat)) (P : List (Option Nat) → Prop) : Nat :=
  (charges.map fun e => if P e.1 then e.2 else 0).sum

/-- All items of one extent give the same size. -/
def SameExtents (items : List Item) : Prop :=
  ∀ i ∈ items, ∀ j ∈ items, ∀ e ∈ i.onDisk, ∀ e' ∈ j.onDisk, e.1 = e'.1 → e.2 = e'.2

instance (items : List Item) : Decidable (SameExtents items) := inferInstanceAs (Decidable (∀ i ∈ items, _))

/-- The fold of meets finds the lowest common directory. -/
theorem commonOf_eq_some (s : Skeleton) {refs : List (Option Nat)} (hr : refs ≠ []) (n : Nat) :
    s.commonOf refs = some n ↔ Lowest s.parent refs n := by
  have hc : ∀ c, AboveOpt s.parent c (s.commonOf refs) ↔ Within s.parent refs c := fun c => by
    rw [s.aboveOpt_commonOf]
    exact ⟨fun h => h.2, fun h => ⟨hr, h⟩⟩
  constructor
  · intro h
    rw [h] at hc
    exact ⟨(hc n).1 .refl, fun c => (hc c).2⟩
  · intro h
    refine aboveOpt_inj s.down fun c => ?_
    rw [hc]
    exact ⟨fun hw => h.2 c hw, fun ha r hr => by
      have := h.1 r hr
      cases r with
      | none => exact this
      | some i => exact Above.trans ha this⟩

/-! ## Each directory's own -/

section Alone

variable {s : Skeleton} {items : List Item} {chunk : Nat}

theorem mem_extentReferrers {bytenr : Nat} {d : Option Nat} : d ∈ extentReferrers s items bytenr ↔
    ∃ item ∈ items, ∃ pages, item.onDisk = some (bytenr, pages) ∧ d ∈ referrers s items item.key.objectid := by
  unfold extentReferrers
  rw [List.mem_flatMap]
  refine exists_congr fun item => and_congr_right fun _ => ?_
  cases item.onDisk with
  | none => simp
  | some e =>
    obtain ⟨b, p⟩ := e
    by_cases hb : b = bytenr <;> simp [hb]

/-- The merged references. -/
def mergedRefs (s : Skeleton) (chunk : Nat) (items : List Item) : List Ref := Heap.merge Ref.lt (collect s chunk items).chunks

theorem mem_mergedRefs (ho : Ordered items) {r : Ref} : r ∈ mergedRefs s chunk items ↔
    ∃ item ∈ items, item.onDisk = some (r.bytenr, r.pages) ∧ r.node ∈ referrers s items item.key.objectid := by
  rw [mergedRefs, (Heap.merge_perm _ _).mem_iff]
  exact (chunks_spec s chunk ho).2 r

theorem extentsOf_mergedRefs (ho : Ordered items) :
    extentsOf (mergedRefs s chunk items) = (items.filterMap Item.onDisk).dedup.toFinset := by
  ext ⟨b, p⟩
  rw [mem_extentsOf, List.mem_toFinset, List.mem_dedup, List.mem_filterMap]
  constructor
  · rintro ⟨r, hr, he⟩
    obtain ⟨item, hi, hon, -⟩ := (mem_mergedRefs ho).1 hr
    exact ⟨item, hi, by rw [hon, ← he]⟩
  · rintro ⟨item, hi, hon⟩
    obtain ⟨d, hd⟩ := List.exists_mem_of_ne_nil _ (referrers_ne_nil s items item.key.objectid)
    exact ⟨⟨b, d, p⟩, (mem_mergedRefs ho).2 ⟨item, hi, hon, hd⟩, rfl⟩

theorem mem_nodesOf_mergedRefs (ho : Ordered items) {bytenr : Nat} {d : Option Nat} :
    d ∈ nodesOf (mergedRefs s chunk items) bytenr ↔ d ∈ extentReferrers s items bytenr := by
  rw [mem_nodesOf, mem_extentReferrers]
  constructor
  · rintro ⟨r, hr, rfl, rfl⟩
    obtain ⟨item, hi, hon, hd⟩ := (mem_mergedRefs ho).1 hr
    exact ⟨item, hi, r.pages, hon, hd⟩
  · rintro ⟨item, hi, pages, hon, hd⟩
    exact ⟨⟨bytenr, d, pages⟩, (mem_mergedRefs ho).2 ⟨item, hi, hon, hd⟩, rfl, rfl⟩

open Classical in
theorem share_mergedRefs (ho : Ordered items) (n : Nat) {e : Nat × Nat} (he : e ∈ items.filterMap Item.onDisk) :
    share s (mergedRefs s chunk items) n e = if Lowest s.parent (extentReferrers s items e.1) n then e.2 * 4096 else 0 := by
  obtain ⟨item, hi, hon⟩ := List.mem_filterMap.1 he
  obtain ⟨d, hd⟩ := List.exists_mem_of_ne_nil _ (referrers_ne_nil s items item.key.objectid)
  have hne : extentReferrers s items e.1 ≠ [] := List.ne_nil_of_mem (mem_extentReferrers.2 ⟨item, hi, e.2, hon, hd⟩)
  unfold share
  rw [s.commonOf_congr fun d => mem_nodesOf_mergedRefs ho]
  simp only [commonOf_eq_some s hne]

open Classical in
theorem sum_inlineShare (s : Skeleton) (all : List Item) (n : Nat) : ∀ items : List Item,
    (items.map (inlineShare s all n)).sum =
      ((items.filterMap Item.inlined).map fun e => if Lowest s.parent (referrers s all e.1) n then e.2 else 0).sum
  | [] => rfl
  | item :: items => by
    rw [List.map_cons, List.sum_cons, sum_inlineShare s all n items, List.filterMap_cons]
    unfold inlineShare
    cases item.inlined with
    | none => simp
    | some e =>
      simp only [List.map_cons, List.sum_cons, commonOf_eq_some s (referrers_ne_nil s all e.1)]

/-- Each directory is left with what is charged to it. -/
theorem alone_eq_charged (ho : Ordered items) (hs : SameExtents items) (n : Nat) :
    (sharing s chunk items).alone n = charged (charges s items) (fun refs => Lowest s.parent refs n) % 2 ^ 64 := by
  classical
  have hsame : SameSize (mergedRefs s chunk items) := fun r hr r' hr' hb => by
    obtain ⟨i, hi, hon, -⟩ := (mem_mergedRefs ho).1 hr
    obtain ⟨j, hj, hon', -⟩ := (mem_mergedRefs ho).1 hr'
    exact hs i hi j hj _ hon _ hon' hb
  have hmain := settle_all s { alone := (collect s chunk items).alone, disk := (collect s chunk items).disk } rfl rfl
    (gathered_collect s chunk ho).alone (Heap.merge_sorted Ref.strictWeak (chunks_spec s chunk ho).1) hsame n
  refine hmain.trans (congrArg (· % 2 ^ 64) ?_)
  change _ + ∑ e ∈ extentsOf (mergedRefs s chunk items), share s (mergedRefs s chunk items) n e = _
  rw [extentsOf_mergedRefs ho, List.sum_toFinset _ (List.nodup_dedup _), sum_inlineShare, add_comm]
  unfold charged charges
  rw [List.map_append, List.sum_append, List.map_map, List.map_map]
  congr 2
  exact List.map_congr_left fun e he => share_mergedRefs ho n (List.mem_dedup.1 he)

end Alone

/-! ## Subtrees -/

section Freed

variable {s : Skeleton}

/-- References that lie in directories the tree holds. -/
def Known (s : Skeleton) (refs : List (Option Nat)) : Prop := refs ≠ [] ∧ ∀ i, some i ∈ refs → i < s.size

theorem known_referrers (s : Skeleton) (items : List Item) (inode : Nat) : Known s (referrers s items inode) := by
  refine ⟨referrers_ne_nil s items inode, fun i hi => ?_⟩
  unfold referrers at hi
  split at hi
  · simp at hi
  · obtain ⟨item, -, -, hd⟩ := mem_linkHolders.1 hi
    obtain ⟨l, -, hl⟩ := List.mem_map.1 hd
    unfold Skeleton.holder at hl
    split at hl
    · cases hl
    · rename_i node hk
      split at hl
      · split at hl
        · cases hl
        · cases hl; exact s.known _ _ hk
      · cases hl; exact s.known _ _ hk

theorem known_charges (s : Skeleton) (items : List Item) : ∀ e ∈ charges s items, Known s e.1 := by
  intro e he
  rcases List.mem_append.1 he with he | he
  · obtain ⟨⟨b, p⟩, hx, rfl⟩ := List.mem_map.1 he
    obtain ⟨item, hi, hon⟩ := List.mem_filterMap.1 (List.mem_dedup.1 hx)
    obtain ⟨d, hd⟩ := List.exists_mem_of_ne_nil _ (referrers_ne_nil s items item.key.objectid)
    refine ⟨List.ne_nil_of_mem (mem_extentReferrers.2 ⟨item, hi, p, hon, hd⟩), fun i hi => ?_⟩
    obtain ⟨item', -, -, -, hd'⟩ := mem_extentReferrers.1 hi
    exact (known_referrers s items _).2 i hd'
  · obtain ⟨x, -, rfl⟩ := List.mem_map.1 he
    exact known_referrers s items x.1

open Classical in
/-- What lies within a subtree is charged to exactly one directory of it. -/
theorem sum_lowest {refs : List (Option Nat)} (hk : Known s refs) (n bytes : Nat) :
    (∑ j ∈ Finset.range s.size, if Above s.parent n j then (if Lowest s.parent refs j then bytes else 0) else 0) =
      if Within s.parent refs n then bytes else 0 := by
  by_cases hw : Within s.parent refs n
  · have hn := (s.aboveOpt_commonOf n refs).2 ⟨hk.1, hw⟩
    cases hc : s.commonOf refs with
    | none => rw [hc] at hn; exact hn.elim
    | some j =>
      rw [hc] at hn
      have hj : Lowest s.parent refs j := (commonOf_eq_some s hk.1 j).1 hc
      obtain ⟨d, hd⟩ := List.exists_mem_of_ne_nil _ hk.1
      have hjd := hj.1 d hd
      have hsize : j < s.size := by
        cases d with
        | none => exact hjd.elim
        | some i => exact Nat.lt_of_le_of_lt (Above.le s.down hjd) (hk.2 i hd)
      rw [if_pos hw, Finset.sum_eq_single j, if_pos (show Above s.parent n j from hn), if_pos hj]
      · intro k _ hkj
        rw [if_neg (c := Lowest s.parent refs k), ite_self]
        exact fun hl => hkj (Above.antisymm s.down (hj.2 k hl.1) (hl.2 j hj.1))
      · exact fun hx => absurd (Finset.mem_range.2 hsize) hx
  · rw [if_neg hw]
    refine Finset.sum_eq_zero fun j _ => ?_
    split
    · rename_i ha
      rw [if_neg]
      intro hl
      refine hw fun r hr => ?_
      have := hl.1 r hr
      cases r with
      | none => exact this
      | some i => exact Above.trans ha this
    · rfl

open Classical in
theorem sum_charged (n : Nat) : ∀ {l : List (List (Option Nat) × Nat)}, (∀ e ∈ l, Known s e.1) →
    (∑ j ∈ Finset.range s.size, if Above s.parent n j then charged l (fun refs => Lowest s.parent refs j) else 0) =
      charged l fun refs => Within s.parent refs n
  | [], _ => by simp [charged]
  | e :: l, h => by
    have ih := sum_charged n fun x hx => h x (List.mem_cons_of_mem _ hx)
    have hcons : ∀ P, charged (e :: l) P = (if P e.1 then e.2 else 0) + charged l P := fun P => by
      unfold charged; rw [List.map_cons, List.sum_cons]
    rw [hcons, ← ih, ← sum_lowest (h e (List.mem_cons_self ..)) n e.2, ← Finset.sum_add_distrib]
    refine Finset.sum_congr rfl fun j _ => ?_
    split
    · exact hcons _
    · rfl

/-- What the backwards pass gives a directory, when every directory holds what is charged to it. -/
theorem freed_eq_charged {l : List (List (Option Nat) × Nat)} (h : ∀ e ∈ l, Known s e.1) {alone : Nat → Nat}
    (ha : ∀ i, alone i = charged l (fun refs => Lowest s.parent refs i) % 2 ^ 64) {n : Nat} (hn : n < s.size) :
    freed s alone n = charged l (fun refs => Within s.parent refs n) % 2 ^ 64 := by
  classical
  have hmap := @rollUp_map s.parent Nat Nat (· + ·) wrapAdd (fun x => x % 2 ^ 64) (fun a b => Nat.add_mod a b (2 ^ 64))
    (s.size - 1) (fun i => charged l fun refs => Lowest s.parent refs i) n
  unfold freed
  rw [funext ha, ← hmap, rollUp_eq_sum s.down _ (by omega), show s.size - 1 + 1 = s.size by omega]
  exact congrArg (· % 2 ^ 64) (sum_charged n h)

end Freed

/-- The sharing pass settles every extent and every piece of inline data at the lowest directory that
holds all its references, for every order of references the chunks make, and a directory frees what
is referred to from its subtree alone. -/
theorem sharing_settles (s : Skeleton) (chunk : Nat) {items : List Item} (ho : Ordered items) (hs : SameExtents items) :
    (∀ n, (sharing s chunk items).alone n = charged (charges s items) (fun refs => Lowest s.parent refs n) % 2 ^ 64) ∧
      ∀ n < s.size, freed s (sharing s chunk items).alone n =
        charged (charges s items) (fun refs => Within s.parent refs n) % 2 ^ 64 :=
  ⟨alone_eq_charged ho hs, fun _ hn => freed_eq_charged (known_charges s items) (alone_eq_charged ho hs) hn⟩

/-! ## On a small tree -/

/-- Directories 1 and 2 in the root, with inode numbers 256, 257 and 258. -/
def smallSkeleton : Skeleton where
  size := 3
  parent i := if i = 1 ∨ i = 2 then some 0 else none
  depth i := if i = 1 ∨ i = 2 then 1 else 0
  byIno ino := if ino = 256 then some 0 else if ino = 257 then some 1 else if ino = 258 then some 2 else none
  pruned _ := none
  exclude _ := false
  down := fun i p hp => by
    dsimp only at hp
    split at hp <;> cases hp
    omega
  depth_root := fun i hi => by
    split at hi
    · cases hi
    · rename_i h; exact if_neg h
  depth_child := fun i p hp => by
    split at hp <;> cases hp
    rename_i h
    simp [h]
  known := fun ino i hi => by
    split at hi
    · cases hi; decide
    · split at hi
      · cases hi; decide
      · split at hi <;> cases hi
        decide

/-- An item naming an inode `a` in directory `dir`. -/
def nameItem (inode dir : Nat) : Item where
  key := ⟨inode, inodeRef, dir⟩
  data := [0, 0, 0, 0, 0, 0, 0, 0, 1, 0, 97]

/-- An item of the extent at 4096, with the bytes of its size. -/
def extentItem (inode : Nat) (size : Bytes) : Item where
  key := ⟨inode, extentData, 0⟩
  data := List.replicate 20 0 ++ [1] ++ [0, 16, 0, 0, 0, 0, 0, 0] ++ size

/-- Two files, in directories 1 and 2, that share an extent of 8192 bytes. -/
def sharedItems : List Item :=
  [nameItem 300 257, extentItem 300 [0, 32, 0, 0, 0, 0, 0, 0], nameItem 301 258, extentItem 301 [0, 32, 0, 0, 0, 0, 0, 0]]

theorem sharing_settles_shared :
    ((∀ n, (sharing smallSkeleton 1 sharedItems).alone n =
        charged (charges smallSkeleton sharedItems) (fun refs => Lowest smallSkeleton.parent refs n) % 2 ^ 64) ∧
      ∀ n < smallSkeleton.size, freed smallSkeleton (sharing smallSkeleton 1 sharedItems).alone n =
        charged (charges smallSkeleton sharedItems) (fun refs => Within smallSkeleton.parent refs n) % 2 ^ 64) ∧
      (sharing smallSkeleton 1 sharedItems).alone 0 = 8192 ∧ (sharing smallSkeleton 1 sharedItems).alone 1 = 0 :=
  ⟨sharing_settles smallSkeleton 1 (by decide) (by decide), by decide, by decide⟩

/-- One file in directory 1 with an extent of 2^45 bytes, more units than an extent counts. -/
def hugeItems : List Item := [nameItem 300 257, extentItem 300 [0, 0, 0, 0, 0, 32, 0, 0]]

theorem huge_extent_capped :
    Ordered hugeItems ∧ SameExtents hugeItems ∧ extentReferrers smallSkeleton hugeItems 4096 = [some 1] ∧
      Lowest smallSkeleton.parent [some 1] 1 ∧ (hugeItems.map fun item => u64At item.data 29) = [0, 2 ^ 45] ∧
      (sharing smallSkeleton 1048576 hugeItems).alone 1 = 2 ^ 44 - 4096 := by
  refine ⟨by decide, by decide, by decide, ⟨fun r hr => ?_, fun c hc => hc (some 1) (by simp)⟩, by decide, by decide⟩
  rw [List.mem_singleton.1 hr]
  exact .refl

end StorageHarvester.Btrfs
