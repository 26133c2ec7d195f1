/-
Which directories the tree JSON lists (the loop of `DirTree::pruned`). The loop is followed round by
round: what is listed stays within the limit and hangs together from the start, each expanded
directory's largest children are taken, and what was left out for want of room filled the limit.
-/
import StorageHarvester.Lib.Traversal
import StorageHarvester.Tree.Pruned

namespace StorageHarvester

open Forest

namespace DirTree

/-! ## Rounds -/

/-- The locals of `pruned`. -/
structure Picking where
  count : Nat
  heap : List Candidate
  listed : Table Nat (List Nat)

/-- The children that are large enough. -/
def eligibleKids (t : DirTree) (minBytes i : Nat) : List Nat :=
  (t.node i).children.filter fun child => max minBytes 1 ≤ (t.node child).totalBlocks

/-- The largest of them, for as many as there is room. -/
def pickedKids (t : DirTree) (minBytes room i : Nat) : List Nat :=
  ((t.eligibleKids minBytes i).insertionSort fun x y => (t.node y).totalBlocks ≤ (t.node x).totalBlocks).take room

/-- One round of the loop, or none when it is over. -/
def round (t : DirTree) (limit depth minBytes base : Nat) (s : Picking) : Option Picking :=
  match Heap.pop Candidate.lt s.heap with
  | none => none
  | some ((_, at_), heap) =>
    if limit ≤ s.count then none
    else if depth ≤ (t.node at_).depth - base then some { s with heap := heap }
    else
      let kids := t.pickedKids minBytes (limit - s.count) at_
      some
        { count := s.count + kids.length
          heap := kids.map (fun child => ((t.node child).totalBlocks, child)) ++ heap
          listed := s.listed.put at_ kids }

/-- Where the loop starts. -/
def firstPicking (t : DirTree) (start : Nat) : Picking :=
  { count := 1, heap := [((t.node start).totalBlocks, start)], listed := .empty }

/-- The rounds from one state to another. -/
inductive Rounds (t : DirTree) (limit depth minBytes base : Nat) (s : Picking) : Picking → Prop
  | refl : Rounds t limit depth minBytes base s s
  | step {s' s'' : Picking} (h : Rounds t limit depth minBytes base s s')
      (hr : t.round limit depth minBytes base s' = some s'') : Rounds t limit depth minBytes base s s''

section Loop

variable {t : DirTree} {limit depth minBytes base : Nat}

theorem Rounds.head {s s' s'' : Picking} (hr : t.round limit depth minBytes base s = some s')
    (h : Rounds t limit depth minBytes base s' s'') : Rounds t limit depth minBytes base s s'' := by
  induction h with
  | refl => exact .step .refl hr
  | step _ hr' ih => exact .step ih hr'

/-- What every round preserves holds after all of them. -/
theorem Rounds.rule {P : Picking → Prop} {s s' : Picking}
    (hstep : ∀ s s', P s → t.round limit depth minBytes base s = some s' → P s')
    (h : Rounds t limit depth minBytes base s s') (hp : P s) : P s' := by
  induction h with
  | refl => exact hp
  | step _ hr ih => exact hstep _ _ ih hr

theorem length_pickedKids_le (minBytes room i : Nat) : (t.pickedKids minBytes room i).length ≤ room := List.length_take_le _ _

/-- With a round for every directory waiting or still to be listed, the loop runs until its rounds
are over. -/
theorem prunedLoop_rounds (t : DirTree) (limit depth minBytes base : Nat) : ∀ (fuel : Nat) (s : Picking),
    s.heap.length + (limit - s.count) ≤ fuel → ∃ s', Rounds t limit depth minBytes base s s' ∧
      t.round limit depth minBytes base s' = none ∧
      t.prunedLoop limit depth minBytes base fuel s.count s.heap s.listed = s'.listed
  | 0, s, hl => by
    have hheap : s.heap = [] := List.length_eq_zero_iff.1 (by omega)
    refine ⟨s, .refl, ?_, rfl⟩
    unfold round
    rw [hheap]
    rfl
  | fuel + 1, s, hl => by
    rw [prunedLoop]
    cases hp : Heap.pop Candidate.lt s.heap with
    | none => exact ⟨s, .refl, by unfold round; rw [hp], rfl⟩
    | some p =>
      obtain ⟨⟨total, at_⟩, heap⟩ := p
      have hlen := (Heap.pop_perm hp).length_eq
      rw [List.length_cons] at hlen
      dsimp only
      by_cases hlim : limit ≤ s.count
      · rw [if_pos hlim]
        exact ⟨s, .refl, by unfold round; rw [hp]; exact if_pos hlim, rfl⟩
      · rw [if_neg hlim]
        by_cases hdeep : depth ≤ (t.node at_).depth - base
        · rw [if_pos hdeep]
          obtain ⟨s', hr, hend, he⟩ := prunedLoop_rounds t limit depth minBytes base fuel { s with heap := heap } (by
            show heap.length + (limit - s.count) ≤ fuel
            omega)
          refine ⟨s', .head ?_ hr, hend, he⟩
          unfold round
          rw [hp]
          simp only [if_neg hlim, if_pos hdeep]
        · rw [if_neg hdeep]
          have hkids := length_pickedKids_le (t := t) minBytes (limit - s.count) at_
          obtain ⟨s', hr, hend, he⟩ := prunedLoop_rounds t limit depth minBytes base fuel
            { count := s.count + (t.pickedKids minBytes (limit - s.count) at_).length
              heap := (t.pickedKids minBytes (limit - s.count) at_).map (fun child => ((t.node child).totalBlocks, child)) ++ heap
              listed := s.listed.put at_ (t.pickedKids minBytes (limit - s.count) at_) } (by
                simp only [List.length_append, List.length_map]
                omega)
          refine ⟨s', .head ?_ hr, hend, he⟩
          unfold round
          rw [hp]
          simp only [if_neg hlim, if_neg hdeep]

/-- A round pops a directory and either passes over it or lists its largest children. -/
theorem round_cases {s s' : Picking} (h : t.round limit depth minBytes base s = some s') :
    ∃ total at_ heap, Heap.pop Candidate.lt s.heap = some ((total, at_), heap) ∧ s.count < limit ∧
      (depth ≤ (t.node at_).depth - base ∧ s' = { s with heap := heap } ∨
        (t.node at_).depth - base < depth ∧ s' =
          { count := s.count + (t.pickedKids minBytes (limit - s.count) at_).length
            heap := (t.pickedKids minBytes (limit - s.count) at_).map (fun child => ((t.node child).totalBlocks, child)) ++ heap
            listed := s.listed.put at_ (t.pickedKids minBytes (limit - s.count) at_) }) := by
  unfold round at h
  split at h
  · cases h
  · rename_i total at_ heap hp
    split at h
    · cases h
    · rename_i hlim
      split at h
      · rename_i hdeep
        cases h
        exact ⟨total, at_, heap, hp, by omega, .inl ⟨hdeep, rfl⟩⟩
      · rename_i hdeep
        cases h
        exact ⟨total, at_, heap, hp, by omega, .inr ⟨by omega, rfl⟩⟩

end Loop

/-! ## The children picked -/

section Kids

variable {t : DirTree} {minBytes room i : Nat}

theorem pickedKids_subperm : (t.pickedKids minBytes room i).Subperm (t.eligibleKids minBytes i) :=
  (List.take_sublist _ _).subperm.trans (List.perm_insertionSort _ _).subperm

theorem mem_eligibleKids {child : Nat} : child ∈ t.eligibleKids minBytes i ↔
    child ∈ (t.node i).children ∧ max minBytes 1 ≤ (t.node child).totalBlocks := by
  simp [eligibleKids]

/-- No eligible child left out is larger than one picked. -/
theorem pickedKids_largest {child kid : Nat} (hc : child ∈ t.eligibleKids minBytes i) (hn : child ∉ t.pickedKids minBytes room i)
    (hk : kid ∈ t.pickedKids minBytes room i) : (t.node child).totalBlocks ≤ (t.node kid).totalBlocks := by
  unfold pickedKids at hn hk
  have hsorted : ((t.eligibleKids minBytes i).insertionSort fun x y => (t.node y).totalBlocks ≤ (t.node x).totalBlocks).Pairwise
      fun x y => (t.node y).totalBlocks ≤ (t.node x).totalBlocks := by
    have : Std.Total fun x y : Nat => (t.node y).totalBlocks ≤ (t.node x).totalBlocks := ⟨fun x y => Nat.le_total _ _⟩
    have : IsTrans Nat fun x y : Nat => (t.node y).totalBlocks ≤ (t.node x).totalBlocks := ⟨fun x y z h h' => Nat.le_trans h' h⟩
    exact List.pairwise_insertionSort _ _
  have hmem : child ∈ (t.eligibleKids minBytes i).insertionSort fun x y => (t.node y).totalBlocks ≤ (t.node x).totalBlocks :=
    (List.perm_insertionSort _ _).mem_iff.2 hc
  rw [← List.take_append_drop room ((t.eligibleKids minBytes i).insertionSort _), List.pairwise_append] at hsorted
  rw [← List.take_append_drop room ((t.eligibleKids minBytes i).insertionSort _)] at hmem
  exact hsorted.2.2 kid hk child ((List.mem_append.1 hmem).resolve_left hn)

/-- Where one is left out, the room is filled. -/
theorem pickedKids_full {child : Nat} (hc : child ∈ t.eligibleKids minBytes i) (hn : child ∉ t.pickedKids minBytes room i) :
    (t.pickedKids minBytes room i).length = room := by
  unfold pickedKids at hn ⊢
  have hmem : child ∈ (t.eligibleKids minBytes i).insertionSort fun x y => (t.node y).totalBlocks ≤ (t.node x).totalBlocks :=
    (List.perm_insertionSort _ _).mem_iff.2 hc
  refine List.length_take_of_le (Nat.le_of_not_lt fun hlt => hn ?_)
  rwa [List.take_of_length_le hlt.le]

end Kids

/-! ## The invariant -/

/-- The loop's invariant: `shown` are the directories listed so far, the start first. -/
structure Selecting (t : DirTree) (start limit depth minBytes : Nat) (shown : List Nat) (s : Picking) : Prop where
  count : s.count = shown.length
  cap : s.count ≤ max limit 1
  nodup : shown.Nodup
  first : start ∈ shown
  below : ∀ i ∈ shown, (t.node i).alive = true ∧ Above t.parentOf start i
  /-- What is listed is large enough, not too deep, and listed under its parent. -/
  child : ∀ i ∈ shown, i ≠ start → max minBytes 1 ≤ (t.node i).totalBlocks ∧
    (t.node i).depth ≤ (t.node start).depth + depth ∧ ∃ p kids, (t.node i).parent = some p ∧ s.listed.get p = some kids ∧ i ∈ kids
  waiting : (s.heap.map Prod.snd).Nodup
  heap : ∀ i ∈ s.heap.map Prod.snd, i ∈ shown ∧ s.listed.get i = none
  /-- An expanded directory lists its largest eligible children, and leaves one out only when the
  limit is reached. -/
  expanded : ∀ i kids, s.listed.get i = some kids → i ∈ shown ∧ (∀ k ∈ kids, k ∈ shown) ∧
    kids.Subperm (t.eligibleKids minBytes i) ∧
    ∀ child ∈ t.eligibleKids minBytes i, child ∉ kids → s.count = limit ∧ ∀ k ∈ kids, (t.node child).totalBlocks ≤ (t.node k).totalBlocks
  /-- What is listed waits, is expanded, or is as deep as asked for. -/
  done : ∀ i ∈ shown, i ∈ s.heap.map Prod.snd ∨ (∃ kids, s.listed.get i = some kids) ∨
    (t.node start).depth + depth ≤ (t.node i).depth

section Invariant

variable {t : DirTree} {start limit depth minBytes : Nat}

theorem selecting_first (hs : (t.node start).alive = true) :
    Selecting t start limit depth minBytes [start] (t.firstPicking start) where
  count := rfl
  cap := Nat.le_max_right _ _
  nodup := List.nodup_singleton _
  first := List.mem_singleton_self _
  below := fun i hi => by rw [List.mem_singleton.1 hi]; exact ⟨hs, .refl⟩
  child := fun i hi hne => absurd (List.mem_singleton.1 hi) hne
  waiting := List.nodup_singleton _
  heap := fun i hi => ⟨hi, rfl⟩
  expanded := fun i kids hk => by simp [firstPicking] at hk
  done := fun i hi => .inl hi

/-- What is listed is at least as deep as the start. -/
theorem depth_of_above (h : Shape t) {a i : Nat} (ha : Above t.parentOf a i) : (t.node a).depth ≤ (t.node i).depth := by
  induction ha with
  | refl => exact le_rfl
  | step hp _ ih =>
    rw [h.depth _ _ hp]
    omega

theorem Selecting.round (h : Shape t) {shown : List Nat} {s s' : Picking} (hi : Selecting t start limit depth minBytes shown s)
    (hr : t.round limit depth minBytes (t.node start).depth s = some s') :
    ∃ shown', Selecting t start limit depth minBytes shown' s' := by
  obtain ⟨total, at_, heap, hp, hlim, hcase⟩ := round_cases hr
  have hperm := (Heap.pop_perm hp).map Prod.snd
  have hwait : (at_ :: heap.map Prod.snd).Nodup := hperm.nodup_iff.1 hi.waiting
  have hmem : ∀ i, i ∈ s.heap.map Prod.snd ↔ i = at_ ∨ i ∈ heap.map Prod.snd := fun i => by
    rw [hperm.mem_iff]; exact List.mem_cons
  obtain ⟨hat, hnone⟩ := hi.heap at_ ((hmem at_).2 (.inl rfl))
  obtain ⟨hata, hatb⟩ := hi.below at_ hat
  have hbase := depth_of_above h hatb
  rcases hcase with ⟨hdeep, rfl⟩ | ⟨hdeep, rfl⟩
  · -- too deep: passed over
    refine ⟨shown, hi.count, hi.cap, hi.nodup, hi.first, hi.below, hi.child, hwait.of_cons, fun i hm => hi.heap i ((hmem i).2 (.inr hm)),
      hi.expanded, fun i hs => ?_⟩
    rcases hi.done i hs with hw | hd
    · rcases (hmem i).1 hw with rfl | hw
      · exact .inr (.inr (by omega))
      · exact .inl hw
    · exact .inr hd
  · generalize hkids : t.pickedKids minBytes (limit - s.count) at_ = kids
    have hsub : kids.Subperm (t.eligibleKids minBytes at_) := hkids ▸ pickedKids_subperm
    have hkid : ∀ k ∈ kids, k ∈ (t.node at_).children ∧ max minBytes 1 ≤ (t.node k).totalBlocks := fun k hk =>
      mem_eligibleKids.1 (hsub.subset hk)
    have hpar : ∀ k ∈ kids, (t.node k).alive = true ∧ (t.node k).parent = some at_ := fun k hk =>
      h.child at_ hata k (hkid k hk).1
    have hknd : kids.Nodup := by
      obtain ⟨l, hl, hsl⟩ := hsub
      exact hl.nodup_iff.1 (hsl.nodup ((h.nodup hata).filter _))
    -- a child was not listed before: its parent was not expanded
    have hnew : ∀ k ∈ kids, k ∉ shown := by
      intro k hk hs
      have hlt := h.down k at_ (hpar k hk).2
      have hne : k ≠ start := fun he => by
        have := hatb.le h.down
        omega
      obtain ⟨-, -, p, kids', hkp, hget, -⟩ := hi.child k hs hne
      rw [(hpar k hk).2] at hkp
      cases hkp
      rw [hnone] at hget
      cases hget
    have hlen : kids.length ≤ limit - s.count := hkids ▸ length_pickedKids_le ..
    have hget : ∀ i, i ≠ at_ → (s.listed.put at_ kids).get i = s.listed.get i := fun i hne => by
      rw [Table.get_put, if_neg hne]
    have hheap : (kids.map (fun child => ((t.node child).totalBlocks, child)) ++ heap).map Prod.snd = kids ++ heap.map Prod.snd := by
      rw [List.map_append, List.map_map]
      congr 1
      exact List.map_id' kids
    have hnotat : ∀ i ∈ heap.map Prod.snd, i ≠ at_ := fun i hm he => (List.nodup_cons.1 hwait).1 (he ▸ hm)
    refine ⟨shown ++ kids, ⟨?_, ?_, ?_, List.mem_append_left _ hi.first, fun i hs => ?_, fun i hs hne => ?_, ?_, fun i hm => ?_,
      fun i kids' hk => ?_, fun i hs => ?_⟩⟩
    · simp only [List.length_append, hi.count]
    · have := hi.cap
      show s.count + kids.length ≤ max limit 1
      omega
    · exact List.nodup_append.2 ⟨hi.nodup, hknd, fun a ha b hb hab => hnew b hb (hab ▸ ha)⟩
    · rcases List.mem_append.1 hs with hs | hs
      · exact hi.below i hs
      · exact ⟨(hpar i hs).1, .step (hpar i hs).2 hatb⟩
    · rcases List.mem_append.1 hs with hs | hs
      · obtain ⟨h1, h2, p, kids', h3, h4, h5⟩ := hi.child i hs hne
        have hpat : p ≠ at_ := fun he => by rw [he, hnone] at h4; cases h4
        exact ⟨h1, h2, p, kids', h3, (hget p hpat).trans h4, h5⟩
      · have hd := h.depth i at_ (hpar i hs).2
        exact ⟨(hkid i hs).2, by omega, at_, kids, (hpar i hs).2, Table.get_put_self .., hs⟩
    · show ((kids.map (fun child => ((t.node child).totalBlocks, child)) ++ heap).map Prod.snd).Nodup
      rw [hheap]
      refine List.nodup_append.2 ⟨hknd, hwait.of_cons, fun a ha b hb hab => hnew a ha ?_⟩
      rw [hab]
      exact (hi.heap b ((hmem b).2 (.inr hb))).1
    · have hm : i ∈ kids ++ heap.map Prod.snd := hheap ▸ hm
      rcases List.mem_append.1 hm with hm | hm
      · refine ⟨List.mem_append_right _ hm, ?_⟩
        have hlt := h.down i at_ (hpar i hm).2
        rw [hget i (by omega)]
        cases hg : s.listed.get i with
        | none => rfl
        | some kids' => exact absurd (hi.expanded i kids' hg).1 (hnew i hm)
      · obtain ⟨h1, h2⟩ := hi.heap i ((hmem i).2 (.inr hm))
        exact ⟨List.mem_append_left _ h1, (hget i (hnotat i hm)).trans h2⟩
    · by_cases hiat : i = at_
      · subst hiat
        have hk : (s.listed.put i kids).get i = some kids' := hk
        rw [Table.get_put_self] at hk
        cases hk
        refine ⟨List.mem_append_left _ hat, fun k hk => List.mem_append_right _ hk, hsub, fun child hc hn => ⟨?_, fun k hk => ?_⟩⟩
        · -- one was left out: the room is filled
          rw [← hkids] at hn
          have hfull := pickedKids_full hc hn
          rw [hkids] at hfull
          show s.count + kids.length = limit
          omega
        · rw [← hkids] at hn hk
          exact pickedKids_largest hc hn hk
      · obtain ⟨h1, h2, h3, h4⟩ := hi.expanded i kids' ((hget i hiat).symm.trans hk)
        refine ⟨List.mem_append_left _ h1, fun k hk => List.mem_append_left _ (h2 k hk), h3, fun child hc hn => ?_⟩
        -- nothing was left out yet: there is room
        have := (h4 child hc hn).1
        omega
    · show i ∈ (kids.map (fun child => ((t.node child).totalBlocks, child)) ++ heap).map Prod.snd ∨ _
      rw [hheap]
      rcases List.mem_append.1 hs with hs | hs
      · rcases hi.done i hs with hw | ⟨kids', hk⟩ | hd
        · rcases (hmem i).1 hw with rfl | hw
          · exact .inr (.inl ⟨kids, Table.get_put_self ..⟩)
          · exact .inl (List.mem_append_right _ hw)
        · by_cases hiat : i = at_
          · exact .inr (.inl ⟨kids, by rw [hiat]; exact Table.get_put_self ..⟩)
          · exact .inr (.inl ⟨kids', (hget i hiat).trans hk⟩)
        · exact .inr (.inr hd)
      · exact .inl (List.mem_append_left _ hs)

end Invariant

/-! ## The view -/

/-- The directories of a view, each before what is listed under it. -/
def viewNodes (t : DirTree) (listed : Table Nat (List Nat)) (start : Nat) : List Nat :=
  Traversal.preorder (kidsOf listed) t.nodes.length start

/-- What a view may list: the start, and what is large enough under something it may list, within
`depth` levels. -/
inductive Eligible (t : DirTree) (start depth minBytes : Nat) : Nat → Prop
  | start : Eligible t start depth minBytes start
  | child {p i : Nat} (h : Eligible t start depth minBytes p) (hm : i ∈ (t.node p).children)
      (hd : (t.node i).depth ≤ (t.node start).depth + depth) (hs : max minBytes 1 ≤ (t.node i).totalBlocks) :
      Eligible t start depth minBytes i

/-- The right directories are listed. -/
structure PicksRight (t : DirTree) (start limit depth minBytes : Nat) (listed : Table Nat (List Nat)) (shown : List Nat) :
    Prop where
  within : shown.length ≤ max limit 1
  nodup : shown.Nodup
  first : start ∈ shown
  child : ∀ i ∈ shown, i ≠ start → (∃ p ∈ shown, (t.node i).parent = some p ∧ i ∈ kidsOf listed p) ∧
    (t.node i).depth ≤ (t.node start).depth + depth ∧ max minBytes 1 ≤ (t.node i).totalBlocks
  /-- No eligible child of an expanded directory is left out for a smaller one. -/
  largest : ∀ p kids, listed.get p = some kids → p ∈ shown ∧ ∀ child ∈ t.eligibleKids minBytes p, child ∉ kids →
    ∀ kid ∈ kids, (t.node child).totalBlocks ≤ (t.node kid).totalBlocks
  /-- With room left, nothing eligible is forgotten. -/
  complete : shown.length < limit → ∀ i, Eligible t start depth minBytes i → i ∈ shown

section View

variable {t : DirTree} {start limit depth minBytes : Nat}

theorem mem_kidsOf {listed : Table Nat (List Nat)} {p i : Nat} :
    i ∈ kidsOf listed p ↔ ∃ kids, listed.get p = some kids ∧ i ∈ kids := by
  unfold kidsOf
  cases listed.get p <;> simp

/-- Listed children have larger numbers. -/
theorem ranked_kidsOf (h : Shape t) {listed : Table Nat (List Nat)} (hl : t.Listing listed) :
    Traversal.Ranked (kidsOf listed) (fun i => (t.node i).alive = true) fun i => t.nodes.length - i where
  kid := fun i hi k hk => by
    have hm := (kidsOf_subperm hl i).subset hk
    have hka := (h.child i hi k hm).1
    have := h.lt_of_child hi hm
    have := lt_of_alive hka
    exact ⟨hka, by show t.nodes.length - k < t.nodes.length - i; omega⟩
  pos := fun i hi => Nat.sub_pos_of_lt (lt_of_alive hi)

/-- At the end of the loop the view shows what was listed. -/
theorem viewNodes_perm (h : Shape t) (hs : (t.node start).alive = true) {shown : List Nat} {s : Picking}
    (hl : t.Listing s.listed) (hi : Selecting t start limit depth minBytes shown s) :
    (t.viewNodes s.listed start).Perm shown := by
  have hr := ranked_kidsOf h hl
  have hkid : ∀ {p i : Nat}, (t.node p).alive = true → i ∈ kidsOf s.listed p → (t.node i).parent = some p := fun {p i} hp hk =>
    (h.child p hp i ((kidsOf_subperm hl p).subset hk)).2
  have hnd : (t.viewNodes s.listed start).Nodup := by
    refine hr.nodup_preorder (fun p hp => ?_) (fun p hp y hy z hz depth w hw hw' => ?_) hs
    · obtain ⟨l, hperm, hsub⟩ := kidsOf_subperm hl p
      exact hperm.nodup_iff.1 (hsub.nodup (h.nodup hp))
    · have habove : ∀ {k : Nat}, (t.node k).alive = true → w ∈ Traversal.preorder (kidsOf s.listed) depth k →
          Above t.parentOf k w := fun {k} hk hw =>
        (hr.of_mem_preorder (Q := Above t.parentOf k) (fun x hx hxk y hy => .step (hkid hx hy) hxk) hk .refl hw).2
      exact sibling_unique h.down (hkid hp hy) (hkid hp hz) (habove (hr.kid p hp y hy).1 hw) (habove (hr.kid p hp z hz).1 hw')
  refine (List.perm_ext_iff_of_nodup hnd hi.nodup).2 fun i => ⟨fun hm => ?_, fun hm => ?_⟩
  · -- what is listed under something listed is listed
    refine (hr.of_mem_preorder (Q := fun i => i ∈ shown) (fun x _ _ y hy => ?_) hs hi.first hm).2
    obtain ⟨kids, hk, hy⟩ := mem_kidsOf.1 hy
    exact (hi.expanded x kids hk).2.1 y hy
  · -- up to the start, through the directories it is listed under
    induction i using Nat.strong_induction_on with
    | _ i ih =>
      by_cases he : i = start
      · subst he
        unfold viewNodes
        rw [hr.preorder_step hs (Nat.sub_le _ _)]
        exact List.mem_cons_self ..
      · obtain ⟨-, -, p, kids, hp, hk, hik⟩ := hi.child i hm he
        have hps := (hi.expanded p kids hk).1
        exact hr.kid_mem_preorder hs (Nat.sub_le _ _) (ih p (h.down i p hp) hps) (mem_kidsOf.2 ⟨kids, hk, hik⟩)

/-- Where the rounds are over, what was listed is what should be. -/
theorem Selecting.picks (h : Shape t) {shown : List Nat} {s : Picking} (hi : Selecting t start limit depth minBytes shown s)
    (hend : t.round limit depth minBytes (t.node start).depth s = none) :
    PicksRight t start limit depth minBytes s.listed shown where
  within := hi.count ▸ hi.cap
  nodup := hi.nodup
  first := hi.first
  child := fun i hm hne => by
    obtain ⟨h1, h2, p, kids, hp, hk, hik⟩ := hi.child i hm hne
    exact ⟨⟨p, (hi.expanded p kids hk).1, hp, mem_kidsOf.2 ⟨kids, hk, hik⟩⟩, h2, h1⟩
  largest := fun p kids hk =>
    ⟨(hi.expanded p kids hk).1, fun child hc hn kid hkid => ((hi.expanded p kids hk).2.2.2 child hc hn).2 kid hkid⟩
  complete := by
    intro hroom i he
    rw [← hi.count] at hroom
    -- there is room, so nothing waits any more
    have hheap : s.heap = [] := by
      unfold DirTree.round at hend
      cases hp : Heap.pop Candidate.lt s.heap with
      | none => exact Heap.pop_eq_none hp
      | some p =>
        obtain ⟨⟨total, at_⟩, heap⟩ := p
        rw [hp] at hend
        simp only [if_neg (Nat.not_le.2 hroom)] at hend
        split at hend <;> cases hend
    induction he with
    | start => exact hi.first
    | @child p i _ hm hd hs ih =>
      have hpa := (hi.below p ih).1
      rcases hi.done p ih with hw | ⟨kids, hk⟩ | hdeep
      · rw [hheap] at hw
        exact absurd hw List.not_mem_nil
      · obtain ⟨-, hin, -, hleft⟩ := hi.expanded p kids hk
        by_contra hn
        have := (hleft i (mem_eligibleKids.2 ⟨hm, hs⟩) fun hik => hn (hin i hik)).1
        omega
      · have := h.depth i p (h.child p hpa i hm).2
        omega

end View

end DirTree

/-! ## The JSON -/

mutual

/-- The objects of a view. -/
def NodeJson.objects : NodeJson → Nat
  | ⟨_, _, _, _, _, _, _, _, _, _, _, c⟩ => NodeJson.objectsOf c + 1

def NodeJson.objectsOf : List NodeJson → Nat
  | [] => 0
  | v :: l => v.objects + NodeJson.objectsOf l

end

theorem NodeJson.objectsOf_eq (l : List NodeJson) : NodeJson.objectsOf l = (l.map NodeJson.objects).sum := by
  induction l with
  | nil => rfl
  | cons v l ih => rw [objectsOf, ih, List.map_cons, List.sum_cons]

namespace DirTree

/-- One object is rendered for each directory of the view. -/
theorem objects_nodeJson {t : DirTree} (h : Shape t) {listed : Table Nat (List Nat)} (hl : t.Listing listed)
    (exclusive : Option (Table Nat Nat)) : ∀ {fuel i : Nat}, (t.node i).alive = true → t.nodes.length - i ≤ fuel →
    (t.nodeJson listed exclusive fuel i).objects = (Traversal.preorder (kidsOf listed) fuel i).length
  | 0, i, hi, hf => by
    have := lt_of_alive hi
    omega
  | fuel + 1, i, hi, hf => by
    have hkids : ∀ k ∈ kidsOf listed i, (t.nodeJson listed exclusive fuel k).objects =
        (Traversal.preorder (kidsOf listed) fuel k).length := fun k hk => by
      have hm := (kidsOf_subperm hl i).subset hk
      have := h.lt_of_child hi hm
      exact objects_nodeJson h hl exclusive (h.child i hi k hm).1 (by omega)
    have hsum : NodeJson.objectsOf ((kidsOf listed i).map (t.nodeJson listed exclusive fuel)) =
        ((kidsOf listed i).flatMap (Traversal.preorder (kidsOf listed) fuel)).length := by
      rw [NodeJson.objectsOf_eq, List.map_map, List.length_flatMap]
      exact congrArg List.sum (List.map_congr_left hkids)
    rw [nodeJson, NodeJson.objects, hsum, Traversal.preorder, List.length_cons]

/-- The pruned view picks the right directories: for every start, limit, depth and minimum size its
loop comes to an end without a subtraction below zero, and what it lists is what it should. -/
theorem pruned_picks {t : DirTree} (h : Shape t) {start : Nat} (hs : (t.node start).alive = true) (limit depth minBytes : Nat)
    (exclusive : Option (Table Nat Nat)) :
    (∃ s, Rounds t limit depth minBytes (t.node start).depth (t.firstPicking start) s ∧
        t.round limit depth minBytes (t.node start).depth s = none ∧ t.prunedListing start limit depth minBytes = s.listed) ∧
      (∀ s, Rounds t limit depth minBytes (t.node start).depth (t.firstPicking start) s → ∀ total at_ heap,
        Heap.pop Candidate.lt s.heap = some ((total, at_), heap) → (t.node start).depth ≤ (t.node at_).depth) ∧
      PicksRight t start limit depth minBytes (t.prunedListing start limit depth minBytes)
        (t.viewNodes (t.prunedListing start limit depth minBytes) start) ∧
      (t.pruned start limit depth minBytes exclusive).objects =
        (t.viewNodes (t.prunedListing start limit depth minBytes) start).length := by
  have hinv : ∀ s, Rounds t limit depth minBytes (t.node start).depth (t.firstPicking start) s →
      ∃ shown, Selecting t start limit depth minBytes shown s := fun s hr =>
    hr.rule (P := fun s => ∃ shown, Selecting t start limit depth minBytes shown s) (fun _ _ hp hround => by
      obtain ⟨shown, hsel⟩ := hp
      exact hsel.round h hround) ⟨_, selecting_first hs⟩
  obtain ⟨s, hr, hend, he⟩ := prunedLoop_rounds t limit depth minBytes (t.node start).depth (limit + 1) (t.firstPicking start) (by
    show 1 + (limit - 1) ≤ limit + 1
    omega)
  have he : t.prunedListing start limit depth minBytes = s.listed := he
  have hl := t.listing_pruned start limit depth minBytes
  rw [he] at hl ⊢
  refine ⟨⟨s, hr, hend, rfl⟩, fun s' hr' total at_ heap hp => ?_, ?_, ?_⟩
  · obtain ⟨shown, hsel⟩ := hinv s' hr'
    have hm : at_ ∈ s'.heap.map Prod.snd := ((Heap.pop_perm hp).map Prod.snd).mem_iff.2 (List.mem_cons_self ..)
    exact depth_of_above h (hsel.below at_ (hsel.heap at_ hm).1).2
  · obtain ⟨shown, hsel⟩ := hinv s hr
    have hperm := viewNodes_perm h hs hl hsel
    have hp := hsel.picks h hend
    refine ⟨hperm.length_eq ▸ hp.within, hperm.nodup_iff.2 hp.nodup, hperm.mem_iff.2 hp.first, fun i hm hne => ?_, fun p kids hk => ?_,
      fun hroom i hi => hperm.mem_iff.2 (hp.complete (hperm.length_eq ▸ hroom) i hi)⟩
    · obtain ⟨⟨p, hps, hpar, hk⟩, h2⟩ := hp.child i (hperm.mem_iff.1 hm) hne
      exact ⟨⟨p, hperm.mem_iff.2 hps, hpar, hk⟩, h2⟩
    · exact ⟨hperm.mem_iff.2 (hp.largest p kids hk).1, (hp.largest p kids hk).2⟩
  · unfold pruned viewNodes
    rw [he]
    exact objects_nodeJson h hl exclusive hs (Nat.sub_le _ _)

theorem pruned_picks_sample :
    (∃ s, Rounds sample 2 10 1 (sample.node 0).depth (sample.firstPicking 0) s ∧
        sample.round 2 10 1 (sample.node 0).depth s = none ∧ sample.prunedListing 0 2 10 1 = s.listed) ∧
      (∀ s, Rounds sample 2 10 1 (sample.node 0).depth (sample.firstPicking 0) s → ∀ total at_ heap,
        Heap.pop Candidate.lt s.heap = some ((total, at_), heap) → (sample.node 0).depth ≤ (sample.node at_).depth) ∧
      PicksRight sample 0 2 10 1 (sample.prunedListing 0 2 10 1) (sample.viewNodes (sample.prunedListing 0 2 10 1) 0) ∧
      (sample.pruned 0 2 10 1 none).objects = (sample.viewNodes (sample.prunedListing 0 2 10 1) 0).length :=
  pruned_picks shape_sample rfl 2 10 1 none

end DirTree

end StorageHarvester
