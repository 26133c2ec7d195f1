/-
The totals of the sharing pass: what the tree's files take on disk, and which part of it files the
tree does not hold refer to as well. Extents are settled from all their references. Inline data is
its inode's alone and settled when it is read, where a name the tree does not hold leaves it out of
every figure.
-/
import StorageHarvester.Btrfs.Freed

namespace StorageHarvester.Btrfs

open Forest

/-! ## Inside and outside -/

/-- Some directory of the tree refers to it. -/
def inside (refs : List (Option Nat)) : Bool := refs.any Option.isSome

/-- So does a name the tree does not hold. -/
def both (refs : List (Option Nat)) : Bool := inside refs && refs.any Option.isNone

theorem inside_iff {refs : List (Option Nat)} : inside refs = true ↔ ∃ i, some i ∈ refs := by
  unfold inside
  rw [List.any_eq_true]
  constructor
  · rintro ⟨d, hd, hsome⟩
    obtain ⟨i, rfl⟩ := Option.isSome_iff_exists.1 hsome
    exact ⟨i, hd⟩
  · rintro ⟨i, hi⟩
    exact ⟨some i, hi, rfl⟩

theorem both_iff {refs : List (Option Nat)} : both refs = true ↔ (∃ i, some i ∈ refs) ∧ none ∈ refs := by
  unfold both
  rw [Bool.and_eq_true, inside_iff, List.any_eq_true]
  refine and_congr_right fun _ => ⟨?_, fun h => ⟨none, h, rfl⟩⟩
  rintro ⟨d, hd, hnone⟩
  rwa [Option.isNone_iff_eq_none.1 hnone] at hd

/-- The nodes are one tree's: only the root has no parent. -/
def Rooted (s : Skeleton) : Prop := ∀ i, 0 < i → i < s.size → ∃ p, s.parent i = some p

theorem Rooted.above {s : Skeleton} (h : Rooted s) : ∀ {i : Nat}, i < s.size → Above s.parent 0 i := by
  intro i
  induction i using Nat.strongRecOn with
  | ind i ih =>
    intro hi
    rcases Nat.eq_zero_or_pos i with rfl | hpos
    · exact .refl
    · obtain ⟨p, hp⟩ := h i hpos hi
      have hlt := s.down i p hp
      exact .step hp (ih p hlt (by omega))

/-- Directories of one tree have a common ancestor. -/
theorem Rooted.within {s : Skeleton} (h : Rooted s) {refs : List (Option Nat)} (hk : Known s refs) :
    Within s.parent refs 0 ↔ none ∉ refs := by
  constructor
  · rintro hw hnone
    exact hw none hnone
  · rintro hnone r hr
    cases r with
    | none => exact absurd hr hnone
    | some i => exact h.above (hk.2 i hr)

theorem Rooted.commonOf_eq_none {s : Skeleton} (h : Rooted s) {refs : List (Option Nat)} (hk : Known s refs) :
    s.commonOf refs = none ↔ none ∈ refs := by
  have hroot := (s.aboveOpt_commonOf 0 refs).trans (and_iff_right hk.1)
  have hwithin := h.within hk
  cases hc : s.commonOf refs with
  | none =>
    rw [hc] at hroot
    refine iff_of_true rfl (by_contra fun hnone => ?_)
    exact hroot.2 (hwithin.2 hnone)
  | some n =>
    rw [hc] at hroot
    have hn : Lowest s.parent refs n := (commonOf_eq_some s hk.1 n).1 hc
    refine iff_of_false (by simp) fun hnone => ?_
    exact hn.1 none hnone

/-! ## The inline data read -/

/-- What an item's inline data adds to what the files take. -/
def inlineDisk (s : Skeleton) (all : List Item) (item : Item) : Nat :=
  match item.inlined with
  | some (inode, bytes) => if s.commonOf (referrers s all inode) = none then 0 else bytes
  | none => 0

theorem read_disk {s : Skeleton} {all before after : List Item} {item : Item} {c : Collecting} {base : Nat} (chunk : Nat)
    (h : Gathered s all before c) (ho : Ordered all) (hall : all = before ++ item :: after) (hc : c.disk = base % 2 ^ 64) :
    (c.read s chunk item).disk = (base + inlineDisk s all item) % 2 ^ 64 := by
  obtain ⟨_, _, items, inode, dirs, he⟩ := h.note ho hall
  have hnote : (c.note s item).disk = base % 2 ^ 64 := by rw [he]; exact hc
  have hsorted : (c.note s item).Sorted := by rw [he]; exact h.sorted
  unfold Collecting.read inlineDisk
  cases hx : item.extent with
  | none =>
    have hin : item.inlined = none := by unfold Item.inlined; rw [hx]
    rw [hin]
    exact hnote
  | some e =>
    cases e with
    | inline bytes =>
      have hin : item.inlined = some (item.key.objectid, bytes) := by unfold Item.inlined; rw [hx]
      unfold Collecting.charge
      rw [hin]
      dsimp only
      rw [← commonOf_referrers (h.full ho hall hx)]
      split
      · exact hnote
      · rw [hnote, mod_add_mod]
    | onDisk bytenr pages =>
      have hin : item.inlined = none := by unfold Item.inlined; rw [hx]
      obtain ⟨full, last, hpush, -⟩ := Collecting.pushAll_spec chunk bytenr pages
        (if (c.note s item).dirs = [] then [none] else (c.note s item).dirs) (c.note s item) hsorted
      unfold Collecting.charge
      rw [hin]
      dsimp only
      rw [hpush]
      exact hnote

theorem disk_collect (s : Skeleton) (chunk : Nat) {all : List Item} (ho : Ordered all) :
    (collect s chunk all).disk = (all.map (inlineDisk s all)).sum % 2 ^ 64 := by
  have hrun : ∀ (after before : List Item) (c : Collecting), all = before ++ after → Gathered s all before c →
      c.disk = (before.map (inlineDisk s all)).sum % 2 ^ 64 →
      (after.foldl (Collecting.read s chunk) c).disk = (all.map (inlineDisk s all)).sum % 2 ^ 64 := by
    intro after
    induction after with
    | nil =>
      intro before c hall _ hc
      rw [List.append_nil] at hall
      subst hall
      exact hc
    | cons item after ih =>
      intro before c hall h hc
      refine ih (before ++ [item]) _ (by rw [hall]; simp) (h.read chunk ho hall) ?_
      rw [read_disk chunk h ho hall hc]
      simp
  exact hrun all [] {} rfl (Gathered.start s all) rfl

/-! ## The extents settled -/

/-- What an extent counts when its references are as `P` says. -/
def counted (P : List (Option Nat) → Bool) (refs : List Ref) (extent : Nat × Nat) : Nat :=
  if P (nodesOf refs extent.1) then extent.2 * 4096 else 0

/-- Referred to from the tree, with no directory holding all of its references. -/
def cut (s : Skeleton) (refs : List (Option Nat)) : Bool := inside refs && (s.commonOf refs).isNone

section Settling

variable {s : Skeleton} {P : List (Option Nat) → Bool} {base : Nat → Nat} {seen : List Ref} {m : Merging} {current next : Ref}

theorem counted_concat {e : Nat × Nat} (h : next.bytenr ≠ e.1) : counted P (seen ++ [next]) e = counted P seen e := by
  unfold counted
  rw [nodesOf_concat, if_neg h, List.append_nil]

/-- The other extents count as before when the current one is referred to again. -/
theorem sum_again (hcurrent : current ∈ seen) (hsame : SameSize (seen ++ [next])) (he : current.bytenr = next.bytenr) :
    ∑ e ∈ (extentsOf (seen ++ [next])).erase (current.bytenr, current.pages), counted P (seen ++ [next]) e =
      ∑ e ∈ (extentsOf seen).erase (current.bytenr, current.pages), counted P seen e := by
  rw [extentsOf_again hcurrent hsame he]
  refine Finset.sum_congr rfl fun e hm => counted_concat fun hx => ?_
  obtain ⟨hne, hm⟩ := Finset.mem_erase.1 hm
  exact hne (extent_at hcurrent (fun r hr r' hr' => hsame r (by simp [hr]) r' (by simp [hr'])) hm (hx.symm.trans he.symm))

/-- A new extent comes with all others complete. -/
theorem sum_new (hlt : ∀ r ∈ seen, r.bytenr < next.bytenr) :
    ∑ e ∈ (extentsOf (seen ++ [next])).erase (next.bytenr, next.pages), counted P (seen ++ [next]) e =
      ∑ e ∈ extentsOf seen, counted P seen e := by
  rw [extentsOf_new hlt]
  refine Finset.sum_congr rfl fun e hm => counted_concat fun hx => ?_
  obtain ⟨r, hr, rfl⟩ := mem_extentsOf.1 hm
  have := hlt r hr
  simp only at hx
  omega

/-- The totals when the references `seen` were popped, on top of `disk` bytes. -/
structure Totals (s : Skeleton) (disk : Nat) (seen : List Ref) (m : Merging) (current : Ref) : Prop where
  head : m.group.head? = (nodesOf seen current.bytenr).head?
  disk : m.disk = (disk + ∑ e ∈ (extentsOf seen).erase (current.bytenr, current.pages), counted inside seen e) % 2 ^ 64
  outside : m.outside = (∑ e ∈ (extentsOf seen).erase (current.bytenr, current.pages), counted (cut s) seen e) % 2 ^ 64

/-- References in order: an extent's from the tree come first. -/
def InOrder (refs : List Ref) : Prop := refs.Pairwise fun a b => Ref.lt b a = false

theorem inside_of_head (hs : InOrder seen) {bytenr : Nat} :
    inside (nodesOf seen bytenr) = true ↔ ∃ i, (nodesOf seen bytenr).head? = some (some i) := by
  rw [inside_iff]
  constructor
  · rintro ⟨i, hi⟩
    have hpair : (seen.filter fun r => r.bytenr = bytenr).Pairwise fun a b => Ref.lt b a = false := hs.sublist List.filter_sublist
    unfold nodesOf at hi ⊢
    cases hl : seen.filter (fun r => r.bytenr = bytenr) with
    | nil =>
      rw [hl] at hi
      cases hi
    | cons first rest =>
      rw [hl] at hi hpair
      rw [List.map_cons, List.head?_cons]
      cases hfirst : first.node with
      | some j => exact ⟨j, rfl⟩
      | none =>
        exfalso
        obtain ⟨r, hr, hri⟩ := List.mem_map.1 hi
        rcases List.mem_cons.1 hr with rfl | hr
        · rw [hfirst] at hri
          cases hri
        · have hlt := (List.pairwise_cons.1 hpair).1 r hr
          have hb : ∀ x ∈ first :: rest, x.bytenr = bytenr := fun x hx => by
            have := (List.mem_filter.1 (hl ▸ hx)).2
            simpa using this
          have h1 := hb first (List.mem_cons_self ..)
          have h2 := hb r (List.mem_cons_of_mem _ hr)
          simp [Ref.lt, h1, h2, hri, hfirst, nodeLt] at hlt
  · rintro ⟨i, hi⟩
    exact ⟨i, List.mem_of_mem_head? hi⟩

/-- The group tells whether the tree refers to the extent, although it may not have all references. -/
theorem Totals.ours {disk : Nat} {origin : Nat → Nat} (h : Totals s disk seen m current) (hseen : Seen s origin seen m current)
    (hs : InOrder seen) : (m.group.any fun node => node ≠ none) = inside (nodesOf seen current.bytenr) := by
  rw [Bool.eq_iff_iff]
  constructor
  · rintro hany
    obtain ⟨d, hd, hne⟩ := List.any_eq_true.1 hany
    cases d with
    | none => simp at hne
    | some i => exact inside_iff.2 ⟨i, hseen.group.2 _ hd⟩
  · rintro hin
    obtain ⟨i, hi⟩ := (inside_of_head hs).1 hin
    rw [← h.head] at hi
    exact List.any_eq_true.2 ⟨some i, List.mem_of_mem_head? hi, by simp⟩

/-- Settling the current extent counts it. -/
theorem Totals.settle {disk : Nat} {origin : Nat → Nat} (h : Totals s disk seen m current) (hseen : Seen s origin seen m current)
    (hs : InOrder seen) :
    (m.settle s current).disk = (disk + ∑ e ∈ extentsOf seen, counted inside seen e) % 2 ^ 64 ∧
      (m.settle s current).outside = (∑ e ∈ extentsOf seen, counted (cut s) seen e) % 2 ^ 64 := by
  have hmem : (current.bytenr, current.pages) ∈ extentsOf seen := mem_extentsOf.2 ⟨current, hseen.mem, rfl⟩
  rw [← Finset.sum_erase_add _ _ hmem, ← Finset.sum_erase_add _ _ hmem, ← Nat.add_assoc]
  unfold Merging.settle
  dsimp only
  rw [h.ours hseen hs, hseen.meets, h.disk, h.outside]
  unfold counted cut
  dsimp only
  cases hin : inside (nodesOf seen current.bytenr) with
  | false => exact ⟨by simp, by simp⟩
  | true =>
    refine ⟨by rw [if_pos rfl, if_pos rfl, mod_add_mod], ?_⟩
    cases hc : s.commonOf (nodesOf seen current.bytenr) with
    | none =>
      rw [if_pos ⟨rfl, rfl⟩]
      exact mod_add_mod _ _
    | some n => simp

theorem Totals.first (s : Skeleton) (m : Merging) (hc : m.current = none) (hg : m.group = []) (ho : m.outside = 0) (next : Ref)
    {disk : Nat} (hd : m.disk = disk % 2 ^ 64) : Totals s disk [next] (m.visit s next) next := by
  unfold Merging.visit
  rw [hc]
  exact {
    head := by simp [hg, nodesOf]
    disk := by simp [extentsOf, hd]
    outside := by simp [extentsOf, ho] }

theorem Totals.visit {disk : Nat} {origin : Nat → Nat} {current' : Ref} (h : Totals s disk seen m current)
    (hseen : Seen s origin seen m current) (hs : InOrder (seen ++ [next])) (hsame : SameSize (seen ++ [next]))
    (hat : (m.visit s next).current = some current') : Totals s disk (seen ++ [next]) (m.visit s next) current' := by
  have hle : ∀ r ∈ seen, r.bytenr ≤ next.bytenr := fun r hr =>
    bytenr_le ((List.pairwise_append.1 hs).2.2 r hr next (List.mem_singleton_self _))
  unfold Merging.visit at hat ⊢
  rw [hseen.atExtent] at hat ⊢
  by_cases he : current.bytenr = next.bytenr
  · -- another reference to the current extent: the group's first stays
    simp only [if_pos he] at hat ⊢
    obtain rfl : current = current' := Option.some.inj (hseen.atExtent ▸ hat)
    refine ⟨?_, ?_, ?_⟩
    · obtain ⟨d, hd⟩ := List.exists_mem_of_ne_nil _ hseen.group.1
      have hne : nodesOf seen current.bytenr ≠ [] := List.ne_nil_of_mem (hseen.group.2 d hd)
      have hkept : ∀ l : List (Option Nat), (m.group ++ l).head? = m.group.head? := fun l =>
        List.head?_append_of_ne_nil _ hseen.group.1
      rw [nodesOf_concat, List.head?_append_of_ne_nil _ hne, ← h.head]
      split
      · exact hkept _
      · rfl
    · rw [sum_again hseen.mem hsame he]
      exact h.disk
    · rw [sum_again hseen.mem hsame he]
      exact h.outside
  · -- the current extent is complete
    have hlt : ∀ r ∈ seen, r.bytenr < next.bytenr := fun r hr => by
      have := hseen.last r hr
      have := hle current hseen.mem
      omega
    obtain ⟨hdisk, houtside⟩ := h.settle hseen (hs.sublist (List.sublist_append_left _ _))
    simp only [if_neg he] at hat ⊢
    obtain rfl := Option.some.inj hat
    refine ⟨?_, ?_, ?_⟩
    · rw [nodesOf_new hlt, settle_frame]
      rfl
    · rw [sum_new hlt]
      exact hdisk
    · rw [sum_new hlt]
      exact houtside

/-- All references popped, in order. -/
theorem totals_all (s : Skeleton) (m : Merging) (hc : m.current = none) (hg : m.group = []) (ho : m.outside = 0) {disk : Nat}
    (hd : m.disk = disk % 2 ^ 64) {origin : Nat → Nat} (hb : ∀ n, m.alone n = origin n % 2 ^ 64) {refs : List Ref}
    (hs : InOrder refs) (hsame : SameSize refs) :
    ((refs.foldl (Merging.visit s) m).close s).disk = (disk + ∑ e ∈ extentsOf refs, counted inside refs e) % 2 ^ 64 ∧
      ((refs.foldl (Merging.visit s) m).close s).outside = (∑ e ∈ extentsOf refs, counted (cut s) refs e) % 2 ^ 64 := by
  have hrun : ∀ (rest seen : List Ref) (m : Merging) (current : Ref), refs = seen ++ rest → Seen s origin seen m current →
      Totals s disk seen m current →
      ∃ current', Seen s origin refs (rest.foldl (Merging.visit s) m) current' ∧
        Totals s disk refs (rest.foldl (Merging.visit s) m) current' := by
    intro rest
    induction rest with
    | nil =>
      intro seen m current hrefs h ht
      rw [List.append_nil] at hrefs
      subst hrefs
      exact ⟨current, h, ht⟩
    | cons next rest ih =>
      intro seen m current hrefs h ht
      have hsplit : refs = seen ++ [next] ++ rest := by rw [hrefs]; simp
      have hsub : InOrder (seen ++ [next]) := by
        unfold InOrder at hs
        rw [hsplit] at hs
        exact hs.sublist (List.sublist_append_left _ _)
      have hsame' : SameSize (seen ++ [next]) := fun r hr r' hr' =>
        hsame r (by rw [hsplit]; exact List.mem_append_left _ hr) r' (by rw [hsplit]; exact List.mem_append_left _ hr')
      have hle : ∀ r ∈ seen, r.bytenr ≤ next.bytenr := fun r hr =>
        bytenr_le ((List.pairwise_append.1 hsub).2.2 r hr next (List.mem_singleton_self _))
      obtain ⟨current', h'⟩ := h.visit hle hsame'
      exact ih (seen ++ [next]) _ current' hsplit h' (ht.visit h hsub hsame' h'.atExtent)
  cases refs with
  | nil =>
    rw [List.foldl_nil, Merging.close, hc]
    exact ⟨by simp [extentsOf, hd], by simp [extentsOf, ho]⟩
  | cons first rest =>
    obtain ⟨current, h, ht⟩ := hrun rest [first] (m.visit s first) first rfl (Seen.first s m hc hg first hb)
      (Totals.first s m hc hg ho first hd)
    rw [List.foldl_cons, Merging.close, h.atExtent]
    exact ht.settle h hs

end Settling

/-! ## What the totals should be -/

/-- The address of the extent an item refers to, and the size it gives. -/
def Item.sized (item : Item) : Option (Nat × Nat) := item.onDisk.map fun e => (e.1, u64At item.data 29)

/-- Every extent and every piece of inline data, with its references and its size. -/
def sizes (s : Skeleton) (items : List Item) : List (List (Option Nat) × Nat) :=
  ((items.filterMap Item.sized).dedup.map fun e => (extentReferrers s items e.1, e.2)) ++
    (items.filterMap Item.inlined).map fun e => (referrers s items e.1, e.2)

/-- Extents are whole units of 4 KiB, and not more than a reference counts (btrfs writes at most
128 MiB in one). -/
def WholeUnits (items : List Item) : Prop :=
  ∀ item ∈ items, item.onDisk.isSome → u64At item.data 29 % 4096 = 0 ∧ u64At item.data 29 / 4096 ≤ u32Max

instance (items : List Item) : Decidable (WholeUnits items) := inferInstanceAs (Decidable (∀ item ∈ items, _ → _ ∧ _))

/-- Inline data referred to from the tree has no name that the tree does not hold. -/
def InlineHeld (s : Skeleton) (items : List Item) : Prop :=
  ∀ e ∈ items.filterMap Item.inlined, e.2 ≠ 0 → both (referrers s items e.1) = false

instance (s : Skeleton) (items : List Item) : Decidable (InlineHeld s items) :=
  inferInstanceAs (Decidable (∀ e ∈ items.filterMap Item.inlined, _ → _ = _))

/-- The totals account for all data the tree refers to. -/
structure TotalsExact (s : Skeleton) (chunk : Nat) (items : List Item) : Prop where
  disk : (sharing s chunk items).disk = charged (sizes s items) fun refs => ∃ i, some i ∈ refs
  outside : (sharing s chunk items).outside = charged (sizes s items) fun refs => (∃ i, some i ∈ refs) ∧ none ∈ refs
  adds : (sharing s chunk items).disk =
    ∑ i ∈ Finset.range s.size, (sharing s chunk items).alone i + (sharing s chunk items).outside

/-- In whole units, the bytes charged are the sizes. -/
theorem sizes_eq_charges (s : Skeleton) {items : List Item} (hw : WholeUnits items) : sizes s items = charges s items := by
  have hsized : items.filterMap Item.sized = (items.filterMap Item.onDisk).map fun e => (e.1, e.2 * 4096) := by
    rw [List.map_filterMap]
    refine List.filterMap_congr fun item hi => ?_
    have hunits := hw item hi
    unfold Item.sized
    cases hon : item.onDisk with
    | none => rfl
    | some e =>
      obtain ⟨hmod, hcap⟩ := hunits (by rw [hon]; rfl)
      have hpages : e.2 = min ((u64At item.data 29 + 4095) / 4096) u32Max := by
        unfold Item.onDisk at hon
        split at hon
        case h_1 bytenr pages hx =>
          obtain rfl := Option.some.inj hon
          unfold Item.extent at hx
          split at hx
          · split at hx
            · cases hx
            · split at hx
              · cases hx
                rfl
              · cases hx
          · cases hx
        case h_2 => cases hon
      rw [Option.map_some, Option.map_some, hpages, show min ((u64At item.data 29 + 4095) / 4096) u32Max * 4096 = u64At item.data 29 by omega]
  have hinj : Function.Injective fun e : Nat × Nat => (e.1, e.2 * 4096) := by
    rintro ⟨a, b⟩ ⟨c, d⟩ h
    simp only [Prod.mk.injEq] at h ⊢
    omega
  unfold sizes charges
  rw [hsized, List.dedup_map_of_injective hinj, List.map_map]
  rfl

/-! ## Sums of charges -/

section Charged

variable {l l' : List (List (Option Nat) × Nat)} {P Q : List (Option Nat) → Prop}

theorem charged_append : charged (l ++ l') P = charged l P + charged l' P := by
  unfold charged
  rw [List.map_append, List.sum_append]

theorem charged_congr (h : ∀ e ∈ l, (P e.1 ↔ Q e.1)) : charged l P = charged l Q := by
  classical
  unfold charged
  congr 1
  exact List.map_congr_left fun e he => by simp only [h e he]

theorem charged_eq_zero : charged l P = 0 ↔ ∀ e ∈ l, P e.1 → e.2 = 0 := by
  classical
  unfold charged
  rw [List.sum_eq_zero_iff]
  simp only [List.mem_map, forall_exists_index, and_imp, forall_apply_eq_imp_iff₂, ite_eq_right_iff]

/-- What the tree refers to is what it alone does and what it does not alone. -/
theorem charged_inside : ∀ {l : List (List (Option Nat) × Nat)}, (∀ e ∈ l, e.1 ≠ []) →
    charged l (fun refs => ∃ i, some i ∈ refs) =
      charged l (fun refs => none ∉ refs) + charged l fun refs => (∃ i, some i ∈ refs) ∧ none ∈ refs
  | [], _ => by simp [charged]
  | e :: l, hne => by
    have ih := charged_inside fun x hx => hne x (List.mem_cons_of_mem _ hx)
    have hcons : ∀ P, charged (e :: l) P = charged [e] P + charged l P := fun P => by
      rw [← charged_append, List.singleton_append]
    have hhead : charged [e] (fun refs => ∃ i, some i ∈ refs) =
        charged [e] (fun refs => none ∉ refs) + charged [e] fun refs => (∃ i, some i ∈ refs) ∧ none ∈ refs := by
      by_cases hnone : none ∈ e.1
      · have hnot : charged [e] (fun refs => none ∉ refs) = 0 := charged_eq_zero.2 (by simp [hnone])
        rw [hnot, Nat.zero_add]
        exact charged_congr fun x hx => by rw [List.mem_singleton.1 hx]; exact (and_iff_left hnone).symm
      · obtain ⟨d, hd⟩ := List.exists_mem_of_ne_nil _ (hne e (List.mem_cons_self ..))
        have hsome : ∃ i, some i ∈ e.1 := by
          cases d with
          | none => exact absurd hd hnone
          | some i => exact ⟨i, hd⟩
        simp [charged, hnone, hsome]
    rw [hcons, hcons, hcons, ih, hhead]
    omega

end Charged

/-! ## The totals of a pass -/

section Pass

variable {s : Skeleton} {items : List Item}

/-- The extents' part of the charges, and the inline data's. -/
def extentCharges (s : Skeleton) (items : List Item) : List (List (Option Nat) × Nat) :=
  (items.filterMap Item.onDisk).dedup.map fun e => (extentReferrers s items e.1, e.2 * 4096)

def inlineCharges (s : Skeleton) (items : List Item) : List (List (Option Nat) × Nat) :=
  (items.filterMap Item.inlined).map fun e => (referrers s items e.1, e.2)

theorem charged_charges (s : Skeleton) (items : List Item) (P : List (Option Nat) → Prop) :
    charged (charges s items) P = charged (extentCharges s items) P + charged (inlineCharges s items) P := charged_append

/-- The extents settled count as their references in the stream say. -/
theorem sum_counted (ho : Ordered items) {P : List (Option Nat) → Bool} {Q : List (Option Nat) → Prop}
    (hP : ∀ {l l' : List (Option Nat)}, (∀ d, d ∈ l ↔ d ∈ l') → P l = P l')
    (hPQ : ∀ e ∈ extentCharges s items, (P e.1 = true ↔ Q e.1)) :
    ∑ e ∈ extentsOf (mergedRefs s chunk items), counted P (mergedRefs s chunk items) e = charged (extentCharges s items) Q := by
  classical
  rw [extentsOf_mergedRefs ho, List.sum_toFinset _ (List.nodup_dedup _)]
  unfold charged extentCharges
  rw [List.map_map]
  congr 1
  refine List.map_congr_left fun e he => ?_
  unfold counted
  rw [hP fun d => mem_nodesOf_mergedRefs ho, Function.comp_apply]
  have hiff := hPQ _ (List.mem_map_of_mem he)
  dsimp only at hiff
  simp only [hiff]

theorem inside_congr {l l' : List (Option Nat)} (h : ∀ d, d ∈ l ↔ d ∈ l') : inside l = inside l' := by
  rw [Bool.eq_iff_iff, inside_iff, inside_iff]
  exact exists_congr fun i => h (some i)

theorem sum_inlineDisk (hroot : Rooted s) (all : List Item) : ∀ items : List Item,
    (items.map (inlineDisk s all)).sum =
      charged ((items.filterMap Item.inlined).map fun e => (referrers s all e.1, e.2)) fun refs => none ∉ refs
  | [] => rfl
  | item :: items => by
    rw [List.map_cons, List.sum_cons, sum_inlineDisk hroot all items, List.filterMap_cons]
    unfold inlineDisk
    cases item.inlined with
    | none => exact Nat.zero_add _
    | some e =>
      simp only [hroot.commonOf_eq_none (known_referrers s all e.1)]
      unfold charged
      rw [List.map_cons, List.map_cons, List.sum_cons]
      by_cases hnone : none ∈ referrers s all e.1
      · simp [hnone]
      · simp [hnone]

theorem known_extentCharges : ∀ e ∈ extentCharges s items, Known s e.1 := fun e he =>
  known_charges s items e (List.mem_append_left _ he)

/-- The totals of a pass. -/
theorem sharing_totals (chunk : Nat) (hroot : Rooted s) (ho : Ordered items) (hs : SameExtents items) :
    (sharing s chunk items).disk = (charged (inlineCharges s items) (fun refs => none ∉ refs) +
        charged (extentCharges s items) fun refs => ∃ i, some i ∈ refs) % 2 ^ 64 ∧
      (sharing s chunk items).outside =
        charged (extentCharges s items) (fun refs => (∃ i, some i ∈ refs) ∧ none ∈ refs) % 2 ^ 64 := by
  have hsame : SameSize (mergedRefs s chunk items) := fun r hr r' hr' hb => by
    obtain ⟨i, hi, hon, -⟩ := (mem_mergedRefs ho).1 hr
    obtain ⟨j, hj, hon', -⟩ := (mem_mergedRefs ho).1 hr'
    exact hs i hi j hj _ hon _ hon' hb
  obtain ⟨hdisk, houtside⟩ := totals_all s { alone := (collect s chunk items).alone, disk := (collect s chunk items).disk } rfl rfl rfl
    (disk_collect s chunk ho) (gathered_collect s chunk ho).alone (Heap.merge_sorted Ref.strictWeak (chunks_spec s chunk ho).1) hsame
  have hinside : ∑ e ∈ extentsOf (mergedRefs s chunk items), counted inside (mergedRefs s chunk items) e =
      charged (extentCharges s items) fun refs => ∃ i, some i ∈ refs := sum_counted ho inside_congr fun _ _ => inside_iff
  have hcut : ∑ e ∈ extentsOf (mergedRefs s chunk items), counted (cut s) (mergedRefs s chunk items) e =
      charged (extentCharges s items) fun refs => (∃ i, some i ∈ refs) ∧ none ∈ refs := by
    refine sum_counted ho (fun h => ?_) fun e he => ?_
    · unfold cut
      rw [inside_congr h, s.commonOf_congr h]
    · unfold cut
      rw [Bool.and_eq_true, inside_iff, Option.isNone_iff_eq_none, hroot.commonOf_eq_none (known_extentCharges e he)]
  refine ⟨?_, ?_⟩
  · refine hdisk.trans ?_
    rw [sum_inlineDisk hroot items items]
    exact congrArg (fun x => (_ + x) % 2 ^ 64) hinside
  · exact houtside.trans (congrArg (· % 2 ^ 64) hcut)

theorem inlineHeld_iff : InlineHeld s items ↔
    charged (inlineCharges s items) (fun refs => (∃ i, some i ∈ refs) ∧ none ∈ refs) = 0 := by
  rw [charged_eq_zero]
  unfold InlineHeld inlineCharges
  constructor
  · rintro h e he hboth
    obtain ⟨x, hx, rfl⟩ := List.mem_map.1 he
    by_contra hne
    have := h x hx hne
    rw [both_iff.2 hboth] at this
    cases this
  · rintro h x hx hne
    by_contra hboth
    exact hne (h _ (List.mem_map_of_mem hx) (both_iff.1 (Bool.of_not_eq_false hboth)))

/-- What the directories hold alone adds up to what only the tree refers to. -/
theorem sum_alone (chunk : Nat) (hroot : Rooted s) (ho : Ordered items) (hs : SameExtents items)
    (hfits : charged (charges s items) (fun refs => none ∉ refs) < 2 ^ 64) :
    ∑ i ∈ Finset.range s.size, (sharing s chunk items).alone i = charged (charges s items) fun refs => none ∉ refs := by
  classical
  have hsum : ∑ i ∈ Finset.range s.size, charged (charges s items) (fun refs => Lowest s.parent refs i) =
      charged (charges s items) fun refs => none ∉ refs := by
    rw [← charged_congr (P := fun refs => Within s.parent refs 0) fun e he => hroot.within (known_charges s items e he),
      ← sum_charged 0 (known_charges s items)]
    exact Finset.sum_congr rfl fun i hi => (if_pos (hroot.above (Finset.mem_range.1 hi))).symm
  rw [← hsum]
  refine Finset.sum_congr rfl fun i hi => ?_
  rw [alone_eq_charged ho hs, Nat.mod_eq_of_lt]
  have hle := Finset.single_le_sum (f := fun i => charged (charges s items) fun refs => Lowest s.parent refs i)
    (fun _ _ => Nat.zero_le _) hi
  omega

end Pass

/-- A pass accounts for all data exactly when no inline data has names both in the tree and outside
it (and the data fits `u64`). -/
theorem totals_exact_iff {s : Skeleton} (chunk : Nat) {items : List Item} (hroot : Rooted s) (ho : Ordered items)
    (hs : SameExtents items) (hw : WholeUnits items) : TotalsExact s chunk items ↔
      charged (sizes s items) (fun refs => ∃ i, some i ∈ refs) < 2 ^ 64 ∧ InlineHeld s items := by
  obtain ⟨hdisk, houtside⟩ := sharing_totals chunk hroot ho hs
  have hnonempty : ∀ e ∈ charges s items, e.1 ≠ [] := fun e he => (known_charges s items e he).1
  have hextents := charged_inside fun e he => hnonempty e (List.mem_append_left _ he : e ∈ extentCharges s items ++ _)
  have hinline := charged_inside (l := inlineCharges s items) fun e he => hnonempty e (List.mem_append_right _ he)
  have hall := charged_charges s items fun refs => ∃ i, some i ∈ refs
  have hboth := charged_charges s items fun refs => (∃ i, some i ∈ refs) ∧ none ∈ refs
  have honly := charged_charges s items fun refs => none ∉ refs
  rw [inlineHeld_iff, sizes_eq_charges s hw]
  constructor
  · rintro hexact
    have htotal := hexact.disk
    rw [sizes_eq_charges s hw, hdisk] at htotal
    omega
  · rintro ⟨hfits, hheld⟩
    have halone := sum_alone chunk hroot ho hs (by omega)
    refine ⟨?_, ?_, ?_⟩
    · rw [sizes_eq_charges s hw, hdisk]
      omega
    · rw [sizes_eq_charges s hw, houtside]
      omega
    · rw [halone, hdisk, houtside]
      omega

/-! ## A file with names on both sides -/

theorem rooted_small : Rooted smallSkeleton := by
  rintro i h0 hi
  have hlt : i < 3 := hi
  exact ⟨0, if_pos (by omega)⟩

theorem totals_exact_shared : TotalsExact smallSkeleton 1 sharedItems := by
  have hsizes : sizes smallSkeleton sharedItems = [([some 1, some 2], 8192)] := by decide
  exact (totals_exact_iff 1 rooted_small (by decide) (by decide) (by decide)).2 ⟨by simp [hsizes, charged], by decide⟩

/-- A file of 3 bytes, stored inline, with a name in directory 1 and one in a directory the tree does
not hold. -/
def namedTwice : List Item :=
  [nameItem 300 257, nameItem 300 999, { key := ⟨300, extentData, 0⟩, data := List.replicate 21 0 ++ [120, 121, 122] }]

/-- The tree refers to its data, and no figure counts it. -/
theorem inline_dropped : sizes smallSkeleton namedTwice = [([some 1, none], 3)] ∧
    (sharing smallSkeleton 1048576 namedTwice).disk = 0 ∧ (sharing smallSkeleton 1048576 namedTwice).outside = 0 ∧
    ¬TotalsExact smallSkeleton 1048576 namedTwice := by
  have hsizes : sizes smallSkeleton namedTwice = [([some 1, none], 3)] := by decide
  have hdisk : (sharing smallSkeleton 1048576 namedTwice).disk = 0 := by decide
  refine ⟨hsizes, hdisk, by decide, fun h => ?_⟩
  have htotal := h.disk
  rw [hdisk, hsizes] at htotal
  simp [charged] at htotal

end StorageHarvester.Btrfs
