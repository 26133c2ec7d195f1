/-
What reading the items gathers. Items come in key order, so when an extent's item comes all links of
its inode have been read: the directories noted are those holding a link of the inode anywhere in
the stream, and the references gathered are exactly those of the stream's extents.
-/
import StorageHarvester.Btrfs.Sharing

namespace StorageHarvester.Btrfs

open Forest

/-! ## What the stream says -/

/-- The directories holding the links of an inode, one for each link. -/
def linkHolders (s : Skeleton) (items : List Item) (inode : Nat) : List (Option Nat) :=
  (items.filter fun item => item.key.objectid = inode).flatMap fun item => item.links.map fun l => s.holder l.1 l.2

/-- The directories an inode's data is referenced from: nowhere in the tree when it has no link. -/
def referrers (s : Skeleton) (items : List Item) (inode : Nat) : List (Option Nat) :=
  match linkHolders s items inode with
  | [] => [none]
  | holders => holders

/-- The extent on disk an item refers to: its address, and its size in 4 KiB units. -/
def Item.onDisk (item : Item) : Option (Nat × Nat) :=
  match item.extent with
  | some (.onDisk bytenr pages) => some (bytenr, pages)
  | _ => none

/-- The inline data of an item: its inode, and the bytes. -/
def Item.inlined (item : Item) : Option (Nat × Nat) :=
  match item.extent with
  | some (.inline bytes) => some (item.key.objectid, bytes)
  | _ => none

/-- Items in key order. -/
def Ordered (items : List Item) : Prop := items.Pairwise fun a b => a.key.le b.key

instance (items : List Item) : Decidable (Ordered items) := inferInstanceAs (Decidable (items.Pairwise _))

theorem referrers_ne_nil (s : Skeleton) (items : List Item) (inode : Nat) : referrers s items inode ≠ [] := by
  unfold referrers
  split <;> simp_all

/-! ## Common ancestors of lists -/

namespace Skeleton

variable (s : Skeleton)

theorem aboveOpt_commonOf (c : Nat) : ∀ l : List (Option Nat),
    AboveOpt s.parent c (s.commonOf l) ↔ l ≠ [] ∧ ∀ d ∈ l, AboveOpt s.parent c d
  | [] => by simp [commonOf, AboveOpt]
  | d :: l => by
    rw [commonOf, foldl_meet s.common_isMeet l d c]
    simp

/-- The order in which directories are met, and how often, does not matter. -/
theorem commonOf_congr {l l' : List (Option Nat)} (h : ∀ d, d ∈ l ↔ d ∈ l') : s.commonOf l = s.commonOf l' := by
  have hnil : l = [] ↔ l' = [] := by
    constructor <;> intro he <;> rw [List.eq_nil_iff_forall_not_mem] at he ⊢ <;> intro d hd
    · exact he d ((h d).2 hd)
    · exact he d ((h d).1 hd)
  refine aboveOpt_inj s.down fun c => ?_
  rw [s.aboveOpt_commonOf, s.aboveOpt_commonOf, ne_eq, ne_eq, hnil]
  simp only [h]

end Skeleton

/-! ## Noting and pushing -/

theorem mem_noteDir {dirs : List (Option Nat)} {node d : Option Nat} : d ∈ noteDir dirs node ↔ d ∈ dirs ∨ d = node := by
  unfold noteDir
  split
  · rename_i h
    rw [List.contains_iff_mem] at h
    constructor
    · exact .inl
    · rintro (h' | rfl)
      · exact h'
      · exact h
  · simp

theorem mem_noteDirs (s : Skeleton) {d : Option Nat} : ∀ {links : List (Nat × Bytes)} {dirs : List (Option Nat)},
    d ∈ links.foldl (fun dirs l => noteDir dirs (s.holder l.1 l.2)) dirs ↔
      d ∈ dirs ∨ d ∈ links.map fun l => s.holder l.1 l.2
  | [], dirs => by simp
  | l :: links, dirs => by
    rw [List.foldl_cons, mem_noteDirs s, mem_noteDir, List.map_cons, List.mem_cons, or_assoc]

namespace Collecting

/-- The references gathered so far. -/
def refs (c : Collecting) : List Ref := c.full.flatten ++ c.last

/-- Every full chunk is sorted. -/
def Sorted (c : Collecting) : Prop := ∀ chunk ∈ c.full, chunk.Pairwise fun a b => Ref.lt b a = false

end Collecting

theorem Ref.strictWeak : Heap.StrictWeak Ref.lt where
  asymm := fun ⟨b, m, p⟩ ⟨b', m', p'⟩ h => by
    cases m <;> cases m' <;> simp [Ref.lt, nodeLt] at h ⊢ <;> omega
  trans := fun ⟨b, m, p⟩ ⟨b', m', p'⟩ ⟨b'', m'', p''⟩ h h' => by
    cases m <;> cases m' <;> cases m'' <;> simp [Ref.lt, nodeLt] at h h' ⊢ <;> omega

theorem sortRefs_perm (refs : List Ref) : (sortRefs refs).Perm refs := List.perm_insertionSort _ refs

theorem sortRefs_sorted (refs : List Ref) : (sortRefs refs).Pairwise fun a b => Ref.lt b a = false := by
  have : Std.Total fun a b => Ref.lt b a = false := ⟨fun a b => by
    cases h : Ref.lt b a with
    | false => exact .inl rfl
    | true => exact .inr (Ref.strictWeak.asymm b a h)⟩
  have : IsTrans Ref fun a b => Ref.lt b a = false := ⟨fun a b c h h' => Ref.strictWeak.trans c b a h' h⟩
  exact List.pairwise_insertionSort _ refs

namespace Collecting

theorem mem_refs_push {c : Collecting} {chunk : Nat} {ref r : Ref} : r ∈ (c.push chunk ref).refs ↔ r ∈ c.refs ∨ r = ref := by
  unfold push refs
  split
  · simp [(sortRefs_perm c.last).mem_iff, or_assoc]
  · simp [or_assoc]

theorem Sorted.push {c : Collecting} (h : c.Sorted) (chunk : Nat) (ref : Ref) : (c.push chunk ref).Sorted := by
  unfold Collecting.push
  split
  · intro l hl
    rcases List.mem_append.1 hl with hl | hl
    · exact h l hl
    · rw [List.mem_singleton.1 hl]
      exact sortRefs_sorted c.last
  · exact h

/-- Pushing references changes nothing else. -/
theorem push_frame (c : Collecting) (chunk : Nat) (ref : Ref) :
    ∃ full last, c.push chunk ref = { c with full := full, last := last } := by
  unfold push
  split
  · exact ⟨_, _, rfl⟩
  · exact ⟨c.full, _, rfl⟩

/-- What pushing one reference for each holder does. -/
theorem pushAll_spec (chunk bytenr pages : Nat) : ∀ (holders : List (Option Nat)) (c : Collecting), c.Sorted →
    ∃ full last, holders.foldl (fun c node => c.push chunk { bytenr := bytenr, node := node, pages := pages }) c =
        { c with full := full, last := last } ∧
      ({ c with full := full, last := last } : Collecting).Sorted ∧
      ∀ r, r ∈ ({ c with full := full, last := last } : Collecting).refs ↔
        r ∈ c.refs ∨ (r.bytenr = bytenr ∧ r.pages = pages ∧ r.node ∈ holders)
  | [], c, h => ⟨c.full, c.last, rfl, h, by simp⟩
  | node :: holders, c, h => by
    obtain ⟨full, last, he⟩ := c.push_frame chunk { bytenr := bytenr, node := node, pages := pages }
    obtain ⟨full', last', he', hs', hm'⟩ := pushAll_spec chunk bytenr pages holders _ (h.push chunk _)
    rw [List.foldl_cons, he']
    rw [he] at hm' hs' ⊢
    refine ⟨full', last', rfl, hs', fun r => ?_⟩
    rw [hm', ← he, mem_refs_push, or_assoc]
    refine or_congr_right ?_
    obtain ⟨b, d, p⟩ := r
    simp only [Ref.mk.injEq, List.mem_cons]
    tauto

end Collecting

/-! ## The order of items -/

theorem links_of_kind {item : Item} (h : inodeExtref < item.key.kind) : item.links = [] := by
  unfold inodeExtref at h
  unfold Item.links inodeRef inodeExtref
  rw [if_neg (by omega), if_neg (by omega)]

theorem kind_of_extent {item : Item} {e : Extent} (h : item.extent = some e) : item.key.kind = extentData := by
  unfold Item.extent at h
  split at h
  · rename_i hk; exact hk.1
  · cases h

theorem mem_linkHolders {s : Skeleton} {items : List Item} {inode : Nat} {d : Option Nat} :
    d ∈ linkHolders s items inode ↔
      ∃ item ∈ items, item.key.objectid = inode ∧ d ∈ item.links.map fun l => s.holder l.1 l.2 := by
  simp only [linkHolders, List.mem_flatMap, List.mem_filter, decide_eq_true_eq, and_assoc]

/-- When an inode's extent comes, all its links have been read. -/
theorem linkHolders_before {s : Skeleton} {before after : List Item} {item : Item} {e : Extent}
    (h : Ordered (before ++ item :: after)) (he : item.extent = some e) (d : Option Nat) :
    d ∈ linkHolders s before item.key.objectid ↔ d ∈ linkHolders s (before ++ item :: after) item.key.objectid := by
  rw [mem_linkHolders, mem_linkHolders]
  constructor
  · rintro ⟨x, hx, hi⟩
    exact ⟨x, List.mem_append_left _ hx, hi⟩
  · rintro ⟨x, hx, hi, hd⟩
    have hk := kind_of_extent he
    -- an item of the same inode that does not come before is no item of links
    have hlate : extentData ≤ x.key.kind → False := fun hle => by
      rw [links_of_kind (by unfold inodeExtref; unfold extentData at hle; omega)] at hd
      exact absurd hd (List.not_mem_nil)
    rcases List.mem_append.1 hx with hx | hx
    · exact ⟨x, hx, hi, hd⟩
    · rcases List.mem_cons.1 hx with rfl | hx
      · exact (hlate (by rw [hk])).elim
      · have hle := (List.pairwise_cons.1 (List.pairwise_append.1 h).2.1).1 x hx
        refine (hlate ?_).elim
        rw [← hk]
        rcases hle with hlt | ⟨-, hlt | ⟨hkk, -⟩⟩
        · omega
        · omega
        · omega

/-- An inode other than the last one read has not been read before. -/
theorem linkHolders_fresh {s : Skeleton} {before : List Item} {last item : Item}
    (h : Ordered (before ++ [last] ++ [item])) (hne : item.key.objectid ≠ last.key.objectid) :
    linkHolders s (before ++ [last]) item.key.objectid = [] := by
  rw [List.eq_nil_iff_forall_not_mem]
  intro d hd
  obtain ⟨x, hx, hi, -⟩ := mem_linkHolders.1 hd
  obtain ⟨h1, -, h2⟩ := List.pairwise_append.1 h
  have hlast := h2 last (by simp) item (by simp)
  rcases List.mem_append.1 hx with hx | hx
  · have hxl := (List.pairwise_append.1 h1).2.2 x hx last (by simp)
    rcases hxl with hxl | ⟨hxl, -⟩ <;> rcases hlast with hlast | ⟨hlast, -⟩ <;> omega
  · rw [List.mem_singleton.1 hx] at hi
    exact hne hi.symm

/-! ## Reading the items -/

/-- What an item's inline data adds to directory `n`. -/
def inlineShare (s : Skeleton) (all : List Item) (n : Nat) (item : Item) : Nat :=
  match item.inlined with
  | some (inode, bytes) => if s.commonOf (referrers s all inode) = some n then bytes else 0
  | none => 0

/-- What has been gathered when the items `before` of the stream `all` were read. -/
structure Gathered (s : Skeleton) (all before : List Item) (c : Collecting) : Prop where
  inode : ∀ item, before.getLast? = some item → c.inode = item.key.objectid
  dirs : ∀ d, d ∈ c.dirs ↔ d ∈ linkHolders s before c.inode
  alone : ∀ n, c.alone n = ((before.map (inlineShare s all n)).sum) % 2 ^ 64
  sorted : c.Sorted
  refs : ∀ r, r ∈ c.refs ↔
    ∃ item ∈ before, item.onDisk = some (r.bytenr, r.pages) ∧ r.node ∈ referrers s all item.key.objectid

/-- The directories an inode's extent is referred to from, given those noted. -/
theorem mem_referrers {s : Skeleton} {all : List Item} {inode : Nat} {dirs : List (Option Nat)}
    (h : ∀ d, d ∈ dirs ↔ d ∈ linkHolders s all inode) (d : Option Nat) :
    d ∈ (if dirs = [] then [none] else dirs) ↔ d ∈ referrers s all inode := by
  have hnil : dirs = [] ↔ linkHolders s all inode = [] := by
    simp only [List.eq_nil_iff_forall_not_mem, h]
  unfold referrers
  by_cases he : dirs = []
  · rw [if_pos he, hnil.1 he]
  · rw [if_neg he, h]
    split
    · rename_i hl
      exact absurd (hnil.2 hl) he
    · exact Iff.rfl

theorem commonOf_referrers {s : Skeleton} {all : List Item} {inode : Nat} {dirs : List (Option Nat)}
    (h : ∀ d, d ∈ dirs ↔ d ∈ linkHolders s all inode) : s.commonOf dirs = s.commonOf (referrers s all inode) := by
  rw [← s.commonOf_congr (mem_referrers h)]
  split
  · rename_i he; rw [he]; rfl
  · rfl

theorem Gathered.note {s : Skeleton} {all before after : List Item} {item : Item} {c : Collecting}
    (h : Gathered s all before c) (ho : Ordered all) (hall : all = before ++ item :: after) :
    (c.note s item).inode = item.key.objectid ∧
      (∀ d, d ∈ (c.note s item).dirs ↔ d ∈ linkHolders s (before ++ [item]) item.key.objectid) ∧
      ∃ items inode dirs, c.note s item = { c with items := items, inode := inode, dirs := dirs } := by
  have henter : ({ c with items := c.items + 1 }.enter item.key.objectid).inode = item.key.objectid ∧
      (∀ d, d ∈ ({ c with items := c.items + 1 }.enter item.key.objectid).dirs ↔
        d ∈ linkHolders s before item.key.objectid) ∧
      ∃ inode dirs, { c with items := c.items + 1 }.enter item.key.objectid =
        { c with items := c.items + 1, inode := inode, dirs := dirs } := by
    unfold Collecting.enter
    split
    · rename_i hne
      refine ⟨rfl, fun d => ?_, _, _, rfl⟩
      have hfresh : linkHolders s before item.key.objectid = [] := by
        rcases List.eq_nil_or_concat before with rfl | ⟨init, last, rfl⟩
        · rfl
        · rw [List.concat_eq_append] at *
          have hsub : (init ++ [last] ++ [item]).Sublist all := by
            rw [hall, show init ++ [last] ++ item :: after = init ++ [last] ++ [item] ++ after by simp]
            exact List.sublist_append_left _ _
          exact linkHolders_fresh (ho.sublist hsub) fun he => hne (he.trans (h.inode last (by simp)).symm)
      rw [hfresh]
    · rename_i he
      rw [not_not] at he
      exact ⟨he.symm, by rw [he]; exact h.dirs, c.inode, c.dirs, rfl⟩
  obtain ⟨hinode, hdirs, inode, dirs, he⟩ := henter
  refine ⟨hinode, fun d => ?_, c.items + 1, inode,
    item.links.foldl (fun dirs l => noteDir dirs (s.holder l.1 l.2)) dirs, ?_⟩
  · unfold Collecting.note
    simp only
    rw [mem_noteDirs, hdirs, mem_linkHolders, mem_linkHolders]
    constructor
    · rintro (⟨x, hx, hi, hd⟩ | hd)
      · exact ⟨x, List.mem_append_left _ hx, hi, hd⟩
      · exact ⟨item, by simp, rfl, hd⟩
    · rintro ⟨x, hx, hi, hd⟩
      rcases List.mem_append.1 hx with hx | hx
      · exact .inl ⟨x, hx, hi, hd⟩
      · rw [List.mem_singleton.1 hx] at hd
        exact .inr hd
  · unfold Collecting.note
    simp only [he]

/-- By the time an extent comes, the links noted are all there are. -/
theorem Gathered.full {s : Skeleton} {all before after : List Item} {item : Item} {c : Collecting} {e : Extent}
    (h : Gathered s all before c) (ho : Ordered all) (hall : all = before ++ item :: after) (hx : item.extent = some e)
    (d : Option Nat) : d ∈ (c.note s item).dirs ↔ d ∈ linkHolders s all item.key.objectid := by
  have hbefore := linkHolders_before (s := s) (hall ▸ ho) hx d
  rw [← hall] at hbefore
  rw [(h.note ho hall).2.1, ← hbefore, mem_linkHolders, mem_linkHolders]
  constructor
  · rintro ⟨x, hm, hi, hd⟩
    rcases List.mem_append.1 hm with hm | hm
    · exact ⟨x, hm, hi, hd⟩
    · rw [List.mem_singleton.1 hm, links_of_kind (by rw [kind_of_extent hx]; decide)] at hd
      exact absurd hd (List.not_mem_nil)
  · rintro ⟨x, hm, hi, hd⟩
    exact ⟨x, List.mem_append_left _ hm, hi, hd⟩

/-- Without an extent on disk nothing is referred to. -/
theorem onDisk_eq_none {item : Item} (h : ∀ bytenr pages, item.extent ≠ some (.onDisk bytenr pages)) : item.onDisk = none := by
  unfold Item.onDisk
  split
  · rename_i he; exact absurd he (h _ _)
  · rfl

theorem mod_add_mod (a b : Nat) : wrapAdd (a % 2 ^ 64) b = (a + b) % 2 ^ 64 := Nat.mod_add_mod a _ b

theorem addAt_apply (alone : Nat → Nat) (node : Option Nat) (bytes n : Nat) :
    addAt alone node bytes n = if node = some n then wrapAdd (alone n) bytes else alone n := by
  unfold addAt
  split
  · rw [if_neg (by simp)]
  · rename_i i
    by_cases hi : n = i
    · subst hi; simp
    · rw [Function.update_of_ne hi, if_neg fun he => hi (Option.some.inj he).symm]

theorem Gathered.read {s : Skeleton} {all before after : List Item} {item : Item} {c : Collecting} (chunk : Nat)
    (h : Gathered s all before c) (ho : Ordered all) (hall : all = before ++ item :: after) :
    Gathered s all (before ++ [item]) (c.read s chunk item) := by
  -- the inode's links stand before its extents, so at an extent the holders taken are all of them (`hfull`)
  obtain ⟨hinode, hdirs, items, inode, dirs, he⟩ := h.note ho hall
  unfold Collecting.read
  have hsorted : (c.note s item).Sorted := by rw [he]; exact h.sorted
  have halone : (c.note s item).alone = c.alone := by rw [he]
  have hrefs : (c.note s item).refs = c.refs := by rw [he]; rfl
  have hlast : ∀ x, (before ++ [item]).getLast? = some x → (c.note s item).inode = x.key.objectid := fun x hx => by
    rw [List.getLast?_concat] at hx
    cases hx; exact hinode
  have hdirs' : ∀ d, d ∈ (c.note s item).dirs ↔ d ∈ linkHolders s (before ++ [item]) (c.note s item).inode := by
    rw [hinode]; exact hdirs
  have hfull : ∀ {e}, item.extent = some e → ∀ d, d ∈ (c.note s item).dirs ↔ d ∈ linkHolders s all item.key.objectid :=
    fun hx d => h.full ho hall hx d
  have hsum : ∀ n, ((before ++ [item]).map (inlineShare s all n)).sum = (before.map (inlineShare s all n)).sum + inlineShare s all n item := by
    intro n; simp
  cases hx : item.extent with
  | none =>
    have hin : item.inlined = none := by unfold Item.inlined; rw [hx]
    have hon : item.onDisk = none := onDisk_eq_none fun _ _ => by rw [hx]; simp
    refine ⟨hlast, hdirs', fun n => ?_, hsorted, fun r => ?_⟩
    · rw [hsum, show inlineShare s all n item = 0 by unfold inlineShare; rw [hin], Nat.add_zero]
      exact (congrFun halone n).trans (h.alone n)
    · show r ∈ (c.note s item).refs ↔ _
      rw [hrefs, h.refs]
      simp [hon]
  | some e =>
    cases e with
    | inline bytes =>
      have hin : item.inlined = some (item.key.objectid, bytes) := by unfold Item.inlined; rw [hx]
      have hon : item.onDisk = none := onDisk_eq_none fun _ _ => by rw [hx]; simp
      refine ⟨hlast, hdirs', fun n => ?_, hsorted, fun r => ?_⟩
      · show addAt (c.note s item).alone (s.commonOf (c.note s item).dirs) bytes n = _
        rw [addAt_apply, hsum, halone, h.alone, commonOf_referrers (hfull hx), mod_add_mod]
        unfold inlineShare
        rw [hin]
        simp only
        split <;> simp
      · show r ∈ (c.note s item).refs ↔ _
        rw [hrefs, h.refs]
        simp [hon]
    | onDisk bytenr pages =>
      have hin : item.inlined = none := by unfold Item.inlined; rw [hx]
      have hon : item.onDisk = some (bytenr, pages) := by unfold Item.onDisk; rw [hx]
      obtain ⟨full, last, hpush, hs, hm⟩ := Collecting.pushAll_spec chunk bytenr pages
        (if (c.note s item).dirs = [] then [none] else (c.note s item).dirs) (c.note s item) hsorted
      unfold Collecting.charge
      simp only
      rw [hpush]
      refine ⟨hlast, hdirs', fun n => ?_, hs, fun r => ?_⟩
      · rw [hsum, show inlineShare s all n item = 0 by unfold inlineShare; rw [hin], Nat.add_zero]
        exact (congrFun halone n).trans (h.alone n)
      · rw [hm, hrefs, h.refs, mem_referrers (hfull hx)]
        simp only [List.mem_append, List.mem_singleton, or_and_right, exists_or, exists_eq_left, hon, Option.some.injEq,
          Prod.mk.injEq]
        refine or_congr_right ⟨fun ⟨h1, h2, h3⟩ => ⟨⟨h1.symm, h2.symm⟩, h3⟩, fun ⟨⟨h1, h2⟩, h3⟩ => ⟨h1.symm, h2.symm, h3⟩⟩

/-- Nothing is gathered before the first item. -/
theorem Gathered.start (s : Skeleton) (all : List Item) : Gathered s all [] {} where
  inode x hx := by cases hx
  dirs d := ⟨fun hd => absurd hd (List.not_mem_nil), fun hd => by simp [linkHolders] at hd⟩
  alone _ := rfl
  sorted x hx := absurd hx (List.not_mem_nil)
  refs r := by simp [Collecting.refs]

/-- What has been gathered when the whole stream was read. -/
theorem gathered_collect (s : Skeleton) (chunk : Nat) {all : List Item} (ho : Ordered all) :
    Gathered s all all (collect s chunk all) := by
  have hrun : ∀ (after before : List Item) (c : Collecting), all = before ++ after → Gathered s all before c →
      Gathered s all all (after.foldl (Collecting.read s chunk) c) := by
    intro after
    induction after with
    | nil =>
      intro before c hall h
      rw [List.append_nil] at hall
      subst hall; exact h
    | cons item after ih =>
      intro before c hall h
      exact ih (before ++ [item]) _ (by rw [hall]; simp) (h.read chunk ho hall)
  exact hrun all [] {} rfl (Gathered.start s all)

/-- The chunks are sorted, and hold exactly the references of the stream's extents. -/
theorem chunks_spec (s : Skeleton) (chunk : Nat) {all : List Item} (ho : Ordered all) :
    (∀ l ∈ (collect s chunk all).chunks, l.Pairwise fun a b => Ref.lt b a = false) ∧
      ∀ r, r ∈ (collect s chunk all).chunks.flatten ↔
        ∃ item ∈ all, item.onDisk = some (r.bytenr, r.pages) ∧ r.node ∈ referrers s all item.key.objectid := by
  have h := gathered_collect s chunk ho
  unfold Collecting.chunks
  refine ⟨fun l hl => ?_, fun r => ?_⟩
  · rcases List.mem_append.1 hl with hl | hl
    · exact h.sorted l hl
    · rw [List.mem_singleton.1 hl]
      exact sortRefs_sorted _
  · rw [← h.refs, Collecting.refs]
    simp [(sortRefs_perm _).mem_iff]

end StorageHarvester.Btrfs
