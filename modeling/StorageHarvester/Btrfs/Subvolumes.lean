/-
The subvolumes of a volume (`subvolumes` and `resolve` in `src/btrfs.rs`). Each has a reference back
to the subvolume it lies in, by the directory holding it; the paths are put together from the top
level down, with every path and every directory looked up kept. Whatever order the table of
references gives them in, the subvolumes listed are those below the top level, with their paths.
-/
import StorageHarvester.Btrfs.Sharing
import StorageHarvester.Config.Resolve
import StorageHarvester.Lib.LittleEndian
import StorageHarvester.Lib.Memo
import StorageHarvester.Scan.Fresh

namespace StorageHarvester.Btrfs

/-! ## The items of the root tree -/

def rootItem : Nat := 132
def rootBackref : Nat := 144
/-- The top level of a volume. -/
def fsTree : Nat := 5

/-- Where a subvolume lies: in which other, in which directory of it, under which name. -/
structure Backref where
  parent : Nat
  dir : Nat
  name : Bytes
  deriving DecidableEq, Repr

structure Roots where
  /-- Made by snapshotting another subvolume. -/
  snapshots : List Nat := []
  backrefs : Table Nat Backref := .empty

/-- An item read: a root item with the UUID of a parent, or a reference back. -/
def Roots.read (r : Roots) (item : Item) : Roots :=
  if item.key.kind = rootItem ∧ 279 ≤ item.data.length then
    if ((item.data.drop 263).take 16).any (· ≠ 0) then { r with snapshots := r.snapshots.insert item.key.objectid } else r
  else if item.key.kind = rootBackref ∧ 18 ≤ item.data.length then
    match LittleEndian.window item.data 18 (u16At item.data 16) with
    | some name => { r with backrefs := r.backrefs.put item.key.objectid ⟨item.key.offset, u64At item.data 0, name⟩ }
    | none => r
  else r

def roots (items : List Item) : Roots := items.foldl Roots.read {}

/-! ## Paths -/

/-- A path in a subvolume's parent, from the parent's own and the directory's (with a slash at its
end, or empty). -/
def Backref.path (b : Backref) (parent dir : Bytes) : Bytes := parent ++ slash :: (dir ++ b.name)

section Resolving

variable (backrefs : Table Nat Backref) (lookup : Nat → Nat → Option Bytes)

def parentOf (id : Nat) : Option Nat := (backrefs.get id).map Backref.parent

/-- The path of a subvolume whose parent's is known. `lookup` asks the file system for a directory's
path, once. -/
def extendPath (id : Nat) (path : Bytes) (dirs : Table (Nat × Nat) Bytes) : Option Bytes × Table (Nat × Nat) Bytes :=
  match backrefs.get id with
  | none => (none, dirs)
  | some b =>
    match dirs.get (b.parent, b.dir) with
    | some dir => (some (b.path path dir), dirs)
    | none =>
      match lookup b.parent b.dir with
      | some dir => (some (b.path path dir), dirs.put (b.parent, b.dir) dir)
      | none => (none, dirs)

/-- The levels `resolve` goes up at most. -/
def maxNesting : Nat := 65

/-- `resolve`, at `depth`: the path of a subvolume, kept in `paths`, the directories in `dirs`. -/
def resolve (depth id : Nat) (paths : Table Nat (Option Bytes)) (dirs : Table (Nat × Nat) Bytes) :
    Option Bytes × Table Nat (Option Bytes) × Table (Nat × Nat) Bytes :=
  Memo.resolve (parentOf backrefs) (extendPath backrefs lookup) (maxNesting - depth) id paths dirs

/-- All subvolumes resolved, in the order given. -/
def resolved (order : List Nat) : Table Nat (Option Bytes) :=
  (order.foldl (fun a id => (resolve backrefs lookup 0 id a.1 a.2).2) (Table.empty.put fsTree (some []), Table.empty)).1

/-- The path of a subvolume: the top level's is empty, and each other has its parent's, the
directory's and its name. -/
inductive PathOf : Nat → Bytes → Prop
  | top : PathOf fsTree []
  | inside {id : Nat} {b : Backref} {path dir : Bytes} (htop : id ≠ fsTree) (hb : backrefs.get id = some b)
      (hpath : PathOf b.parent path) (hdir : lookup b.parent b.dir = some dir) : PathOf id (b.path path dir)

/-- A subvolume nested so deep below the top level. -/
inductive Nested : Nat → Nat → Prop
  | top : Nested fsTree 0
  | inside {id n : Nat} {b : Backref} (htop : id ≠ fsTree) (hb : backrefs.get id = some b) (h : Nested b.parent n) :
      Nested id (n + 1)

end Resolving

/-- A subvolume, with its path from the top level. -/
structure Subvolume where
  id : Nat
  path : Bytes
  snapshot : Bool
  deriving DecidableEq, Repr

/-- `subvolumes`, from the items of the root tree; `order` is the order the table of references
gives its keys in. -/
def subvolumes (lookup : Nat → Nat → Option Bytes) (order : List Nat) (items : List Item) : List Subvolume :=
  let r := roots items
  let paths := resolved r.backrefs lookup order
  (order.filterMap fun id => (paths.get id).join.map fun path =>
    { id := id, path := Utf8.lossy path, snapshot := r.snapshots.contains id }).insertionSort
      fun a b => nameLe a.path b.path = true

/-! ## What is listed -/

variable {backrefs : Table Nat Backref} {lookup : Nat → Nat → Option Bytes}

/-- The top level's path is known. -/
def topPath (id : Nat) : Option Bytes := if id = fsTree then some [] else none

/-- The step from a parent's path, without the directories kept. -/
def stepPath (backrefs : Table Nat Backref) (lookup : Nat → Nat → Option Bytes) (id : Nat) (path : Bytes) : Option Bytes :=
  (backrefs.get id).bind fun b => (lookup b.parent b.dir).map (b.path path)

theorem topPath_eq_none {id : Nat} : topPath id = none ↔ id ≠ fsTree := by simp [topPath]

/-- The directories kept are those the file system gives. -/
def GoodDirs (lookup : Nat → Nat → Option Bytes) (dirs : Table (Nat × Nat) Bytes) : Prop :=
  ∀ key dir, dirs.get key = some dir → lookup key.1 key.2 = some dir

theorem grows_extendPath : Memo.Grows (GoodDirs lookup) (stepPath backrefs lookup) (extendPath backrefs lookup) := by
  intro id path dirs hgood
  unfold extendPath stepPath
  cases hb : backrefs.get id with
  | none => exact ⟨rfl, hgood⟩
  | some b =>
    dsimp only
    cases hd : dirs.get (b.parent, b.dir) with
    | some dir =>
      refine ⟨?_, hgood⟩
      simp [hgood _ _ hd]
    | none =>
      cases hl : lookup b.parent b.dir with
      | none => exact ⟨by simp [hl], hgood⟩
      | some dir =>
        refine ⟨by simp [hl], ?_⟩
        intro key dir' hget
        dsimp only at hget
        rw [Table.get_put] at hget
        split at hget
        · cases hget
          subst_vars
          exact hl
        · exact hgood key dir' hget

theorem pathOf_iff (id : Nat) (path : Bytes) :
    PathOf backrefs lookup id path ↔ Memo.Value (parentOf backrefs) (stepPath backrefs lookup) topPath id path := by
  constructor
  · intro h
    induction h with
    | top => exact .known rfl
    | inside htop hb _ hdir ih =>
      refine .step (topPath_eq_none.2 htop) ?_ ih ?_
      · rw [parentOf, hb, Option.map_some]
      · rw [stepPath, hb, Option.bind_some, hdir, Option.map_some]
  · intro h
    induction h with
    | known h =>
      unfold topPath at h
      split at h
      · cases h
        subst_vars
        exact .top
      · cases h
    | step hbase hup _ hstep ih =>
      obtain ⟨b, hb, rfl⟩ := Option.map_eq_some_iff.1 hup
      rw [stepPath, hb, Option.bind_some] at hstep
      obtain ⟨dir, hdir, rfl⟩ := Option.map_eq_some_iff.1 hstep
      exact .inside (topPath_eq_none.1 hbase) hb ih hdir

theorem nested_of_height {id n : Nat} (h : Memo.Height (parentOf backrefs) topPath id n) : Nested backrefs id n := by
  induction h with
  | known h =>
    unfold topPath at h
    split at h
    · subst_vars
      exact .top
    · cases h
  | step hbase hup _ ih =>
    obtain ⟨b, hb, rfl⟩ := Option.map_eq_some_iff.1 hup
    exact .inside (topPath_eq_none.1 hbase) hb ih

/-- Resolved in any order, each subvolume has its path kept, or none if it has none. -/
theorem resolved_right (hdeep : ∀ id n, Nested backrefs id n → n ≤ maxNesting) {order : List Nat} {id : Nat}
    (hid : id ∈ order) (path : Bytes) :
    ((resolved backrefs lookup order).get id).join = some path ↔ PathOf backrefs lookup id path := by
  have hsound : Memo.Sound (parentOf backrefs) (stepPath backrefs lookup) topPath (Table.empty.put fsTree (some [])) := by
    constructor
    · intro k r hget v
      rw [Table.get_put] at hget
      split at hget
      · cases hget
        subst_vars
        rw [← pathOf_iff]
        constructor
        · intro hv
          cases hv
          exact .top
        · intro hv
          cases hv with
          | top => rfl
          | inside htop _ _ _ => exact absurd rfl htop
      · cases hget
    · intro k v hv
      unfold topPath at hv
      split at hv
      · cases hv
        subst_vars
        exact Table.get_put_self _ _ _
      · cases hv
  have hempty : GoodDirs lookup Table.empty := fun _ _ h => by cases h
  have hheights : ∀ k ∈ order, ∀ n, Memo.Height (parentOf backrefs) topPath k n → n ≤ maxNesting :=
    fun k _ n hn => hdeep k n (nested_of_height hn)
  obtain ⟨r, hget, hr⟩ := (Memo.resolveAll_right grows_extendPath hsound hempty hheights).1 id hid
  rw [pathOf_iff, ← hr, show (resolved backrefs lookup order).get id = some r from hget, Option.join_some]

theorem total_nameLe {α : Type*} (name : α → Bytes) : Std.Total fun a b : α => nameLe (name a) (name b) = true := by
  constructor
  intro a b
  unfold nameLe
  cases h : compare (name a) (name b) with
  | lt => exact .inl rfl
  | eq => exact .inl rfl
  | gt => exact .inr (by rw [compare_gt_iff.1 h]; rfl)

theorem trans_nameLe {α : Type*} (name : α → Bytes) : IsTrans α fun a b => nameLe (name a) (name b) = true := by
  constructor
  intro a b c hab hbc
  simp only [nameLe, ne_eq, decide_eq_true_eq] at hab hbc ⊢
  exact Ordering.isLE_iff_ne_gt.1 (Std.TransCmp.isLE_trans (Ordering.isLE_iff_ne_gt.2 hab) (Ordering.isLE_iff_ne_gt.2 hbc))

/-- What is made of some items of a list, each naming its item, names them in the list's order. -/
theorem map_filterMap_sublist {α β : Type*} {f : α → Option β} {g : β → α} (h : ∀ a b, f a = some b → g b = a) :
    ∀ l : List α, ((l.filterMap f).map g).Sublist l
  | [] => List.Sublist.slnil
  | a :: l => by
    have ih := map_filterMap_sublist h l
    rw [List.filterMap_cons]
    cases hf : f a with
    | none => exact ih.cons a
    | some b =>
      rw [List.map_cons, h a b hf]
      exact ih.cons_cons a

/-- Whatever the order of the table of references, the subvolumes listed are, each once and sorted
by path, those with a reference back from which a chain leads up to the top level, with the path
that the chain gives, as long as none is nested deeper than the recursion goes. -/
theorem subvolumes_listed {items : List Item} {order : List Nat}
    (hdeep : ∀ id n, Nested (roots items).backrefs id n → n ≤ maxNesting)
    (horder : order.Perm ((roots items).backrefs.entries.map Prod.fst)) :
    ((subvolumes lookup order items).map Subvolume.id).Nodup ∧
      ((subvolumes lookup order items).Pairwise fun a b => nameLe a.path b.path = true) ∧
      ∀ v, v ∈ subvolumes lookup order items ↔
        ((roots items).backrefs.get v.id).isSome = true ∧
          v.snapshot = (roots items).snapshots.contains v.id ∧
          ∃ path, PathOf (roots items).backrefs lookup v.id path ∧ v.path = Utf8.lossy path := by
  have htotal := total_nameLe Subvolume.path
  have htrans := trans_nameLe Subvolume.path
  have hmem : ∀ id, id ∈ order ↔ ((roots items).backrefs.get id).isSome = true := by
    intro id
    rw [horder.mem_iff, Option.isSome_iff_exists]
    constructor
    · intro h
      obtain ⟨e, he, rfl⟩ := List.mem_map.1 h
      exact ⟨e.2, Table.get_eq_some.2 he⟩
    · rintro ⟨b, hb⟩
      exact List.mem_map_of_mem (Table.get_eq_some.1 hb)
  refine ⟨?_, List.pairwise_insertionSort _ _, ?_⟩
  · refine ((List.perm_insertionSort _ _).map Subvolume.id).nodup_iff.2 ?_
    have hnodup : order.Nodup := horder.nodup_iff.2 (roots items).backrefs.nodup
    refine hnodup.sublist (map_filterMap_sublist ?_ order)
    intro id v hv
    obtain ⟨path, _, rfl⟩ := Option.map_eq_some_iff.1 hv
    rfl
  · intro v
    rw [subvolumes, List.mem_insertionSort, List.mem_filterMap]
    constructor
    · rintro ⟨id, hid, hv⟩
      obtain ⟨path, hpath, rfl⟩ := Option.map_eq_some_iff.1 hv
      exact ⟨(hmem id).1 hid, rfl, path, (resolved_right hdeep hid path).1 hpath, rfl⟩
    · rintro ⟨hback, hsnapshot, path, hpath, hlossy⟩
      have hid := (hmem v.id).2 hback
      refine ⟨v.id, hid, ?_⟩
      rw [(resolved_right hdeep hid path).2 hpath, Option.map_some, ← hlossy, ← hsnapshot]

/-! ### Two subvolumes, one in the other -/

/-- A reference back: 16 bytes of the directory and a sequence number, the name's length, the name. -/
def backrefItem (id parent dir : Nat) (name : String) : Item :=
  ⟨⟨id, rootBackref, parent⟩,
    LittleEndian.write 8 dir ++ LittleEndian.write 8 0 ++ LittleEndian.write 2 name.length ++ ascii name⟩

/-- `/@home`, in it `mail/new`, and a subvolume whose parent is not on the volume. -/
def homeItems : List Item := [backrefItem 256 5 256 "@home", backrefItem 257 256 300 "new", backrefItem 258 999 256 "lost"]

/-- The directories holding them. -/
def homeLookup (tree dir : Nat) : Option Bytes :=
  if (tree, dir) = (256, 300) then some (ascii "mail/") else if dir = 256 then some [] else none

example : subvolumes homeLookup [257, 258, 256] homeItems =
    [⟨256, ascii "/@home", false⟩, ⟨257, ascii "/@home/mail/new", false⟩] := by decide

theorem backrefs_home : (roots homeItems).backrefs.entries =
    [(258, ⟨999, 256, ascii "lost"⟩), (257, ⟨256, 300, ascii "new"⟩), (256, ⟨5, 256, ascii "@home"⟩)] := by decide

theorem nested_home {id n : Nat} (h : Nested (roots homeItems).backrefs id n) :
    id = 5 ∧ n = 0 ∨ id = 256 ∧ n = 1 ∨ id = 257 ∧ n = 2 := by
  induction h with
  | top => exact .inl ⟨rfl, rfl⟩
  | inside htop hb _ ih =>
    have hmem := Table.get_eq_some.1 hb
    rw [backrefs_home] at hmem
    simp only [List.mem_cons, Prod.mk.injEq, List.not_mem_nil, or_false] at hmem
    rcases hmem with ⟨rfl, rfl⟩ | ⟨rfl, rfl⟩ | ⟨rfl, rfl⟩ <;> simp_all

theorem subvolumes_listed_home :
    ((subvolumes homeLookup [257, 258, 256] homeItems).map Subvolume.id).Nodup ∧
      ((subvolumes homeLookup [257, 258, 256] homeItems).Pairwise fun a b => nameLe a.path b.path = true) ∧
      ∀ v, v ∈ subvolumes homeLookup [257, 258, 256] homeItems ↔
        ((roots homeItems).backrefs.get v.id).isSome = true ∧
          v.snapshot = (roots homeItems).snapshots.contains v.id ∧
          ∃ path, PathOf (roots homeItems).backrefs homeLookup v.id path ∧ v.path = Utf8.lossy path := by
  refine subvolumes_listed ?_ ?_
  · intro id n h
    have := nested_home h
    unfold maxNesting
    omega
  · rw [backrefs_home]
    decide

end StorageHarvester.Btrfs
