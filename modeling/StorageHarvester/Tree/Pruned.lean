/-
The tree JSON of `/api/tree` (`DirTree::pruned`, `DirTree::node_json`): a best-first selection
through a heap, then a recursive rendering with saturating subtractions. On a rolled-up tree the
figures conserve bytes: at every directory shown, what is displayed adds up to its total, no
subtraction saturates, and the rest is exactly what was not walked or not listed.
-/
import StorageHarvester.Lib.Heap
import StorageHarvester.Lib.Utf8
import StorageHarvester.Tree.RollUp

namespace StorageHarvester

/-- `Iterator::sum` of `u64`s; wraps, as release builds do. -/
def sumU64 (l : List Nat) : Nat := l.sum % 2 ^ 64

theorem sumU64_eq {l : List Nat} (h : l.sum < 2 ^ 64) : sumU64 l = l.sum := Nat.mod_eq_of_lt h

/-! ## The heap -/

/-- A directory in the heap: its total and its number. -/
abbrev Candidate := Nat × Nat

/-- `Ord for Candidate`: the smaller total first, then the larger number. -/
def Candidate.lt (a b : Candidate) : Bool := a.1 < b.1 || (a.1 == b.1 && b.2 < a.2)

/-! ## The view -/

/-- The JSON object of one directory. `c` is left out of the object when it is empty. -/
structure NodeJson where
  n : Bytes
  t : Nat
  a : Nat
  f : Nat
  d : Nat
  l : Nat
  o : Nat
  k : Nat
  m : Option Int
  x : Option Nat
  r : Nat
  c : List NodeJson

/-- `Path::file_name`. -/
def fileName (path : Bytes) : Option Bytes :=
  match (pathComponents path).getLast? with
  | some (.normal name) => some name
  | _ => none

namespace DirTree

/-- The loop of `pruned`: which children are listed under which directory. Every directory popped
was pushed, and at most `limit` are pushed. -/
def prunedLoop (t : DirTree) (limit depth minBytes base : Nat) :
    Nat → Nat → List Candidate → Table Nat (List Nat) → Table Nat (List Nat)
  | 0, _, _, listed => listed
  | fuel + 1, count, heap, listed =>
    match Heap.pop Candidate.lt heap with
    | none => listed
    | some ((_, at_), heap) =>
      if limit ≤ count then listed
      else if depth ≤ (t.node at_).depth - base then prunedLoop t limit depth minBytes base fuel count heap listed
      else
        let kids := (((t.node at_).children.filter fun child => max minBytes 1 ≤ (t.node child).totalBlocks).insertionSort
          fun x y => (t.node y).totalBlocks ≤ (t.node x).totalBlocks).take (limit - count)
        prunedLoop t limit depth minBytes base fuel (count + kids.length)
          (kids.map (fun child => ((t.node child).totalBlocks, child)) ++ heap) (listed.put at_ kids)

/-- What `pruned` lists. -/
def prunedListing (t : DirTree) (start limit depth minBytes : Nat) : Table Nat (List Nat) :=
  t.prunedLoop limit depth minBytes (t.node start).depth (limit + 1) 1 [((t.node start).totalBlocks, start)] .empty

/-- The children listed under a directory. -/
def kidsOf (listed : Table Nat (List Nat)) (index : Nat) : List Nat := (listed.get index).getD []

/-- The bytes directly in a directory, its subdirectories' own inodes apart. -/
def filesHere (t : DirTree) (index : Nat) : Nat :=
  (t.node index).direct.blocks - sumU64 ((t.node index).children.map fun child => (t.node child).ownBlocks)

def nodeName (t : DirTree) (index : Nat) : Bytes :=
  if index = 0 then match fileName t.displayRoot with
    | some name => Utf8.lossy name
    | none => [slash]
  else Utf8.lossy (t.node index).name

/-- `node_json`, for at most `fuel` levels; the annotations of a thin pool apart. -/
def nodeJson (t : DirTree) (listed : Table Nat (List Nat)) (exclusive : Option (Table Nat Nat)) : Nat → Nat → NodeJson
  | 0, index =>
    { n := t.nodeName index, t := 0, a := 0, f := 0, d := 0, l := 0, o := 0, k := 0, m := none, x := none, r := 0, c := [] }
  | fuel + 1, index =>
    let node := t.node index
    let filesHere := t.filesHere index
    let listedTotal := sumU64 ((kidsOf listed index).map fun child => (t.node child).totalBlocks)
    { n := t.nodeName index
      t := node.totalBlocks
      a := node.totalApparent
      f := node.sub.files
      d := node.sub.dirs
      l := node.sub.symlinks
      o := filesHere
      k := node.direct.dirs
      m := if node.newest ≠ noTime then some node.newest else none
      x := exclusive.bind fun map => map.get node.ino
      r := node.totalBlocks - node.ownBlocks - filesHere - listedTotal
      c := (kidsOf listed index).map (nodeJson t listed exclusive fuel) }

/-- The JSON view, best-first: the largest listed node is expanded next, until `limit` nodes are
listed or nothing within `depth` levels is at least `minBytes`. A child has a larger number than
its parent, so there are no more levels than nodes. -/
def pruned (t : DirTree) (start limit depth minBytes : Nat) (exclusive : Option (Table Nat Nat)) : NodeJson :=
  t.nodeJson (t.prunedListing start limit depth minBytes) exclusive t.nodes.length start

/-! ## The selection -/

/-- As many rounds as there are directories waiting or still to be listed are enough. -/
theorem prunedLoop_fuel (t : DirTree) (limit depth minBytes base : Nat) : ∀ (fuel count : Nat) (heap : List Candidate)
    (listed : Table Nat (List Nat)), heap.length + (limit - count) ≤ fuel →
    t.prunedLoop limit depth minBytes base (fuel + 1) count heap listed =
      t.prunedLoop limit depth minBytes base fuel count heap listed
  | 0, count, heap, listed, h => by
    obtain rfl : heap = [] := List.length_eq_zero_iff.1 (by omega)
    rfl
  | fuel + 1, count, heap, listed, h => by
    rw [prunedLoop]
    conv_rhs => rw [prunedLoop]
    cases hp : Heap.pop Candidate.lt heap with
    | none => rfl
    | some p =>
      obtain ⟨⟨total, at_⟩, heap'⟩ := p
      have hlen := (Heap.pop_perm hp).length_eq
      rw [List.length_cons] at hlen
      simp only
      split
      · rfl
      · rename_i hlim
        split
        · exact prunedLoop_fuel t limit depth minBytes base fuel count heap' listed (by omega)
        · refine prunedLoop_fuel t limit depth minBytes base fuel _ _ _ ?_
          rw [List.length_append, List.length_map]
          have := List.length_take_le (limit - count)
            (((t.node at_).children.filter fun child => max minBytes 1 ≤ (t.node child).totalBlocks).insertionSort
              fun x y => (t.node y).totalBlocks ≤ (t.node x).totalBlocks)
          omega

/-- Listed children are children, each listed once. -/
def Listing (t : DirTree) (listed : Table Nat (List Nat)) : Prop :=
  ∀ i kids, listed.get i = some kids → kids.Subperm (t.node i).children

theorem listing_prunedLoop (t : DirTree) (limit depth minBytes base : Nat) : ∀ (fuel count : Nat) (heap : List Candidate)
    (listed : Table Nat (List Nat)), t.Listing listed → t.Listing (t.prunedLoop limit depth minBytes base fuel count heap listed)
  | 0, _, _, _, h => h
  | fuel + 1, count, heap, listed, h => by
    rw [prunedLoop]
    split
    · exact h
    · split
      · exact h
      · split
        · exact listing_prunedLoop t limit depth minBytes base fuel count _ listed h
        · refine listing_prunedLoop t limit depth minBytes base fuel _ _ _ fun i kids hk => ?_
          rw [Table.get_put] at hk
          split at hk
          · rename_i hi
            cases hk
            subst hi
            exact (List.take_sublist _ _).subperm.trans
              ((List.perm_insertionSort _ _).subperm.trans List.filter_sublist.subperm)
          · exact h i kids hk

theorem listing_pruned (t : DirTree) (start limit depth minBytes : Nat) :
    t.Listing (t.prunedListing start limit depth minBytes) :=
  listing_prunedLoop t limit depth minBytes _ _ _ _ _ fun i kids h => by simp at h

/-! ## Conservation -/

/-- The sum of `f` over the children of `i`, as the numbers the view adds up. -/
def overKids (t : DirTree) (i : Nat) (f : DirNode → Nat) : Nat := ((t.node i).children.map fun j => f (t.node j)).sum

/-- What the view needs of the totals: a directory holds at least its entries and its
subdirectories, its entries at least the subdirectories' own inodes, and totals are `u64`s. -/
structure Tallied (t : DirTree) : Prop where
  sub : ∀ i, (t.node i).alive = true →
    (t.node i).direct.blocks + t.overKids i (fun n => n.sub.blocks) ≤ (t.node i).sub.blocks
  direct : ∀ i, (t.node i).alive = true → t.overKids i (fun n => n.ownBlocks) ≤ (t.node i).direct.blocks
  u64 : ∀ i, (t.node i).alive = true → (t.node i).ownBlocks + (t.node i).sub.blocks < 2 ^ 64

/-- The bytes of directories below `i` that have no node and are counted in `i`. -/
def untracked (t : DirTree) (i : Nat) : Nat :=
  (t.node i).sub.blocks - ((t.node i).direct.blocks + t.overKids i fun n => n.sub.blocks)

/-- The totals of the children of `i` that are not listed. -/
def leftOut (t : DirTree) (listed : Table Nat (List Nat)) (i : Nat) : Nat :=
  (((t.node i).children.filter fun j => j ∉ kidsOf listed i).map fun j => (t.node j).totalBlocks).sum

/-- The object `v` shows directory `i` in the view of `start`. -/
inductive Shown (listed : Table Nat (List Nat)) (start : Nat) (view : NodeJson) : Nat → NodeJson → Prop
  | start : Shown listed start view start view
  | child {i j : Nat} {v w : NodeJson} (h : Shown listed start view i v) (hw : (j, w) ∈ (kidsOf listed i).zip v.c) :
      Shown listed start view j w

/-- The figures shown for directory `i` add up, with nothing saturated on the way. -/
structure Conserves (t : DirTree) (listed : Table Nat (List Nat)) (i : Nat) (v : NodeJson) : Prop where
  children : v.c.length = (kidsOf listed i).length
  total : v.t = (t.node i).ownBlocks + (t.node i).sub.blocks
  sum : v.t = (t.node i).ownBlocks + v.o + v.r + (v.c.map NodeJson.t).sum
  files : v.o + sumU64 ((t.node i).children.map fun j => (t.node j).ownBlocks) = (t.node i).direct.blocks
  saturates : (t.node i).ownBlocks ≤ v.t ∧ v.o ≤ v.t - (t.node i).ownBlocks ∧
    sumU64 ((kidsOf listed i).map fun j => (t.node j).totalBlocks) ≤ v.t - (t.node i).ownBlocks - v.o
  rest : v.r = t.untracked i + t.leftOut listed i

theorem kidsOf_subperm {t : DirTree} {listed : Table Nat (List Nat)} (hl : t.Listing listed) (i : Nat) :
    (kidsOf listed i).Subperm (t.node i).children := by
  unfold kidsOf
  cases h : listed.get i with
  | none => exact List.nil_subperm
  | some kids => exact hl i kids h

theorem sum_filter_notMem {f : Nat → Nat} {l kids : List Nat} (hn : l.Nodup) (hk : kids.Subperm l) :
    ((l.filter fun j => j ∉ kids).map f).sum + (kids.map f).sum = (l.map f).sum := by
  have hin : (l.filter fun j => j ∈ kids).Perm kids := by
    have hkn : kids.Nodup := by
      obtain ⟨k, hkp, hks⟩ := hk
      exact hkp.nodup_iff.1 (hks.nodup hn)
    refine (List.perm_ext_iff_of_nodup (hn.filter _) hkn).2 fun j => ?_
    rw [List.mem_filter]
    exact ⟨fun h => by simpa using h.2, fun h => ⟨hk.subset h, by simpa using h⟩⟩
  have hsplit := (List.filter_append_perm (fun j => decide (j ∈ kids)) l).map f
  have hsum := hsplit.sum_eq
  rw [List.map_append, List.sum_append, (hin.map f).sum_eq] at hsum
  have hnot : (l.filter fun j => !decide (j ∈ kids)) = l.filter fun j => j ∉ kids := by simp
  rw [hnot] at hsum
  omega

theorem eq_of_mem_zip_map {α β : Type*} (f : α → β) : ∀ (l : List α) {a : α} {b : β}, (a, b) ∈ l.zip (l.map f) → b = f a
  | [], _, _, h => by simp at h
  | x :: l, a, b, h => by
    rw [List.map_cons, List.zip_cons_cons, List.mem_cons] at h
    rcases h with h | h
    · cases h; rfl
    · exact eq_of_mem_zip_map f l h

section

variable {t : DirTree} {listed : Table Nat (List Nat)} {exclusive : Option (Table Nat Nat)}

/-- The object rendered for an alive directory conserves its bytes. -/
theorem conserves_nodeJson (h : Shape t) (ht : t.Tallied) (hl : t.Listing listed) {i : Nat}
    (hi : (t.node i).alive = true) {fuel : Nat} (hf : t.nodes.length - i ≤ fuel) :
    t.Conserves listed i (t.nodeJson listed exclusive fuel i) := by
  obtain ⟨fuel, rfl⟩ : ∃ m, fuel = m + 1 := ⟨fuel - 1, by have := lt_of_alive hi; omega⟩
  have hsub := ht.sub i hi
  have hdir := ht.direct i hi
  have hu64 := ht.u64 i hi
  have hk := kidsOf_subperm hl i
  have hkid : ∀ j ∈ (t.node i).children, (t.node j).totalBlocks = (t.node j).ownBlocks + (t.node j).sub.blocks := by
    intro j hj
    exact Nat.min_eq_left (by have := ht.u64 j (h.child i hi j hj).1; unfold u64Max; omega)
  -- the children's totals are their own inodes and what they hold
  have htotals : ((t.node i).children.map fun j => (t.node j).totalBlocks).sum =
      t.overKids i (fun n => n.ownBlocks) + t.overKids i (fun n => n.sub.blocks) := by
    unfold overKids
    rw [← List.sum_map_add]
    exact congrArg List.sum (List.map_congr_left hkid)
  have hparts : t.leftOut listed i + ((kidsOf listed i).map fun j => (t.node j).totalBlocks).sum =
      ((t.node i).children.map fun j => (t.node j).totalBlocks).sum := sum_filter_notMem (h.nodup hi) hk
  have hown : sumU64 ((t.node i).children.map fun j => (t.node j).ownBlocks) = t.overKids i fun n => n.ownBlocks :=
    sumU64_eq (by show t.overKids i (fun n => n.ownBlocks) < _; omega)
  have hlisted : sumU64 ((kidsOf listed i).map fun j => (t.node j).totalBlocks) =
      ((kidsOf listed i).map fun j => (t.node j).totalBlocks).sum := sumU64_eq (by omega)
  have htotal : (t.node i).totalBlocks = (t.node i).ownBlocks + (t.node i).sub.blocks :=
    Nat.min_eq_left (by unfold u64Max; omega)
  -- every listed child is rendered with its total
  have hc : ((t.nodeJson listed exclusive (fuel + 1) i).c.map NodeJson.t) =
      (kidsOf listed i).map fun j => (t.node j).totalBlocks := by
    show ((kidsOf listed i).map (t.nodeJson listed exclusive fuel)).map NodeJson.t = _
    rw [List.map_map]
    refine List.map_congr_left fun j hj => ?_
    have hj' := hk.subset hj
    have hlt := h.lt_of_child hi hj'
    have hjl := lt_of_alive (h.child i hi j hj').1
    obtain ⟨m, rfl⟩ : ∃ m, fuel = m + 1 := ⟨fuel - 1, by omega⟩
    rfl
  have ho : (t.nodeJson listed exclusive (fuel + 1) i).o =
      (t.node i).direct.blocks - t.overKids i fun n => n.ownBlocks := by
    show t.filesHere i = _
    unfold filesHere
    rw [hown]
  have hr : (t.nodeJson listed exclusive (fuel + 1) i).r =
      (t.node i).totalBlocks - (t.node i).ownBlocks - t.filesHere i -
        sumU64 ((kidsOf listed i).map fun child => (t.node child).totalBlocks) := rfl
  have hft : t.filesHere i = (t.node i).direct.blocks - t.overKids i fun n => n.ownBlocks := ho
  have ht' : (t.nodeJson listed exclusive (fuel + 1) i).t = (t.node i).totalBlocks := rfl
  refine ⟨List.length_map .., ht'.trans htotal, ?_, ?_, ?_, ?_⟩
  · rw [hc, ho, hr, ht', htotal, hft, hlisted]; omega
  · rw [ho, hown]; omega
  · rw [ho, ht', htotal, hlisted]; omega
  · rw [hr, htotal, hft, hlisted]
    unfold untracked
    omega

/-- Every object of a view is the rendering of an alive directory. -/
theorem Shown.nodeJson (h : Shape t) (hl : t.Listing listed) {start : Nat} (hs : (t.node start).alive = true) {i : Nat}
    {v : NodeJson} (hv : Shown listed start (t.nodeJson listed exclusive t.nodes.length start) i v) :
    (t.node i).alive = true ∧ ∃ fuel, t.nodes.length - i ≤ fuel ∧ v = t.nodeJson listed exclusive fuel i := by
  induction hv with
  | start => exact ⟨hs, t.nodes.length, Nat.sub_le _ _, rfl⟩
  | @child i j v w _ hw ih =>
    obtain ⟨hi, fuel, hf, rfl⟩ := ih
    have hil := lt_of_alive hi
    obtain ⟨fuel, rfl⟩ : ∃ m, fuel = m + 1 := ⟨fuel - 1, by omega⟩
    have hj := (kidsOf_subperm hl i).subset (List.of_mem_zip hw).1
    have hlt := h.lt_of_child hi hj
    exact ⟨(h.child i hi j hj).1, fuel, by omega, eq_of_mem_zip_map _ _ hw⟩

end

/-- The tree JSON conserves bytes: for every start, limit, depth and minimum size, at every
directory shown, the own inode, the files here, the rest and the listed children add up to the
total; nothing saturates; and the rest is what is untracked below plus the children left out. -/
theorem pruned_conserves {t : DirTree} (h : Shape t) (ht : t.Tallied) (limit depth minBytes : Nat)
    (exclusive : Option (Table Nat Nat)) {start : Nat} (hs : (t.node start).alive = true) {i : Nat} {v : NodeJson}
    (hv : Shown (t.prunedListing start limit depth minBytes) start (t.pruned start limit depth minBytes exclusive) i v) :
    t.Conserves (t.prunedListing start limit depth minBytes) i v := by
  have hl := t.listing_pruned start limit depth minBytes
  obtain ⟨hi, fuel, hf, rfl⟩ := Shown.nodeJson h hl hs hv
  exact conserves_nodeJson h ht hl hi hf

/-- The tree of the source's tests: `/data` with `a`, `b` and `a/x`, rolled up. -/
def sample : DirTree :=
  let node (name : Bytes) (parent : Option Nat) (depth direct sub : Nat) (children : List Nat) (newest : Int) : DirNode :=
    { name := name, parent := parent, depth := depth, ino := 100 + depth, ownBlocks := 4, ownApparent := 4, mtime := 0
      newest := newest, direct := { blocks := direct }, sub := { blocks := sub }, children := children
      isSealed := false, pruned := false, alive := true }
  { displayRoot := [47, 100, 97, 116, 97], scanRoot := [47, 104, 111, 115, 116, 47, 100, 97, 116, 97], rootDev := 1
    nodes := [node [] none 0 18 1172 [1, 2] 300, node [97] (some 0) 1 104 1104 [3] 300, node [98] (some 0) 1 50 50 [] 50,
      node [120] (some 1) 2 1000 1000 [] 300]
    links := .empty, handles := [], plain := [], untrackedLinks := [] }

theorem shape_sample : Shape sample := Shape.of_at rfl rfl (by decide)

theorem tallied_sample : sample.Tallied := by
  have hcheck : ∀ i < sample.nodes.length,
      (sample.node i).direct.blocks + sample.overKids i (fun n => n.sub.blocks) ≤ (sample.node i).sub.blocks ∧
        sample.overKids i (fun n => n.ownBlocks) ≤ (sample.node i).direct.blocks ∧
        (sample.node i).ownBlocks + (sample.node i).sub.blocks < 2 ^ 64 := by decide
  exact ⟨fun i hi => (hcheck i (lt_of_alive hi)).1, fun i hi => (hcheck i (lt_of_alive hi)).2.1,
    fun i hi => (hcheck i (lt_of_alive hi)).2.2⟩

theorem pruned_conserves_sample : sample.Conserves (sample.prunedListing 0 2 10 1) 0 (sample.pruned 0 2 10 1 none) :=
  pruned_conserves shape_sample tallied_sample 2 10 1 none rfl .start

/-- Listing two directories, `b` goes to the rest. -/
example : ((sample.pruned 0 2 10 1 none).c.map NodeJson.t, (sample.pruned 0 2 10 1 none).r) = ([1108], 54) := by
  rfl

end DirTree

end StorageHarvester
