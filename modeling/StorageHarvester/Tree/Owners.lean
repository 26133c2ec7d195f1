/-
Multiply linked files in the totals: each is counted in the `direct` of the directory that owns it.
`rest` is what a directory's `direct` counts beyond the files it owns; it covers its subdirectories'
own inodes. `detach` and `graft` leave it alone, and a size moved with its owner does too.
-/
import StorageHarvester.Tree.RollUp

namespace StorageHarvester

open Forest

/-- What a multiply linked file adds to its owner. -/
def LinkOwner.size (owner : LinkOwner) (c : Component) : Int := sizeAt owner.blocks owner.apparent c

theorem LinkOwner.size_nonneg (owner : LinkOwner) (c : Component) : 0 ≤ owner.size c := Int.natCast_nonneg _

/-- A directory's own inode. -/
def DirNode.own (n : DirNode) (c : Component) : Int := sizeAt n.ownBlocks n.ownApparent c

theorem DirNode.own_nonneg (n : DirNode) (c : Component) : 0 ≤ n.own c := Int.natCast_nonneg _

namespace Table

variable {κ ν : Type*} [DecidableEq κ] {M : Type*} [AddCommMonoid M]

/-- Entries under fresh keys, added one after the other. -/
theorem total_foldl_putNew {ω : Type*} (g : ω → ν) (f : κ → ν → M) : ∀ (l : List (κ × ω)) (t : Table κ ν),
    (l.map Prod.fst).Nodup → (∀ e ∈ l, t.get e.1 = none) →
    (l.foldl (fun t e => t.putNew e.1 (g e.2)) t).total f = t.total f + (l.map fun e => f e.1 (g e.2)).sum
  | [], t, _, _ => by simp
  | e :: l, t, hn, hf => by
    rw [List.map_cons, List.nodup_cons] at hn
    have he := hf e (List.mem_cons_self ..)
    rw [List.foldl_cons, total_foldl_putNew g f l _ hn.2 fun x hx => ?_, putNew_of_none he, total_put_of_none he,
      List.map_cons, List.sum_cons, add_assoc]
    rw [putNew_of_none he, get_put, if_neg, hf x (List.mem_cons_of_mem _ hx)]
    exact fun hk => hn.1 (hk ▸ List.mem_map_of_mem hx)

/-- Lookup after entries were added where there was none. -/
theorem get_foldl_putNew {ω : Type*} (g : ω → ν) (k : κ) : ∀ (l : List (κ × ω)) (t : Table κ ν),
    (l.foldl (fun t e => t.putNew e.1 (g e.2)) t).get k =
      (t.get k).or ((l.find? fun e => e.1 = k).map fun e => g e.2)
  | [], t => by simp
  | e :: l, t => by
    rw [List.foldl_cons, get_foldl_putNew g k l, get_putNew, Option.or_assoc]
    congr 1
    by_cases hk : e.1 = k
    · subst hk; simp
    · simp [hk, Ne.symm hk]

end Table

namespace DirTree

/-! ## Owned and rest -/

/-- What directory `m` counts of multiply linked files. -/
def owned (t : DirTree) (m : Nat) (c : Component) : Int := t.links.total fun _ owner => if owner.node = m then owner.size c else 0

/-- What directory `m` counts directly beyond the multiply linked files it owns. -/
def rest (t : DirTree) (m : Nat) (c : Component) : Int := (t.node m).direct.get c - t.owned m c

/-- All multiply linked files. -/
def linked (t : DirTree) (c : Component) : Int := t.links.total fun _ owner => owner.size c

/-- Every multiply linked file is counted in an alive directory. -/
def OwnersAlive (t : DirTree) : Prop := ∀ inode owner, t.links.get inode = some owner → (t.node owner.node).alive = true

/-- Every alive directory counts its subdirectories' own inodes beside the files it owns. -/
def Covered (t : DirTree) : Prop :=
  ∀ i, (t.node i).alive = true → ∀ c, t.overChildren i (fun n => n.own c) ≤ t.rest i c

theorem Table.total_nonneg {κ ν : Type*} [DecidableEq κ] {t : Table κ ν} {f : κ → ν → Int}
    (h : ∀ k v, 0 ≤ f k v) : 0 ≤ t.total f :=
  List.sum_nonneg fun x hx => by
    obtain ⟨e, -, rfl⟩ := List.mem_map.1 hx
    exact h _ _

theorem Table.total_mono {κ ν : Type*} [DecidableEq κ] {t : Table κ ν} {f g : κ → ν → Int}
    (h : ∀ k v, t.get k = some v → f k v ≤ g k v) : t.total f ≤ t.total g :=
  List.sum_le_sum fun e he => h e.1 e.2 (Table.get_eq_some.2 he)

theorem owned_nonneg (t : DirTree) (m : Nat) (c : Component) : 0 ≤ t.owned m c :=
  Table.total_nonneg fun _ owner => by split; exacts [owner.size_nonneg c, le_rfl]

theorem owned_le_linked (t : DirTree) (m : Nat) (c : Component) : t.owned m c ≤ t.linked c :=
  Table.total_mono fun _ owner _ => by split; exacts [le_rfl, owner.size_nonneg c]

theorem linked_nonneg (t : DirTree) (c : Component) : 0 ≤ t.linked c := Table.total_nonneg fun _ owner => owner.size_nonneg c

/-- `owned` and `linked` read the table only. -/
theorem owned_congr {t u : DirTree} (h : u.links = t.links) (m : Nat) (c : Component) : u.owned m c = t.owned m c := by
  unfold owned; rw [h]

theorem direct_eq (t : DirTree) (m : Nat) (c : Component) : ((t.node m).direct.get c : Int) = t.rest m c + t.owned m c := by
  unfold rest; omega

/-! ## Detaching -/

section Detach

variable {t : DirTree} {child p : Nat}

theorem links_detach (hp : (t.node child).parent = some p) :
    (t.detach child).1.links = t.links.retain fun _ owner =>
      if ((t.detach child).1.node owner.node).alive then some ((t.detach child).1.pruneOthers owner) else none := by
  simp only [detach, hp]
  rfl

theorem handed_detach (hp : (t.node child).parent = some p) :
    (t.detach child).2 = t.links.entries.filterMap fun e =>
      if ((t.detach child).1.node e.2.node).alive then none else some (e.1, (t.detach child).1.pruneOthers e.2) := by
  simp only [detach, hp]
  rfl

/-- Files owned by a directory that stays, stay. -/
theorem owned_detach (hp : (t.node child).parent = some p) {m : Nat}
    (hm : ((t.detach child).1.node m).alive = true) (c : Component) : (t.detach child).1.owned m c = t.owned m c := by
  unfold owned
  rw [links_detach hp, Table.total_retain]
  refine Table.total_congr fun _ owner _ => ?_
  by_cases ho : owner.node = m
  · rw [ho, hm]
    simp [pruneOthers, LinkOwner.size, ho]
  · cases ha : ((t.detach child).1.node owner.node).alive <;> simp [pruneOthers, ho]

theorem OwnersAlive.detach (hp : (t.node child).parent = some p) :
    (t.detach child).1.OwnersAlive := by
  intro inode owner ho
  rw [links_detach hp, Table.get_retain, Option.bind_eq_some_iff] at ho
  obtain ⟨owner', -, ho⟩ := ho
  split at ho
  · cases ho; assumption
  · cases ho

theorem direct_detach (h : Shape t) (hc : (t.node child).alive = true) (hp : (t.node child).parent = some p) (m : Nat) :
    ((t.detach child).1.node m).direct = (t.node m).direct := by rw [h.node_detach hc hp]

theorem rest_detach (h : Shape t) (hc : (t.node child).alive = true) (hp : (t.node child).parent = some p) {m : Nat}
    (hm : ((t.detach child).1.node m).alive = true) (c : Component) : (t.detach child).1.rest m c = t.rest m c := by
  unfold rest
  rw [direct_detach h hc hp, owned_detach hp hm]

end Detach

/-! ## Grafting -/

section Graft

variable {t other : DirTree} {under : Nat}

theorem links_graft (t : DirTree) (under : Nat) (other : DirTree) :
    (t.graft under other).1.links =
      other.links.entries.foldl (fun links e => links.putNew e.1 (e.2.offset t.nodes.length)) t.links := by
  unfold graft
  simp [attach]

/-- The two trees count no file in common, and own none outside themselves. -/
structure Apart (t other : DirTree) : Prop where
  disjoint : ∀ inode owner, other.links.get inode = some owner → t.links.get inode = none
  left : ∀ inode owner, t.links.get inode = some owner → owner.node < t.nodes.length
  right : ∀ inode owner, other.links.get inode = some owner → owner.node < other.nodes.length

theorem total_graft (h : Apart t other) (f : Inode → LinkOwner → Int) :
    (t.graft under other).1.links.total f =
      t.links.total f + other.links.total fun inode owner => f inode (owner.offset t.nodes.length) := by
  rw [links_graft, Table.total_foldl_putNew (LinkOwner.offset t.nodes.length) f _ _ other.links.nodup fun e he =>
    h.disjoint e.1 e.2 (Table.get_eq_some.2 he)]
  rfl

theorem owned_graft_old (h : Apart t other) {m : Nat} (hm : m < t.nodes.length) (c : Component) :
    (t.graft under other).1.owned m c = t.owned m c := by
  unfold owned
  rw [total_graft h]
  refine (congrArg (_ + ·) (Table.total_zero fun inode owner _ => ?_)).trans (add_zero _)
  rw [if_neg]
  show ¬owner.node + t.nodes.length = m
  omega

theorem owned_graft_new (h : Apart t other) (k : Nat) (c : Component) :
    (t.graft under other).1.owned (t.nodes.length + k) c = other.owned k c := by
  unfold owned
  rw [total_graft h, Table.total_zero (t := t.links) fun inode owner ho => ?_, zero_add]
  · refine Table.total_congr fun inode owner _ => ?_
    show (if owner.node + t.nodes.length = t.nodes.length + k then _ else _) = _
    rw [Nat.add_comm t.nodes.length k]
    simp only [Nat.add_right_cancel_iff]
    rfl
  · have := h.left inode owner ho
    rw [if_neg (by omega)]

end Graft

end DirTree

end StorageHarvester
