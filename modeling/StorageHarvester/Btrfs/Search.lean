/-
The tree search of btrfs (`Key::successor` and `Searcher::search` in `src/btrfs.rs`): one call answers
with the next items in key order, and the search goes on from the successor of the last one until an
answer is empty. Every item a call passes over was in none of the trees the calls saw.
-/
import StorageHarvester.Btrfs.Sharing

namespace StorageHarvester.Btrfs

/-! ## Keys -/

/-- `u64::MAX`. -/
def u64Max : Nat := 2 ^ 64 - 1

namespace Key

def least : Key := ⟨0, 0, 0⟩
def greatest : Key := ⟨u64Max, 255, u64Max⟩

/-- A key of `u64` numbers and a `u8` kind. -/
structure Valid (k : Key) : Prop where
  objectid : k.objectid ≤ u64Max
  kind : k.kind ≤ 255
  offset : k.offset ≤ u64Max

def successor (k : Key) : Option Key :=
  if k.offset < u64Max then some { k with offset := k.offset + 1 }
  else if k.kind < 255 then some { k with kind := k.kind + 1, offset := 0 }
  else if k.objectid < u64Max then some ⟨k.objectid + 1, 0, 0⟩
  else none

theorem le_refl (k : Key) : k.le k := by simp [le]

theorem le_total (a b : Key) : a.le b ∨ b.le a := by
  simp only [le]
  omega

theorem le_trans {a b c : Key} (h : a.le b) (h' : b.le c) : a.le c := by
  simp only [le] at *
  omega

theorem least_le (k : Key) : least.le k := by
  simp only [le, least]
  omega

theorem Valid.le_greatest {k : Key} (h : k.Valid) : k.le greatest := by
  have := h.objectid
  have := h.kind
  have := h.offset
  simp only [le, greatest]
  omega

/-- Nothing lies between a key and its successor. -/
theorem successor_le {k n x : Key} (hn : k.successor = some n) (hx : x.Valid) : n.le x ↔ ¬ x.le k := by
  have hk := hx.kind
  have ho := hx.offset
  have hi := hx.objectid
  unfold successor at hn
  split at hn
  · cases hn
    simp only [le]
    omega
  split at hn
  · cases hn
    simp only [le]
    omega
  split at hn
  · cases hn
    simp only [le]
    omega
  · cases hn

theorem le_of_successor_none {k x : Key} (hn : k.successor = none) (hx : x.Valid) : x.le k := by
  have hk := hx.kind
  have ho := hx.offset
  have hi := hx.objectid
  unfold successor at hn
  split at hn
  · cases hn
  split at hn
  · cases hn
  split at hn
  · cases hn
  · simp only [le]
    omega

end Key

/-! ## Trees -/

/-- An item, and the generation of the leaf it lies in. -/
structure Leaf where
  item : Item
  generation : Nat
  deriving DecidableEq, Repr

/-- The items of a subvolume, in key order, one for each key. -/
structure Tree where
  leaves : List Leaf
  sorted : leaves.Pairwise fun a b => ¬ b.item.key.le a.item.key
  valid : ∀ l ∈ leaves, l.item.key.Valid

namespace Tree

theorem eq_of_key_eq {t : Tree} {l l' : Leaf} (hl : l ∈ t.leaves) (hl' : l' ∈ t.leaves) (hk : l.item.key = l'.item.key) : l = l' := by
  have hnodup : (t.leaves.map fun l => l.item.key).Nodup := by
    rw [List.Nodup, List.pairwise_map]
    exact t.sorted.imp fun hab he => hab (by rw [he]; exact Key.le_refl _)
  exact List.inj_on_of_nodup_map hnodup hl hl' hk

/-- The items a search asks for. -/
def wanted (t : Tree) (low high : Key) (minTransid : Nat) : List Leaf :=
  t.leaves.filter fun l => low.le l.item.key ∧ l.item.key.le high ∧ minTransid ≤ l.generation

theorem mem_wanted {t : Tree} {low high : Key} {minTransid : Nat} {l : Leaf} :
    l ∈ t.wanted low high minTransid ↔ l ∈ t.leaves ∧ low.le l.item.key ∧ l.item.key.le high ∧ minTransid ≤ l.generation := by
  simp [wanted]

/-- What one call answers: as many of the items asked for as there is room for, in key order. -/
def search (t : Tree) (low high : Key) (minTransid room : Nat) : List Item :=
  ((t.wanted low high minTransid).take room).map Leaf.item

/-- An answer without items says that there are none. -/
theorem search_eq_nil {t : Tree} {low high : Key} {minTransid room : Nat} (hr : 0 < room)
    (h : t.search low high minTransid room = []) {l : Leaf} (hl : l ∈ t.leaves) (hlow : low.le l.item.key)
    (hhigh : l.item.key.le high) : l.generation < minTransid := by
  by_contra hg
  have hw : l ∈ t.wanted low high minTransid := mem_wanted.2 ⟨hl, hlow, hhigh, Nat.le_of_not_lt hg⟩
  have : t.wanted low high minTransid = [] := by
    rcases List.take_eq_nil_iff.1 (List.map_eq_nil_iff.1 h) with h0 | h0
    · omega
    · exact h0
  rw [this] at hw
  cases hw

/-- An item asked for is in the answer or comes after its last item. -/
theorem mem_search_or_after {t : Tree} {low high : Key} {minTransid room : Nat} {last : Item}
    (hlast : (t.search low high minTransid room).getLast? = some last) {l : Leaf} (hl : l ∈ t.wanted low high minTransid) :
    l.item ∈ t.search low high minTransid room ∨ ¬ l.item.key.le last.key := by
  have hsorted : (t.wanted low high minTransid).Pairwise fun a b => ¬ b.item.key.le a.item.key := t.sorted.filter _
  unfold search at *
  rw [← List.take_append_drop room (t.wanted low high minTransid)] at hl hsorted
  rcases List.mem_append.1 hl with htake | hdrop
  · exact .inl (List.mem_map_of_mem htake)
  · right
    obtain ⟨l', hl', rfl⟩ := List.mem_map.1 (List.mem_of_getLast? hlast)
    exact (List.pairwise_append.1 hsorted).2.2 l' hl' l hdrop

end Tree

end StorageHarvester.Btrfs
