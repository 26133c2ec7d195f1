/-
A whole tree search (`Searcher::search` in `src/btrfs.rs`): call after call answers with a buffer of
items, each a header and its data, and the next call asks from the successor of the last key read.
However the file system cuts its answers, every item asked for is passed on once, in key order.
-/
import StorageHarvester.Btrfs.Watch
import StorageHarvester.Lib.LittleEndian

namespace StorageHarvester.Btrfs

/-! ## One answer -/

namespace Searcher

def headerLen : Nat := 32

/-- What a call asks (`btrfs_ioctl_search_args_v2`). -/
structure Request where
  tree : Nat
  low : Key
  high : Key
  minTransid : Nat
  bufSize : Nat

/-- What it answers: how many items there are in the buffer. -/
structure Answer where
  count : Nat
  data : Bytes

inductive Failure where
  | cancelled
  | os (errno : Nat)
  /-- An item ends past the buffer. -/
  | outOfBounds
  deriving DecidableEq, Repr

/-- The item at `at_` of the buffer. -/
def itemAt (data : Bytes) (at_ : Nat) : Option Item :=
  let len := u32At data (at_ + 28)
  (LittleEndian.window data (at_ + headerLen) len).map fun bytes =>
    { key := { objectid := u64At data (at_ + 8), kind := u32At data (at_ + 24), offset := u64At data (at_ + 16) }
      data := bytes }

variable {σ : Type}

/-- How the items of an answer were passed on: not to the end, or up to the last key. -/
inductive Passed (σ : Type) where
  | stopped (s : σ)
  | read (s : σ) (last : Key)

/-- Passes on `count` items from `at_`. -/
def passOn (each : σ → Item → σ × Bool) (data : Bytes) : Nat → Nat → Key → σ → Except Failure (Passed σ)
  | 0, _, last, s => .ok (.read s last)
  | count + 1, at_, _, s =>
    match itemAt data at_ with
    | none => .error .outOfBounds
    | some item =>
      let next := each s item
      if next.2 then passOn each data count (at_ + headerLen + item.data.length) item.key next.1 else .ok (.stopped next.1)

/-- Calls `each` for every item of `tree` between `low` and `high`, in leaves of generation at least
`minTransid`, with at most `fuel` calls of the file system. -/
def search (ioctl : Nat → Request → Except Nat Answer) (cancel : Option (Nat → Bool)) (each : σ → Item → σ × Bool)
    (tree minTransid bufSize : Nat) (high : Key) : Nat → Nat → Key → σ → Option (Except Failure σ)
  | 0, _, _, _ => none
  | fuel + 1, call, low, s =>
    if cancel.any fun flag => flag call then some (.error .cancelled)
    else match ioctl call ⟨tree, low, high, minTransid, bufSize⟩ with
      | .error errno => some (.error (.os errno))
      | .ok answer =>
        if answer.count = 0 then some (.ok s)
        else match passOn each answer.data answer.count 0 low s with
          | .error failure => some (.error failure)
          | .ok (.stopped s) => some (.ok s)
          | .ok (.read s last) =>
            match last.successor with
            | some next => search ioctl cancel each tree minTransid bufSize high fuel (call + 1) next s
            | none => some (.ok s)

/-! ## What the file system writes -/

open LittleEndian in
/-- An item in a buffer: its header (`btrfs_ioctl_search_header`), and its data. -/
def encode (l : Leaf) : Bytes :=
  write 8 l.generation ++ (write 8 l.item.key.objectid ++ (write 8 l.item.key.offset ++
    (write 4 l.item.key.kind ++ (write 4 l.item.data.length ++ l.item.data))))

/-- The file system answers a call with the first of the items asked for, cut where it likes, in a buffer
whose rest is left over; with none only if there are none. -/
structure Answers (t : Tree) (ioctl : Nat → Request → Except Nat Answer) : Prop where
  batch : ∀ call r, ∃ batch later leftover, t.wanted r.low r.high r.minTransid = batch ++ later ∧ (batch = [] → later = []) ∧
    ioctl call r = .ok { count := batch.length, data := batch.flatMap encode ++ leftover }
  /-- The length of an item is a `u32`. -/
  lengths : ∀ l ∈ t.leaves, l.item.data.length < 2 ^ 32

section Encoded

variable {l : Leaf} {before after : Bytes}

theorem length_encode (l : Leaf) : (encode l).length = headerLen + l.item.data.length := by
  unfold encode headerLen
  simp only [List.length_append, LittleEndian.length_write]
  omega

/-- The windows of an item's header. -/
theorem window_encode (l : Leaf) (before after : Bytes) :
    LittleEndian.window (before ++ (encode l ++ after)) (before.length + 8) 8 = some (LittleEndian.write 8 l.item.key.objectid) ∧
      LittleEndian.window (before ++ (encode l ++ after)) (before.length + 16) 8 = some (LittleEndian.write 8 l.item.key.offset) ∧
      LittleEndian.window (before ++ (encode l ++ after)) (before.length + 24) 4 = some (LittleEndian.write 4 l.item.key.kind) ∧
      LittleEndian.window (before ++ (encode l ++ after)) (before.length + 28) 4 = some (LittleEndian.write 4 l.item.data.length) ∧
      LittleEndian.window (before ++ (encode l ++ after)) (before.length + headerLen) l.item.data.length = some l.item.data := by
  have hskip : ∀ i len, LittleEndian.window (before ++ (encode l ++ after)) (before.length + i) len = LittleEndian.window (encode l ++ after) i len :=
    fun i len => LittleEndian.window_skip rfl
  unfold encode at hskip
  simp only [List.append_assoc] at hskip
  unfold encode headerLen
  simp only [List.append_assoc, hskip]
  refine ⟨?_, ?_, ?_, ?_, ?_⟩
  · rw [LittleEndian.window_skip (i := 0) (by simp)]
    exact LittleEndian.window_head (by simp)
  · rw [LittleEndian.window_skip (i := 8) (by simp), LittleEndian.window_skip (i := 0) (by simp)]
    exact LittleEndian.window_head (by simp)
  · rw [LittleEndian.window_skip (i := 16) (by simp), LittleEndian.window_skip (i := 8) (by simp),
      LittleEndian.window_skip (i := 0) (by simp)]
    exact LittleEndian.window_head (by simp)
  · rw [LittleEndian.window_skip (i := 20) (by simp), LittleEndian.window_skip (i := 12) (by simp),
      LittleEndian.window_skip (i := 4) (by simp), LittleEndian.window_skip (i := 0) (by simp)]
    exact LittleEndian.window_head (by simp)
  · rw [LittleEndian.window_skip (i := 24) (by simp), LittleEndian.window_skip (i := 16) (by simp),
      LittleEndian.window_skip (i := 8) (by simp), LittleEndian.window_skip (i := 4) (by simp), LittleEndian.window_skip (i := 0) (by simp)]
    exact LittleEndian.window_head rfl

/-- An item is read back. -/
theorem itemAt_encode (hv : l.item.key.Valid) (hl : l.item.data.length < 2 ^ 32) :
    itemAt (before ++ (encode l ++ after)) before.length = some l.item := by
  obtain ⟨hobject, hoffset, hkind, hlen, hdata⟩ := window_encode l before after
  have ho := hv.objectid
  have hk := hv.kind
  have hf := hv.offset
  unfold u64Max at ho hf
  have h1 : u64At (before ++ (encode l ++ after)) (before.length + 8) = l.item.key.objectid := by
    unfold u64At
    rw [hobject]
    exact LittleEndian.read_write (by omega)
  have h2 : u64At (before ++ (encode l ++ after)) (before.length + 16) = l.item.key.offset := by
    unfold u64At
    rw [hoffset]
    exact LittleEndian.read_write (by omega)
  have h3 : u32At (before ++ (encode l ++ after)) (before.length + 24) = l.item.key.kind := by
    unfold u32At
    rw [hkind]
    exact LittleEndian.read_write (by omega)
  have h4 : u32At (before ++ (encode l ++ after)) (before.length + 28) = l.item.data.length := by
    unfold u32At
    rw [hlen]
    exact LittleEndian.read_write (by omega)
  unfold itemAt
  dsimp only
  rw [h1, h2, h3, h4, hdata]
  rfl

end Encoded

/-! ## The search -/

section Search

variable {t : Tree} {each : σ → Item → σ × Bool}

/-- All items of an answer are passed on when `each` goes on. -/
theorem passOn_encoded (hc : ∀ s item, (each s item).2 = true) (leftover : Bytes) :
    ∀ (batch : List Leaf) (before : Bytes) (last : Key) (s : σ), (∀ l ∈ batch, l.item.key.Valid ∧ l.item.data.length < 2 ^ 32) →
      passOn each (before ++ (batch.flatMap encode ++ leftover)) batch.length before.length last s =
        .ok (.read (batch.foldl (fun s l => (each s l.item).1) s) ((batch.getLast?.map fun l => l.item.key).getD last))
  | [], _, _, _, _ => rfl
  | l :: batch, before, last, s, h => by
    obtain ⟨hv, hl⟩ := h l (List.mem_cons_self ..)
    have hitem : itemAt (before ++ (encode l ++ (batch.flatMap encode ++ leftover))) before.length = some l.item := itemAt_encode hv hl
    have hrest := passOn_encoded hc leftover batch (before ++ encode l) l.item.key (each s l.item).1
      fun x hx => h x (List.mem_cons_of_mem _ hx)
    rw [List.append_assoc, List.length_append, length_encode, ← Nat.add_assoc] at hrest
    have hlast : ((l :: batch).getLast?.map fun l => l.item.key).getD last = (batch.getLast?.map fun l => l.item.key).getD l.item.key := by
      cases batch with
      | nil => rfl
      | cons l' batch => rw [List.getLast?_cons_cons, List.getLast?_cons]; rfl
    rw [List.flatMap_cons, List.append_assoc, List.length_cons, passOn, hitem]
    dsimp only
    rw [hc, if_pos rfl, hrest, hlast, List.foldl_cons]

/-- What is asked for past an answer is what the answer leaves. -/
theorem wanted_after {low high : Key} {minTransid : Nat} {batch later : List Leaf} {last : Leaf}
    (hw : t.wanted low high minTransid = batch ++ later) (hl : batch.getLast? = some last) :
    (∀ next, last.item.key.successor = some next → t.wanted next high minTransid = later) ∧
      (last.item.key.successor = none → later = []) := by
  have hsorted : (t.wanted low high minTransid).Pairwise fun a b => ¬ b.item.key.le a.item.key := t.sorted.filter _
  have hmem : ∀ l ∈ batch ++ later, l ∈ t.leaves ∧ low.le l.item.key ∧ l.item.key.le high ∧ minTransid ≤ l.generation := fun l hm =>
    Tree.mem_wanted.1 (hw ▸ hm)
  rw [hw] at hsorted
  have hlast := List.mem_of_getLast? hl
  -- the items read are up to the last key, the others past it
  have hread : ∀ l ∈ batch, l.item.key.le last.item.key := fun l hm => by
    obtain ⟨front, rfl⟩ : ∃ front, batch = front ++ [last] := List.getLast?_eq_some_iff.1 hl
    rcases List.mem_append.1 hm with hm | hm
    · have := (List.pairwise_append.1 (List.pairwise_append.1 hsorted).1).2.2 l hm last (List.mem_singleton_self _)
      exact (Key.le_total l.item.key last.item.key).resolve_right this
    · rw [List.mem_singleton.1 hm]
      exact Key.le_refl _
  have hleft : ∀ l ∈ later, ¬ l.item.key.le last.item.key := fun l hm => (List.pairwise_append.1 hsorted).2.2 last hlast l hm
  refine ⟨fun next hn => ?_, fun hn => List.eq_nil_iff_forall_not_mem.2 fun l hm => hleft l hm ?_⟩
  · have hfilter : t.wanted next high minTransid = (t.wanted low high minTransid).filter fun l => next.le l.item.key := by
      unfold Tree.wanted
      rw [List.filter_filter]
      refine List.filter_congr fun l hm => ?_
      have hv := t.valid l hm
      have hnext : next.le l.item.key → low.le l.item.key := fun h => by
        have hx := (Key.successor_le hn hv).1 h
        exact Key.le_trans (hmem last (List.mem_append_left _ hlast)).2.1 ((Key.le_total _ _).resolve_right hx)
      rw [← Bool.decide_and, decide_eq_decide]
      tauto
    have hnone : batch.filter (fun l => next.le l.item.key) = [] := List.filter_eq_nil_iff.2 fun l hm => by
      have hv := t.valid l (hmem l (List.mem_append_left _ hm)).1
      rw [decide_eq_true_eq, Key.successor_le hn hv, not_not]
      exact hread l hm
    have hall : later.filter (fun l => next.le l.item.key) = later := List.filter_eq_self.2 fun l hm => by
      have hv := t.valid l (hmem l (List.mem_append_right _ hm)).1
      rw [decide_eq_true_eq, Key.successor_le hn hv]
      exact hleft l hm
    rw [hfilter, hw, List.filter_append, hnone, hall, List.nil_append]
  · exact Key.le_of_successor_none hn (t.valid l (hmem l (List.mem_append_right _ hm)).1)

/-- As many calls as there are items, and one more, pass all of them on. -/
theorem search_passes {ioctl : Nat → Request → Except Nat Answer} (hk : Answers t ioctl) {cancel : Option (Nat → Bool)}
    (hf : ∀ flag ∈ cancel, ∀ call, flag call = false) (hc : ∀ s item, (each s item).2 = true) (tree minTransid bufSize : Nat) (high : Key) :
    ∀ (fuel call : Nat) (low : Key) (s : σ), (t.wanted low high minTransid).length < fuel →
      search ioctl cancel each tree minTransid bufSize high fuel call low s =
        some (.ok ((t.wanted low high minTransid).foldl (fun s l => (each s l.item).1) s))
  | 0, _, _, _, h => absurd h (Nat.not_lt_zero _)
  | fuel + 1, call, low, s, h => by
    have hgo : (cancel.any fun flag => flag call) = false := by
      cases cancel with
      | none => rfl
      | some flag => exact hf flag rfl call
    obtain ⟨batch, later, leftover, hw, hempty, hanswer⟩ := hk.batch call ⟨tree, low, high, minTransid, bufSize⟩
    dsimp only at hw
    rw [search, hgo, if_neg Bool.false_ne_true, hanswer]
    dsimp only
    cases hl : batch.getLast? with
    | none =>
      have hb := List.getLast?_eq_none_iff.1 hl
      rw [hw, hempty hb, hb]
      rfl
    | some last =>
      have hne : batch ≠ [] := fun hb => by
        rw [hb] at hl
        cases hl
      have hgood : ∀ l ∈ batch, l.item.key.Valid ∧ l.item.data.length < 2 ^ 32 := fun l hm => by
        have hleaf := (Tree.mem_wanted.1 (hw ▸ List.mem_append_left later hm)).1
        exact ⟨t.valid l hleaf, hk.lengths l hleaf⟩
      have hpass := passOn_encoded hc leftover batch [] low s hgood
      rw [List.nil_append, List.length_nil] at hpass
      have hafter := wanted_after hw hl
      rw [if_neg fun h0 => hne (List.length_eq_zero_iff.1 h0), hpass, hl, Option.map_some, Option.getD_some]
      dsimp only
      split
      · rename_i next hn
        have hnext := hafter.1 next hn
        have hlen : (t.wanted next high minTransid).length < fuel := by
          have := List.length_pos_iff.2 hne
          rw [hnext]
          rw [hw, List.length_append] at h
          omega
        rw [search_passes hk hf hc tree minTransid bufSize high fuel (call + 1) next _ hlen, hnext, hw, List.foldl_append]
      · rename_i hn
        rw [hw, hafter.2 hn, List.append_nil]

/-- A search passes on exactly the items asked for, each once and in key order, and ends: so many `calls` of
the file system are enough. -/
theorem search_visits {ioctl : Nat → Request → Except Nat Answer} (hk : Answers t ioctl) {cancel : Option (Nat → Bool)}
    (hf : ∀ flag ∈ cancel, ∀ call, flag call = false) (tree minTransid bufSize : Nat) (low high : Key) :
    ∃ visited : List Item, visited.Pairwise (fun a b => ¬ b.key.le a.key) ∧
      (∀ item, item ∈ visited ↔ ∃ l ∈ t.leaves, l.item = item ∧ low.le item.key ∧ item.key.le high ∧ minTransid ≤ l.generation) ∧
      ∃ calls, ∀ (σ : Type) (each : σ → Item → σ × Bool), (∀ s item, (each s item).2 = true) → ∀ fuel ≥ calls, ∀ call s,
        search ioctl cancel each tree minTransid bufSize high fuel call low s =
          some (.ok (visited.foldl (fun s item => (each s item).1) s)) := by
  refine ⟨(t.wanted low high minTransid).map Leaf.item, ?_, fun item => ?_, (t.wanted low high minTransid).length + 1,
    fun σ each hc fuel hfuel call s => ?_⟩
  · rw [List.pairwise_map]
    exact t.sorted.filter _
  · rw [List.mem_map]
    constructor
    · rintro ⟨l, hl, rfl⟩
      obtain ⟨hleaf, hlow, hhigh, hgen⟩ := Tree.mem_wanted.1 hl
      exact ⟨l, hleaf, rfl, hlow, hhigh, hgen⟩
    · rintro ⟨l, hleaf, rfl, hlow, hhigh, hgen⟩
      exact ⟨l, Tree.mem_wanted.2 ⟨hleaf, hlow, hhigh, hgen⟩, rfl⟩
  · rw [search_passes hk hf hc tree minTransid bufSize high fuel call low s (Nat.lt_of_succ_le hfuel), List.foldl_map]

end Search

/-! ## At both ends -/

/-- Items with the least key and with the greatest. -/
def endTree : Tree where
  leaves := [⟨⟨.least, [7]⟩, 3⟩, ⟨⟨.greatest, []⟩, 4⟩]
  sorted := by decide
  valid := fun l hl => by
    rcases List.mem_cons.1 hl with rfl | hl
    · exact ⟨by decide, by decide, by decide⟩
    · rw [List.mem_singleton.1 hl]
      exact ⟨by decide, by decide, by decide⟩

/-- A file system that answers with one item at a time. -/
def oneByOne (t : Tree) (_ : Nat) (r : Request) : Except Nat Answer :=
  let batch := (t.wanted r.low r.high r.minTransid).take 1
  .ok { count := batch.length, data := batch.flatMap encode }

theorem answers_oneByOne {t : Tree} (h : ∀ l ∈ t.leaves, l.item.data.length < 2 ^ 32) : Answers t (oneByOne t) := by
  refine ⟨fun call r => ⟨(t.wanted r.low r.high r.minTransid).take 1, (t.wanted r.low r.high r.minTransid).drop 1, [],
    (List.take_append_drop 1 _).symm, fun he => ?_, by rw [List.append_nil]; rfl⟩, h⟩
  rcases List.take_eq_nil_iff.1 he with h0 | h0
  · cases h0
  · rw [h0]
    rfl

theorem search_visits_ends : ∃ visited : List Item, visited.Pairwise (fun a b => ¬ b.key.le a.key) ∧
    (∀ item, item ∈ visited ↔ ∃ l ∈ endTree.leaves, l.item = item ∧ Key.least.le item.key ∧ item.key.le .greatest ∧ 0 ≤ l.generation) ∧
    ∃ calls, ∀ (σ : Type) (each : σ → Item → σ × Bool), (∀ s item, (each s item).2 = true) → ∀ fuel ≥ calls, ∀ call s,
      search (oneByOne endTree) none each 0 0 4096 .greatest fuel call .least s =
        some (.ok (visited.foldl (fun s item => (each s item).1) s)) :=
  search_visits (answers_oneByOne (by decide)) (fun _ h => by cases h) 0 0 4096 .least .greatest

example : search (oneByOne endTree) none (fun seen item => (seen ++ [item.data], true)) 0 0 4096 .greatest 3 0 .least [] =
    some (.ok [[7], []]) := by decide

end Searcher

end StorageHarvester.Btrfs
