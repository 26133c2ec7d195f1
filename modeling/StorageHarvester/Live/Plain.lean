/-
The record of singly linked files (`TreeState::plain`, `plain_live`, `plain_by_node`), over scans,
re-reads and grafts. What a directory's last read met in it is noted beside the state; the record
holds all of it for every alive directory, so a re-read that adopts a file finds every other directory
that counts it, and has it read again or asks for a scan.
-/
import Mathlib.Data.List.TakeWhile
import StorageHarvester.Live.Frame
import StorageHarvester.Live.Merge
import StorageHarvester.Scan.Plain

namespace StorageHarvester

open Walk (keyOf)

/-! ## The two indexes -/

theorem mem_insertPairs (pairs : List (Nat × Nat)) : ∀ (live : List (Nat × Nat)) (x : Nat × Nat),
    x ∈ pairs.foldl TreeState.insertPair live ↔ x ∈ live ∨ x ∈ pairs := by
  have hone : ∀ live pair (x : Nat × Nat), x ∈ TreeState.insertPair live pair ↔ x ∈ live ∨ x = pair := by
    intro live pair x
    unfold TreeState.insertPair
    split
    · rename_i h
      rw [List.contains_iff_mem] at h
      exact ⟨.inl, fun hx => hx.elim id fun he => he ▸ h⟩
    · simp
  induction pairs with
  | nil => simp
  | cons pair pairs ih =>
    intro live x
    rw [List.foldl_cons, ih, hone, List.mem_cons]
    tauto

theorem mem_sortKeys {keys : List Nat} {key : Nat} : key ∈ TreeState.sortKeys keys ↔ key ∈ keys := by
  unfold TreeState.sortKeys
  rw [List.mem_dedup, List.mem_insertionSort]

/-- Grafted files' keys are grouped by directory, and only for directories that have some. -/
theorem groupPlain_spec (pairs : List (Nat × Nat)) (node : Nat) :
    (∀ key, key ∈ ((TreeState.groupPlain pairs).get node).getD [] ↔ (key, node) ∈ pairs) ∧
      ((TreeState.groupPlain pairs).get node ≠ none → ∃ key, (key, node) ∈ pairs) := by
  unfold TreeState.groupPlain
  induction pairs using List.reverseRecOn with
  | nil => simp
  | append_singleton pairs e ih =>
    obtain ⟨hmem, hsome⟩ := ih
    rw [List.foldl_append, List.foldl_cons, List.foldl_nil, Table.get_put]
    by_cases hn : node = e.2
    · subst hn
      rw [if_pos rfl]
      refine ⟨fun key => ?_, fun _ => ⟨e.1, List.mem_append_right _ (List.mem_singleton_self e)⟩⟩
      rw [Option.getD_some, List.mem_append, hmem, List.mem_append, List.mem_singleton, List.mem_singleton]
      exact or_congr Iff.rfl ⟨fun h => by rw [h], fun h => congrArg Prod.fst h⟩
    · rw [if_neg hn]
      refine ⟨fun key => ?_, fun h => ?_⟩
      · rw [hmem, List.mem_append, List.mem_singleton]
        exact ⟨.inl, fun h => h.elim id fun he => absurd (congrArg Prod.snd he) hn⟩
      · obtain ⟨key, hk⟩ := hsome h
        exact ⟨key, List.mem_append_left _ hk⟩

/-- What holds of the record between operations. -/
structure Indexed (st : TreeState) : Prop where
  sorted : st.plain.Pairwise fun a b => a.1 ≤ b.1
  /-- Both ways of storing what re-reads found hold the same pairs. -/
  agree : ∀ key node, (key, node) ∈ st.plainLive ↔ key ∈ (st.plainByNode.get node).getD []
  below : ∀ x ∈ st.plainLive, x.2 < st.tree.nodes.length
  /-- What a graft brings is taken over at once. -/
  drained : st.tree.plain = []

/-- A directory is on record for a file. -/
def TreeState.Holds (st : TreeState) (key node : Nat) : Prop := (key, node) ∈ st.plain ∨ (key, node) ∈ st.plainLive

section Index

variable {st : TreeState}

theorem mem_takeWhile_of_sorted {k : Nat} : ∀ {l : List (Nat × Nat)}, l.Pairwise (fun a b => a.1 ≤ b.1) →
    (∀ x ∈ l, k ≤ x.1) → ∀ {node : Nat}, (k, node) ∈ l → (k, node) ∈ l.takeWhile fun e => e.1 = k
  | [], _, _, _, h => absurd h List.not_mem_nil
  | a :: l, hs, hk, node, h => by
    have ha : a.1 = k := by
      rcases List.mem_cons.1 h with he | hl
      · rw [← he]
      · exact Nat.le_antisymm ((List.pairwise_cons.1 hs).1 _ hl) (hk a (List.mem_cons_self ..))
    rw [List.takeWhile_cons_of_pos (by simpa using ha)]
    rcases List.mem_cons.1 h with he | hl
    · exact he ▸ List.mem_cons_self ..
    · exact List.mem_cons_of_mem _ (mem_takeWhile_of_sorted (List.pairwise_cons.1 hs).2
        (fun x hx => hk x (List.mem_cons_of_mem _ hx)) hl)

/-- The run of a key in a sorted list starts where the smaller keys end. -/
theorem mem_run_of_sorted {k : Nat} : ∀ {l : List (Nat × Nat)}, l.Pairwise (fun a b => a.1 ≤ b.1) →
    ∀ {node : Nat}, (k, node) ∈ l → (k, node) ∈ (l.dropWhile fun e => e.1 < k).takeWhile fun e => e.1 = k
  | [], _, _, h => absurd h List.not_mem_nil
  | a :: l, hs, node, h => by
    by_cases ha : a.1 < k
    · rw [List.dropWhile_cons_of_pos (by simpa using ha)]
      refine mem_run_of_sorted (List.pairwise_cons.1 hs).2 ?_
      rcases List.mem_cons.1 h with he | hl
      · rw [← he] at ha
        exact absurd ha (Nat.lt_irrefl k)
      · exact hl
    · rw [List.dropWhile_cons_of_neg (by simpa using ha)]
      refine mem_takeWhile_of_sorted hs (fun x hx => ?_) h
      rcases List.mem_cons.1 hx with rfl | hl
      · exact Nat.le_of_not_lt ha
      · exact (Nat.le_of_not_lt ha).trans ((List.pairwise_cons.1 hs).1 x hl)

/-- The holders of an inode are the directories on record for its key. -/
theorem mem_plainHolders (h : Indexed st) {inode : Inode} {node : Nat} :
    node ∈ st.plainHolders inode ↔ st.Holds (keyOf inode) node := by
  unfold TreeState.plainHolders TreeState.Holds
  rw [List.mem_append, List.mem_insertionSort]
  refine or_congr ⟨fun hm => ?_, fun hm => ?_⟩ ⟨fun hm => ?_, fun hm => ?_⟩
  · obtain ⟨e, he, rfl⟩ := List.mem_map.1 hm
    have htaken := List.mem_takeWhile_imp he
    have hkey : e.1 = keyOf inode := of_decide_eq_true htaken
    rw [← hkey]
    exact (List.dropWhile_sublist _).subset ((List.takeWhile_sublist _).subset he)
  · exact List.mem_map.2 ⟨_, mem_run_of_sorted h.sorted hm, rfl⟩
  · obtain ⟨e, he, rfl⟩ := List.mem_map.1 hm
    obtain ⟨hlive, hkey⟩ := List.mem_filter.1 he
    have hkey : e.1 = keyOf inode := of_decide_eq_true hkey
    rw [← hkey]
    exact hlive
  · exact List.mem_map.2 ⟨_, List.mem_filter.2 ⟨hm, by simp [keyOf]⟩, rfl⟩

/-- What a re-read of `node` finds takes the place of what was found before. -/
theorem Indexed.setPlain (h : Indexed st) {node : Nat} (hn : node < st.tree.nodes.length) (keys : List Nat) :
    Indexed (st.setPlain node keys) ∧ ∀ key other, (key, other) ∈ (st.setPlain node keys).plainLive ↔
      if other = node then key ∈ keys else (key, other) ∈ st.plainLive := by
  have hlive : ∀ key other, (key, other) ∈ (st.setPlain node keys).plainLive ↔
      if other = node then key ∈ keys else (key, other) ∈ st.plainLive := by
    intro key other
    unfold TreeState.setPlain
    dsimp only
    rw [mem_insertPairs, List.mem_filter, List.mem_map]
    by_cases ho : other = node
    · subst ho
      rw [if_pos rfl, h.agree]
      by_cases hk : key ∈ keys
      · by_cases hold : key ∈ (st.plainByNode.get other).getD []
        · simp [mem_sortKeys, hk, hold]
        · simp [mem_sortKeys, hk, hold]
      · simp [mem_sortKeys, hk]
    · rw [if_neg ho]
      simp [ho, Ne.symm ho]
  refine ⟨⟨h.sorted, fun key other => ?_, fun x hx => ?_, h.drained⟩, hlive⟩
  · rw [hlive]
    unfold TreeState.setPlain
    dsimp only
    by_cases ho : other = node
    · subst ho
      rw [if_pos rfl]
      split
      · rename_i hnil
        rw [Table.get_del, if_pos rfl, ← mem_sortKeys, hnil]
        rfl
      · rw [Table.get_put_self, Option.getD_some, mem_sortKeys]
    · rw [if_neg ho, h.agree]
      split
      · rw [Table.get_del, if_neg ho]
      · rw [Table.get_put, if_neg ho, Table.get_del, if_neg ho]
  · have hx' := (hlive x.1 x.2).1 hx
    split at hx'
    · rename_i he
      rw [he]
      exact hn
    · exact h.below x hx'

/-- Files counted under a directory without nodes of their own are added to what it holds. -/
theorem Indexed.addPlain (h : Indexed st) {node : Nat} (hn : node < st.tree.nodes.length) (keys : List Nat) :
    Indexed (st.addPlain node keys) ∧ ∀ x ∈ st.plainLive, x ∈ (st.addPlain node keys).plainLive := by
  have hlive : ∀ x, x ∈ (st.addPlain node keys).plainLive ↔ x ∈ st.plainLive ∨ x ∈ keys.map (·, node) :=
    fun x => mem_insertPairs _ _ x
  refine ⟨⟨h.sorted, fun key other => ?_, fun x hx => ?_, h.drained⟩, fun x hx => (hlive x).2 (.inl hx)⟩
  · rw [hlive, h.agree, List.mem_map]
    unfold TreeState.addPlain
    dsimp only
    rw [Table.get_put]
    by_cases ho : other = node
    · subst ho
      rw [if_pos rfl, Option.getD_some, mem_sortKeys, List.mem_append]
      simp
    · rw [if_neg ho]
      simp [Ne.symm ho]
  · rcases (hlive x).1 hx with hx | hx
    · exact h.below x hx
    · obtain ⟨key, -, rfl⟩ := List.mem_map.1 hx
      exact hn

/-- What a graft brought is indexed: it is of directories nothing was found in before. -/
theorem Indexed.indexNew (start : Nat) (hsorted : st.plain.Pairwise fun a b => a.1 ≤ b.1)
    (hagree : ∀ key node, (key, node) ∈ st.plainLive ↔ key ∈ (st.plainByNode.get node).getD [])
    (hbelow : ∀ x ∈ st.plainLive, x.2 < st.tree.nodes.length)
    (hnew : ∀ x ∈ st.tree.plain, x.2 < st.tree.nodes.length ∧ ∀ y ∈ st.plainLive, y.2 ≠ x.2) :
    Indexed (st.indexNew start) ∧ ∀ x, x ∈ (st.indexNew start).plainLive ↔ x ∈ st.plainLive ∨ x ∈ st.tree.plain := by
  have hlive : ∀ x, x ∈ (st.indexNew start).plainLive ↔ x ∈ st.plainLive ∨ x ∈ st.tree.plain := fun x => mem_insertPairs _ _ x
  refine ⟨⟨hsorted, fun key node => ?_, fun x hx => ?_, rfl⟩, hlive⟩
  · rw [hlive, hagree]
    obtain ⟨hmem, hsome⟩ := groupPlain_spec st.tree.plain node
    have hget : (st.indexNew start).plainByNode.get node =
        (((TreeState.groupPlain st.tree.plain).get node).map TreeState.sortKeys).or (st.plainByNode.get node) :=
      Table.get_foldl_put_entries TreeState.sortKeys _ _ node
    rw [hget]
    cases hg : (TreeState.groupPlain st.tree.plain).get node with
    | none =>
      rw [hg] at hmem
      have hno : (key, node) ∉ st.tree.plain := fun hm => absurd ((hmem key).2 hm) List.not_mem_nil
      simp [hno]
    | some keys =>
      rw [hg] at hmem hsome
      obtain ⟨key', hk'⟩ := hsome (Option.some_ne_none keys)
      have hold : key ∉ (st.plainByNode.get node).getD [] := fun hm => (hnew _ hk').2 _ ((hagree key node).2 hm) rfl
      rw [← hmem]
      simp [hold, mem_sortKeys]
  · rcases (hlive x).1 hx with hx | hx
    · exact hbelow x hx
    · exact (hnew x hx).1

end Index

end StorageHarvester
