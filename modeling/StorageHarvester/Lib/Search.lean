/-
A search through a graph whose edges are names. The names still to be looked up are on a stack; one that
leads to nothing, or to a node seen before, is passed over, and the names below a new node go on top. On
a graph with finitely many nodes the search comes to its end, whether or not there are cycles, and has then
seen every node that the names it began with lead to, each once, and no other.
-/
import Mathlib.Algebra.Order.BigOperators.Group.List
import Mathlib.Algebra.Order.Ring.Nat
import Mathlib.Data.List.Basic
import Mathlib.Data.List.Nodup
import Mathlib.Tactic.Common

namespace StorageHarvester.Search

variable {ν α : Type*} {lookup : ν → Option α} {below : α → List ν} {names : List ν}

/-- The nodes that names lead to. -/
inductive Reached (lookup : ν → Option α) (below : α → List ν) (names : List ν) : α → Prop
  | name {n : ν} {a : α} (hn : n ∈ names) (ha : lookup n = some a) : Reached lookup below names a
  | down {a b : α} {n : ν} (h : Reached lookup below names a) (hn : n ∈ below a) (hb : lookup n = some b) : Reached lookup below names b

/-- The nodes seen when the stack is empty, in order, if `fuel` rounds are enough. The next name is the last. -/
def search [DecidableEq α] (lookup : ν → Option α) (below : α → List ν) : Nat → List α → List ν → Option (List α)
  | 0, _, _ => none
  | fuel + 1, seen, stack =>
    match stack.getLast? with
    | none => some seen
    | some name =>
      match lookup name with
      | none => search lookup below fuel seen stack.dropLast
      | some node =>
        if node ∈ seen then search lookup below fuel seen stack.dropLast
        else search lookup below fuel (seen ++ [node]) (stack.dropLast ++ below node)

/-! ## What has been seen -/

/-- A name the search began with, or found at a node seen. -/
def Found (below : α → List ν) (names : List ν) (seen : List α) (n : ν) : Prop := n ∈ names ∨ ∃ a ∈ seen, n ∈ below a

/-- What is seen is reached, and what is found is looked up or on the stack. -/
structure Searching (lookup : ν → Option α) (below : α → List ν) (names : List ν) (seen : List α) (stack : List ν) : Prop where
  nodup : seen.Nodup
  reached : ∀ a ∈ seen, Reached lookup below names a
  found : ∀ n ∈ stack, Found below names seen n
  ahead : ∀ n, Found below names seen n → n ∈ stack ∨ ∀ a, lookup n = some a → a ∈ seen

theorem searching_start (names : List ν) : Searching lookup below names [] names where
  nodup := List.nodup_nil
  reached _ ha := absurd ha List.not_mem_nil
  found _ hn := .inl hn
  ahead _ hn := .inl (hn.resolve_right fun ⟨_, ha, _⟩ => List.not_mem_nil ha)

namespace Searching

variable {seen : List α} {stack : List ν}

/-- A name found leads to a node that is reached. -/
theorem reach (h : Searching lookup below names seen stack) {n : ν} (hn : Found below names seen n) {a : α} (ha : lookup n = some a) :
    Reached lookup below names a := by
  rcases hn with hn | ⟨b, hb, hn⟩
  · exact .name hn ha
  · exact (h.reached b hb).down hn ha

/-- A name is taken off that leads to nothing new. -/
theorem pass {name : ν} (h : Searching lookup below names seen (stack ++ [name])) (hs : ∀ a, lookup name = some a → a ∈ seen) :
    Searching lookup below names seen stack where
  nodup := h.nodup
  reached := h.reached
  found n hn := h.found n (List.mem_append_left _ hn)
  ahead n hn := by
    rcases h.ahead n hn with hm | hm
    · rcases List.mem_append.1 hm with hm | hm
      · exact .inl hm
      · exact .inr (List.mem_singleton.1 hm ▸ hs)
    · exact .inr hm

/-- A name is taken off that leads to a new node. -/
theorem visit {name : ν} {node : α} (h : Searching lookup below names seen (stack ++ [name])) (hl : lookup name = some node)
    (hn : node ∉ seen) : Searching lookup below names (seen ++ [node]) (stack ++ below node) where
  nodup := by
    rw [List.nodup_append]
    refine ⟨h.nodup, List.nodup_singleton node, ?_⟩
    rintro a ha b hb rfl
    exact hn (List.mem_singleton.1 hb ▸ ha)
  reached a ha := by
    rcases List.mem_append.1 ha with ha | ha
    · exact h.reached a ha
    · rw [List.mem_singleton.1 ha]
      exact h.reach (h.found name (List.mem_append_right _ (List.mem_singleton_self name))) hl
  found n hm := by
    rcases List.mem_append.1 hm with hm | hm
    · rcases h.found n (List.mem_append_left _ hm) with hf | ⟨a, ha, hf⟩
      · exact .inl hf
      · exact .inr ⟨a, List.mem_append_left _ ha, hf⟩
    · exact .inr ⟨node, List.mem_append_right _ (List.mem_singleton_self node), hm⟩
  ahead n hf := by
    have hold : Found below names seen n → n ∈ stack ++ below node ∨ ∀ a, lookup n = some a → a ∈ seen ++ [node] := by
      rintro hf
      rcases h.ahead n hf with hm | hm
      · rcases List.mem_append.1 hm with hm | hm
        · exact .inl (List.mem_append_left _ hm)
        · rw [List.mem_singleton.1 hm]
          refine .inr fun a ha => ?_
          rw [hl] at ha
          cases ha
          exact List.mem_append_right _ (List.mem_singleton_self node)
      · exact .inr fun a ha => List.mem_append_left _ (hm a ha)
    rcases hf with hf | ⟨a, ha, hf⟩
    · exact hold (.inl hf)
    · rcases List.mem_append.1 ha with ha | ha
      · exact hold (.inr ⟨a, ha, hf⟩)
      · exact .inl (List.mem_append_right _ (List.mem_singleton.1 ha ▸ hf))

/-- With nothing left on the stack, everything reached is seen. -/
theorem complete (h : Searching lookup below names seen []) {a : α} : a ∈ seen ↔ Reached lookup below names a := by
  constructor
  · exact h.reached a
  · rintro ha
    induction ha with
    | name hn ha => exact (h.ahead _ (.inl hn)).resolve_left List.not_mem_nil _ ha
    | down _ hn hb ih => exact (h.ahead _ (.inr ⟨_, ih, hn⟩)).resolve_left List.not_mem_nil _ hb

end Searching

/-! ## The rounds -/

section Rounds

variable [DecidableEq α] {seen seen' : List α} {stack : List ν}

/-- One round, with something on the stack. -/
theorem search_concat (fuel : Nat) (seen : List α) (stack : List ν) (name : ν) :
    search lookup below (fuel + 1) seen (stack ++ [name]) =
      match lookup name with
      | none => search lookup below fuel seen stack
      | some node => if node ∈ seen then search lookup below fuel seen stack
        else search lookup below fuel (seen ++ [node]) (stack ++ below node) := by
  rw [search]
  simp only [List.getLast?_concat, List.dropLast_concat]

theorem searching_search : ∀ {fuel : Nat} {seen : List α} {stack : List ν}, Searching lookup below names seen stack →
    search lookup below fuel seen stack = some seen' → Searching lookup below names seen' []
  | 0, _, _, _, hs => by cases hs
  | fuel + 1, seen, stack, h, hs => by
    rcases List.eq_nil_or_concat stack with rfl | ⟨stack, name, rfl⟩
    · cases hs
      exact h
    · rw [List.concat_eq_append] at h hs
      rw [search_concat] at hs
      cases hl : lookup name with
      | none =>
        rw [hl] at hs
        exact searching_search (h.pass fun a ha => by rw [hl] at ha; cases ha) hs
      | some node =>
        rw [hl] at hs
        dsimp only at hs
        split at hs
        · rename_i hin
          refine searching_search (h.pass fun a ha => ?_) hs
          rw [hl] at ha
          cases ha
          exact hin
        · rename_i hnew
          exact searching_search (h.visit hl hnew) hs

/-- More rounds see the same. -/
theorem search_more : ∀ {fuel more : Nat} {seen : List α} {stack : List ν}, search lookup below fuel seen stack = some seen' →
    search lookup below (fuel + more) seen stack = some seen'
  | 0, _, _, _, hs => by cases hs
  | fuel + 1, more, seen, stack, hs => by
    rw [Nat.add_right_comm]
    rcases List.eq_nil_or_concat stack with rfl | ⟨stack, name, rfl⟩
    · exact hs
    · rw [List.concat_eq_append] at hs ⊢
      rw [search_concat] at hs ⊢
      cases hl : lookup name with
      | none =>
        rw [hl] at hs
        exact search_more hs
      | some node =>
        rw [hl] at hs
        dsimp only at hs ⊢
        split at hs
        · rename_i hin
          rw [if_pos hin]
          exact search_more hs
        · rename_i hnew
          rw [if_neg hnew]
          exact search_more hs

/-- The names below the nodes still to be seen. -/
def toCome (below : α → List ν) (world seen : List α) : Nat := ((world.filter fun a => a ∉ seen).map fun a => (below a).length).sum

/-- Seeing a node takes the names below it out of those to come. -/
theorem toCome_concat (world seen : List α) {node : α} (hw : node ∈ world) (hn : node ∉ seen) :
    toCome below world (seen ++ [node]) + (below node).length ≤ toCome below world seen := by
  induction world with
  | nil => exact absurd hw List.not_mem_nil
  | cons a world ih =>
    have hle : toCome below world (seen ++ [node]) ≤ toCome below world seen := by
      unfold toCome
      refine List.Sublist.sum_le_sum (List.Sublist.map _ (List.monotone_filter_right world fun b hb => ?_)) fun _ _ => Nat.zero_le _
      simp only [List.mem_append, decide_eq_true_eq, not_or] at hb ⊢
      exact hb.1
    by_cases ha : a = node
    · subst ha
      have hout : toCome below (a :: world) (seen ++ [a]) = toCome below world (seen ++ [a]) := by
        unfold toCome
        rw [List.filter_cons_of_neg (by simp)]
      have hin : toCome below (a :: world) seen = (below a).length + toCome below world seen := by
        unfold toCome
        rw [List.filter_cons_of_pos (by simpa using hn), List.map_cons, List.sum_cons]
      omega
    · have hrest := ih ((List.mem_cons.1 hw).resolve_left fun h => ha h.symm)
      by_cases hs : a ∈ seen
      · have hsame : ∀ s : List α, a ∈ s → toCome below (a :: world) s = toCome below world s := fun s hs => by
          unfold toCome
          rw [List.filter_cons_of_neg (by simpa using hs)]
        rw [hsame _ (List.mem_append_left _ hs), hsame _ hs]
        exact hrest
      · have hsame : ∀ s : List α, a ∉ s → toCome below (a :: world) s = (below a).length + toCome below world s := fun s hs => by
          unfold toCome
          rw [List.filter_cons_of_pos (by simpa using hs), List.map_cons, List.sum_cons]
        rw [hsame _ (by simp [hs, ha]), hsame _ hs]
        omega

/-- Each round takes a name off the stack, and a node puts those below it on only once. -/
theorem search_ends {world : List α} (hw : ∀ n a, lookup n = some a → a ∈ world) : ∀ (fuel : Nat) (seen : List α) (stack : List ν),
    stack.length + toCome below world seen < fuel → ∃ seen', search lookup below fuel seen stack = some seen'
  | 0, _, _, hf => absurd hf (Nat.not_lt_zero _)
  | fuel + 1, seen, stack, hf => by
    rcases List.eq_nil_or_concat stack with rfl | ⟨stack, name, rfl⟩
    · exact ⟨seen, rfl⟩
    · rw [List.concat_eq_append] at hf ⊢
      rw [List.length_append, List.length_singleton] at hf
      rw [search_concat]
      cases hl : lookup name with
      | none => exact search_ends hw fuel seen stack (by omega)
      | some node =>
        dsimp only
        split
        · exact search_ends hw fuel seen stack (by omega)
        · rename_i hnew
          have hcome : toCome below world (seen ++ [node]) + (below node).length ≤ toCome below world seen :=
            toCome_concat world seen (hw name node hl) hnew
          refine search_ends hw fuel _ _ ?_
          rw [List.length_append]
          omega

/-- What the search sees of a graph with finitely many nodes, however many rounds beyond those it takes. -/
theorem search_sees {world : List α} (hw : ∀ n a, lookup n = some a → a ∈ world) (names : List ν) :
    ∃ seen : List α, seen.Nodup ∧ (∀ a, a ∈ seen ↔ Reached lookup below names a) ∧
      ∃ rounds, ∀ fuel, rounds ≤ fuel → search lookup below fuel [] names = some seen := by
  obtain ⟨seen, hs⟩ : ∃ seen, search lookup below (names.length + toCome below world [] + 1) [] names = some seen :=
    search_ends hw _ [] names (Nat.lt_succ_self _)
  have hdone := searching_search (searching_start names) hs
  refine ⟨seen, hdone.nodup, fun a => hdone.complete, names.length + toCome below world [] + 1, fun fuel hf => ?_⟩
  obtain ⟨more, rfl⟩ := Nat.exists_eq_add_of_le hf
  exact search_more hs

end Rounds

end StorageHarvester.Search
