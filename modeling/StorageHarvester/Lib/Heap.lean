/-
A priority queue and what it is used for: popping a greatest element, and merging sorted chunks by
popping the least of their heads. The merge gives the chunks' elements, all of them, in order.
-/
import Mathlib.Algebra.BigOperators.Group.Finset.Piecewise
import Mathlib.Algebra.Order.BigOperators.Group.Finset
import Mathlib.Algebra.Order.Ring.Int
import Mathlib.Data.List.Dedup
import Mathlib.Data.List.GetD
import Mathlib.Data.List.Perm.Subperm
import Mathlib.Data.List.Sort
import Mathlib.Tactic.Common

namespace StorageHarvester.Heap

variable {α : Type*} {lt : α → α → Bool}

/-- A strict order up to ties. -/
structure StrictWeak (lt : α → α → Bool) : Prop where
  asymm : ∀ a b, lt a b = true → lt b a = false
  trans : ∀ a b c, lt a b = false → lt b c = false → lt a c = false

theorem StrictWeak.irrefl (hlt : StrictWeak lt) (a : α) : lt a a = false := by
  cases h : lt a a with
  | false => rfl
  | true => rw [← h]; exact (hlt.asymm a a h)

/-! ## Popping -/

/-- A greatest element, and the others. -/
def pop (lt : α → α → Bool) : List α → Option (α × List α)
  | [] => none
  | c :: rest => match pop lt rest with
    | none => some (c, [])
    | some (m, others) => if lt c m then some (m, c :: others) else some (c, m :: others)

theorem pop_eq_none : ∀ {l : List α}, pop lt l = none → l = []
  | [], _ => rfl
  | c :: rest, h => by
    rw [pop] at h
    split at h
    · cases h
    · split at h <;> cases h

/-- A pop takes one element out. -/
theorem pop_perm : ∀ {l others : List α} {m : α}, pop lt l = some (m, others) → l.Perm (m :: others)
  | [], _, _, h => by simp [pop] at h
  | c :: rest, others, m, h => by
    rw [pop] at h
    cases hr : pop lt rest with
    | none =>
      rw [hr] at h
      cases h
      rw [pop_eq_none hr]
    | some p =>
      obtain ⟨m', others'⟩ := p
      rw [hr] at h
      have ih := pop_perm hr
      simp only at h
      split at h
      · cases h
        exact (ih.cons c).trans (List.Perm.swap _ _ _)
      · cases h
        exact ih.cons c

/-- A popped element is greatest. -/
theorem pop_greatest (hlt : StrictWeak lt) : ∀ {l others : List α} {m : α}, pop lt l = some (m, others) →
    ∀ c ∈ others, lt m c = false
  | [], _, _, h => by simp [pop] at h
  | c :: rest, others, m, h => by
    rw [pop] at h
    cases hr : pop lt rest with
    | none =>
      rw [hr] at h
      cases h
      simp
    | some p =>
      obtain ⟨m', others'⟩ := p
      rw [hr] at h
      have ih := pop_greatest hlt hr
      simp only at h
      split at h
      · rename_i hcm
        cases h
        intro x hx
        rcases List.mem_cons.1 hx with rfl | hx
        · exact hlt.asymm _ _ hcm
        · exact ih x hx
      · rename_i hcm
        cases h
        intro x hx
        rcases List.mem_cons.1 hx with rfl | hx
        · simpa using hcm
        · exact hlt.trans _ _ _ (by simpa using hcm) (ih x hx)

/-! ## Merging -/

/-- The head of a chunk: the element, the chunk's number, and the element's place in it. -/
abbrev Head (α : Type*) := α × Nat × Nat

/-- Heads in reverse order, so that the greatest is the least: by element, chunk and place. -/
def headLt (lt : α → α → Bool) (a b : Head α) : Bool :=
  lt b.1 a.1 || (!lt a.1 b.1 && (b.2.1 < a.2.1 || (b.2.1 == a.2.1 && b.2.2 < a.2.2)))

/-- The heads of the chunks that are not empty. -/
def heads (chunks : List (List α)) : List (Head α) :=
  chunks.zipIdx.filterMap fun e => e.1.head?.map fun x => (x, e.2, 0)

/-- The heap after its least head is popped: the element after it in its chunk comes in. -/
def refill (chunks : List (List α)) (head : Head α) (others : List (Head α)) : List (Head α) :=
  match (chunks.getD head.2.1 [])[head.2.2 + 1]? with
  | some following => (following, head.2.1, head.2.2 + 1) :: others
  | none => others

/-- The elements popped until the heap is empty, for at most `fuel` of them. -/
def drain (lt : α → α → Bool) (chunks : List (List α)) : Nat → List (Head α) → List α
  | 0, _ => []
  | fuel + 1, heap => match pop (headLt lt) heap with
    | none => []
    | some (head, others) => head.1 :: drain lt chunks fuel (refill chunks head others)

/-- Merges chunks by popping their heads. -/
def merge (lt : α → α → Bool) (chunks : List (List α)) : List α :=
  drain lt chunks chunks.flatten.length (heads chunks)

theorem headLt_eq_false {a b : Head α} : headLt lt a b = false ↔
    lt b.1 a.1 = false ∧ (lt a.1 b.1 = true ∨ a.2.1 < b.2.1 ∨ (a.2.1 = b.2.1 ∧ a.2.2 ≤ b.2.2)) := by
  unfold headLt
  cases lt b.1 a.1 <;> cases lt a.1 b.1 <;> simp
  omega

theorem StrictWeak.headLt (hlt : StrictWeak lt) : StrictWeak (headLt lt) where
  asymm := fun a b h => by
    rw [headLt_eq_false]
    have h1 := hlt.asymm b.1 a.1
    unfold Heap.headLt at h
    cases hba : lt b.1 a.1 <;> cases hab : lt a.1 b.1 <;> simp_all
    omega
  trans := fun a b c h h' => by
    rw [headLt_eq_false] at h h' ⊢
    refine ⟨hlt.trans _ _ _ h'.1 h.1, ?_⟩
    by_cases hac : lt a.1 c.1 = true
    · exact .inl hac
    · rw [Bool.not_eq_true] at hac
      have hab := hlt.trans a.1 c.1 b.1 hac h'.1
      have hbc := hlt.trans b.1 a.1 c.1 h.1 hac
      rw [hab] at h
      rw [hbc] at h'
      simp only [Bool.false_eq_true, false_or] at h h'
      exact .inr (by omega)

section Merge

variable {chunks : List (List α)}

/-- What a head stands for: itself and the elements after it in its chunk. -/
def rest (chunks : List (List α)) (head : Head α) : List α := (chunks.getD head.2.1 []).drop head.2.2

/-- Every head is the element at its place. -/
def Placed (chunks : List (List α)) (heap : List (Head α)) : Prop :=
  ∀ head ∈ heap, (chunks.getD head.2.1 [])[head.2.2]? = some head.1

theorem rest_eq {head : Head α} (h : (chunks.getD head.2.1 [])[head.2.2]? = some head.1) :
    rest chunks head = head.1 :: rest chunks (head.1, head.2.1, head.2.2 + 1) := by
  obtain ⟨hlt, he⟩ := List.getElem?_eq_some_iff.1 h
  unfold rest
  rw [List.drop_eq_getElem_cons hlt, he]

/-- A pop takes the popped element out of what is left, and nothing else. -/
theorem rest_refill {head : Head α} {others : List (Head α)} (h : (chunks.getD head.2.1 [])[head.2.2]? = some head.1) :
    (((head :: others).flatMap (rest chunks))).Perm (head.1 :: (refill chunks head others).flatMap (rest chunks)) := by
  rw [List.flatMap_cons, rest_eq h]
  unfold refill
  split
  · exact .refl _
  · rename_i hn
    rw [show rest chunks (head.1, head.2.1, head.2.2 + 1) = [] from
      List.drop_eq_nil_of_le (List.getElem?_eq_none_iff.1 hn)]
    exact .refl _

theorem Placed.refill {head : Head α} {others : List (Head α)} (h : Placed chunks others) :
    Placed chunks (refill chunks head others) := by
  unfold Heap.refill
  split
  · rename_i hn
    intro e he
    rcases List.mem_cons.1 he with rfl | he
    · exact hn
    · exact h e he
  · exact h

/-- Draining gives everything the heads stand for. -/
theorem drain_perm : ∀ {fuel : Nat} {heap : List (Head α)}, Placed chunks heap →
    (heap.flatMap (rest chunks)).length ≤ fuel → (drain lt chunks fuel heap).Perm (heap.flatMap (rest chunks))
  | 0, heap, _, hl => by
    rw [List.length_eq_zero_iff.1 (Nat.le_zero.1 hl)]
    exact .refl _
  | fuel + 1, heap, h, hl => by
    rw [drain]
    split
    · rename_i hp
      rw [pop_eq_none hp]
      exact .refl _
    · rename_i head others hp
      have hperm := pop_perm hp
      have hplace : Placed chunks (head :: others) := fun e he => h e (hperm.mem_iff.2 he)
      have hall := (hperm.flatMap_right (rest chunks)).trans (rest_refill (hplace head (List.mem_cons_self ..)))
      have hlen := hall.length_eq
      rw [List.length_cons] at hlen
      have hrefill : Placed chunks (refill chunks head others) :=
        Placed.refill fun e he => hplace e (List.mem_cons_of_mem _ he)
      have ih := drain_perm hrefill (show _ ≤ fuel by omega)
      exact (ih.cons head.1).trans hall.symm

/-- Draining sorted chunks gives a sorted list. -/
theorem drain_sorted (hlt : StrictWeak lt) (hs : ∀ chunk ∈ chunks, chunk.Pairwise fun a b => lt b a = false) :
    ∀ {fuel : Nat} {heap : List (Head α)}, Placed chunks heap → (heap.flatMap (rest chunks)).length ≤ fuel →
      (drain lt chunks fuel heap).Pairwise fun a b => lt b a = false
  | 0, _, _, _ => List.Pairwise.nil
  | fuel + 1, heap, h, hl => by
    rw [drain]
    split
    · exact List.Pairwise.nil
    · rename_i head others hp
      have hperm := pop_perm hp
      have hplace : Placed chunks (head :: others) := fun e he => h e (hperm.mem_iff.2 he)
      have hall := (hperm.flatMap_right (rest chunks)).trans (rest_refill (hplace head (List.mem_cons_self ..)))
      have hlen := hall.length_eq
      rw [List.length_cons] at hlen
      have hrefill : Placed chunks (refill chunks head others) :=
        Placed.refill fun e he => hplace e (List.mem_cons_of_mem _ he)
      have hle : ((refill chunks head others).flatMap (rest chunks)).length ≤ fuel := by omega
      refine List.pairwise_cons.2 ⟨fun y hy => ?_, drain_sorted hlt hs hrefill hle⟩
      -- `y` comes after some head, and the popped one is the least head
      have hy := (drain_perm hrefill hle).mem_iff.1 hy
      obtain ⟨e, he, hye⟩ := List.mem_flatMap.1 (hall.mem_iff.2 (List.mem_cons_of_mem _ hy))
      have hplaced := h e he
      have hchunk : chunks.getD e.2.1 [] ∈ chunks := by
        rw [List.getD_eq_getElem?_getD] at hplaced ⊢
        cases hg : chunks[e.2.1]? with
        | none => rw [hg] at hplaced; simp at hplaced
        | some chunk => exact List.mem_of_getElem? hg
      have hey : lt y e.1 = false := by
        rw [rest_eq hplaced] at hye
        have hpw := (hs _ hchunk).sublist (List.drop_sublist e.2.2 _)
        change (rest chunks e).Pairwise _ at hpw
        rw [rest_eq hplaced, List.pairwise_cons] at hpw
        rcases List.mem_cons.1 hye with rfl | hye
        · exact hlt.irrefl _
        · exact hpw.1 y hye
      have hhead : lt e.1 head.1 = false := by
        rcases List.mem_cons.1 (hperm.mem_iff.1 he) with rfl | he
        · exact hlt.irrefl _
        · exact (headLt_eq_false.1 (pop_greatest hlt.headLt hp e he)).1
      exact hlt.trans _ _ _ hey hhead

theorem rest_heads : ∀ {suffix : List (List α)} {k : Nat}, (∀ i chunk, suffix[i]? = some chunk → chunks[k + i]? = some chunk) →
    Placed chunks ((suffix.zipIdx k).filterMap fun e => e.1.head?.map fun x => (x, e.2, 0)) ∧
      ((suffix.zipIdx k).filterMap fun e => e.1.head?.map fun x => (x, e.2, 0)).flatMap (rest chunks) = suffix.flatten
  | [], _, _ => ⟨fun _ h => absurd h (List.not_mem_nil), rfl⟩
  | chunk :: suffix, k, h => by
    have hk : chunks[k]? = some chunk := by simpa using h 0 chunk rfl
    obtain ⟨ih, ih'⟩ := @rest_heads suffix (k + 1) fun i c hc => by
      have := h (i + 1) c (by simpa using hc)
      rwa [Nat.add_comm i 1, ← Nat.add_assoc] at this
    rw [List.zipIdx_cons, List.flatten_cons]
    cases chunk with
    | nil => exact ⟨ih, ih'⟩
    | cons x xs =>
      rw [List.filterMap_cons]
      have hget : chunks.getD k [] = x :: xs := by rw [List.getD_eq_getElem?_getD, hk]; rfl
      simp only [List.head?_cons, Option.map_some]
      refine ⟨fun e he => ?_, ?_⟩
      · rcases List.mem_cons.1 he with rfl | he
        · simp only [hget]; rfl
        · exact ih e he
      · rw [List.flatMap_cons, ih']
        unfold rest
        simp only [hget, List.drop_zero]

/-- A merge gives the elements of the chunks. -/
theorem merge_perm (lt : α → α → Bool) (chunks : List (List α)) : (merge lt chunks).Perm chunks.flatten := by
  obtain ⟨hp, he⟩ := @rest_heads _ chunks chunks 0 fun i c hc => by rwa [Nat.zero_add]
  have h : (merge lt chunks).Perm ((heads chunks).flatMap (rest chunks)) :=
    drain_perm hp (Nat.le_of_eq (congrArg List.length he))
  exact h.trans (.of_eq he)

/-- A merge of sorted chunks is sorted. -/
theorem merge_sorted (hlt : StrictWeak lt) (hs : ∀ chunk ∈ chunks, chunk.Pairwise fun a b => lt b a = false) :
    (merge lt chunks).Pairwise fun a b => lt b a = false := by
  obtain ⟨hp, he⟩ := @rest_heads _ chunks chunks 0 fun i c hc => by rwa [Nat.zero_add]
  exact drain_sorted hlt hs hp (Nat.le_of_eq (congrArg List.length he))

end Merge

end StorageHarvester.Heap
