/-
Traversals of a tree given by child lists: what a stack of nodes to visit pops, and the recursive
order. When a rank falls from a node to its children, both visit the same nodes, a node's subtree
is one stretch of the order, and what the nodes hold beyond their children adds up to what the
first one holds.
-/
import Mathlib.Algebra.BigOperators.Group.Finset.Piecewise
import Mathlib.Algebra.Order.BigOperators.Group.Finset
import Mathlib.Algebra.Order.Ring.Int
import Mathlib.Data.List.Dedup
import Mathlib.Data.List.GetD
import Mathlib.Data.List.Perm.Subperm
import Mathlib.Data.List.Sort
import Mathlib.Tactic.Common

namespace StorageHarvester.Traversal

variable {α : Type*} {kids : α → List α} {P : α → Prop} {rank : α → ℕ}

/-- The nodes a stack pops, in order; the children of a node go on top of it. -/
def popped (kids : α → List α) : ℕ → List α → List α
  | 0, _ => []
  | _, [] => []
  | fuel + 1, x :: stack => x :: popped kids fuel ((kids x).reverse ++ stack)

/-- A node, then everything below its children, at most `depth` levels in all. -/
def preorder (kids : α → List α) : ℕ → α → List α
  | 0, _ => []
  | depth + 1, x => x :: (kids x).flatMap (preorder kids depth)

/-- Among the nodes `P` holds of, children have a smaller rank. -/
structure Ranked (kids : α → List α) (P : α → Prop) (rank : α → ℕ) : Prop where
  kid : ∀ x, P x → ∀ y ∈ kids x, P y ∧ rank y < rank x
  pos : ∀ x, P x → 0 < rank x

namespace Ranked

/-- As many levels as the rank reach everything. -/
theorem preorder_depth (h : Ranked kids P rank) : ∀ {depth : ℕ} {x : α}, P x → rank x ≤ depth →
    preorder kids (depth + 1) x = preorder kids depth x
  | 0, x, hx, hd => absurd (h.pos x hx) (by omega)
  | depth + 1, x, hx, hd => by
    rw [preorder]
    conv_rhs => rw [preorder]
    congr 1
    refine List.flatMap_congr fun y hy => ?_
    obtain ⟨hy, hr⟩ := h.kid x hx y hy
    exact h.preorder_depth hy (by omega)

/-- A node and its subtree, one level unfolded. -/
theorem preorder_step (h : Ranked kids P rank) {x : α} (hx : P x) {depth : ℕ} (hd : rank x ≤ depth) :
    preorder kids depth x = x :: (kids x).flatMap (preorder kids depth) := by
  rw [← h.preorder_depth hx hd, preorder]

/-- With a step for every node of the subtrees on it, a stack pops these and nothing else. -/
theorem popped_perm (h : Ranked kids P rank) {depth : ℕ} : ∀ (fuel : ℕ) (stack : List α),
    (∀ x ∈ stack, P x ∧ rank x ≤ depth) → (stack.flatMap (preorder kids depth)).length ≤ fuel →
    (popped kids fuel stack).Perm (stack.flatMap (preorder kids depth))
  | fuel, [], _, _ => by cases fuel <;> simp [popped]
  | 0, x :: stack, hs, hl => by
    obtain ⟨hx, hr⟩ := hs x (List.mem_cons_self ..)
    rw [List.flatMap_cons, h.preorder_step hx hr, List.length_append, List.length_cons] at hl
    omega
  | fuel + 1, x :: stack, hs, hl => by
    obtain ⟨hx, hr⟩ := hs x (List.mem_cons_self ..)
    rw [List.flatMap_cons, h.preorder_step hx hr] at hl ⊢
    have hmem : ∀ y ∈ (kids x).reverse ++ stack, P y ∧ rank y ≤ depth := by
      intro y hy
      rcases List.mem_append.1 hy with hy | hy
      · obtain ⟨hp, hlt⟩ := h.kid x hx y (List.mem_reverse.1 hy)
        exact ⟨hp, by omega⟩
      · exact hs y (List.mem_cons_of_mem _ hy)
    have hperm : (((kids x).reverse ++ stack).flatMap (preorder kids depth)).Perm
        ((kids x).flatMap (preorder kids depth) ++ stack.flatMap (preorder kids depth)) := by
      rw [List.flatMap_append]
      exact ((List.reverse_perm _).flatMap_right _).append_right _
    have hlen := hperm.length_eq
    have ih := h.popped_perm fuel _ hmem (by
      rw [List.cons_append, List.length_cons] at hl
      omega)
    rw [popped, List.cons_append]
    exact (ih.trans hperm).cons x

/-- Everything in a node's order satisfies what its children inherit. -/
theorem of_mem_preorder (h : Ranked kids P rank) {Q : α → Prop} (hq : ∀ x, P x → Q x → ∀ y ∈ kids x, Q y) :
    ∀ {depth : ℕ} {x y : α}, P x → Q x → y ∈ preorder kids depth x → P y ∧ Q y
  | 0, _, _, _, _, hy => by simp [preorder] at hy
  | depth + 1, x, y, hx, hqx, hy => by
    rw [preorder, List.mem_cons] at hy
    rcases hy with rfl | hy
    · exact ⟨hx, hqx⟩
    · obtain ⟨k, hk, hy⟩ := List.mem_flatMap.1 hy
      exact h.of_mem_preorder hq (h.kid x hx k hk).1 (hq x hx hqx k hk) hy

/-- A node's subtree is one stretch of the order it is met in. -/
theorem preorder_split (h : Ranked kids P rank) {depth : ℕ} : ∀ {levels : ℕ} {x y : α}, P x → rank x ≤ depth →
    y ∈ preorder kids levels x → ∃ l l', preorder kids depth x = l ++ preorder kids depth y ++ l'
  | 0, _, _, _, _, hy => by simp [preorder] at hy
  | levels + 1, x, y, hx, hr, hy => by
    rw [preorder, List.mem_cons] at hy
    rcases hy with rfl | hy
    · exact ⟨[], [], by simp⟩
    · obtain ⟨k, hk, hy⟩ := List.mem_flatMap.1 hy
      obtain ⟨hpk, hlt⟩ := h.kid x hx k hk
      have hsplit : ∃ l l', preorder kids depth k = l ++ preorder kids depth y ++ l' := h.preorder_split hpk (by omega) hy
      obtain ⟨l, l', hl⟩ := hsplit
      obtain ⟨before, after, hba⟩ := List.append_of_mem hk
      refine ⟨x :: before.flatMap (preorder kids depth) ++ l, l' ++ after.flatMap (preorder kids depth), ?_⟩
      rw [h.preorder_step hx hr, hba, List.flatMap_append, List.flatMap_cons, hl]
      simp [List.append_assoc]

/-- The children of what is in the order are in it. -/
theorem kid_mem_preorder (h : Ranked kids P rank) {depth : ℕ} {x y k : α} (hx : P x) (hr : rank x ≤ depth)
    (hy : y ∈ preorder kids depth x) (hk : k ∈ kids y) : k ∈ preorder kids depth x := by
  obtain ⟨hpy, hry⟩ := h.of_mem_preorder (Q := fun z => rank z ≤ depth)
    (fun z hz hd w hw => by have := (h.kid z hz w hw).2; omega) hx hr hy
  obtain ⟨hpk, hlt⟩ := h.kid y hpy k hk
  obtain ⟨l, l', hl⟩ := h.preorder_split hx hr hy
  rw [hl, h.preorder_step hpy hry]
  refine List.mem_append_left _ (List.mem_append_right _ (List.mem_cons_of_mem _ (List.mem_flatMap.2 ⟨k, hk, ?_⟩)))
  rw [h.preorder_step hpk (by omega)]
  exact List.mem_cons_self ..

/-- When no two children have a node below in common, no node is met twice. -/
theorem nodup_preorder (h : Ranked kids P rank) (hk : ∀ x, P x → (kids x).Nodup)
    (hd : ∀ x, P x → ∀ y ∈ kids x, ∀ z ∈ kids x, ∀ depth, ∀ w ∈ preorder kids depth y, w ∈ preorder kids depth z → y = z) :
    ∀ {depth : ℕ} {x : α}, P x → (preorder kids depth x).Nodup
  | 0, _, _ => by simp [preorder]
  | depth + 1, x, hx => by
    rw [preorder, List.nodup_cons, List.nodup_flatMap]
    refine ⟨fun hm => ?_, fun y hy => h.nodup_preorder hk hd (h.kid x hx y hy).1, ?_⟩
    · -- what is below a child has a smaller rank
      obtain ⟨y, hy, hm⟩ := List.mem_flatMap.1 hm
      obtain ⟨hpy, hlt⟩ := h.kid x hx y hy
      have hrank := (h.of_mem_preorder (Q := fun z => rank z ≤ rank y)
        (fun z hz hr w hw => by have := (h.kid z hz w hw).2; omega) hpy (Nat.le_refl _) hm).2
      omega
    · refine (hk x hx).imp_of_mem fun {y z} hy hz hne => ?_
      intro w hw hw'
      exact hne (hd x hx y hy z hz depth w hw hw')

/-- What the nodes of an order hold beyond their children adds up to what the first one holds. -/
theorem sum_preorder (h : Ranked kids P rank) {f g : α → ℤ}
    (hf : ∀ x, P x → f x = g x - ((kids x).map g).sum) : ∀ {depth : ℕ} {x : α}, P x → rank x ≤ depth →
    ((preorder kids depth x).map f).sum = g x
  | 0, x, hx, hd => absurd (h.pos x hx) (by omega)
  | depth + 1, x, hx, hd => by
    have hkids : (((kids x).flatMap (preorder kids depth)).map f).sum = ((kids x).map g).sum := by
      rw [List.map_flatMap, List.flatMap_def, List.sum_flatten, List.map_map]
      refine congrArg List.sum (List.map_congr_left fun y hy => ?_)
      obtain ⟨hy, hr⟩ := h.kid x hx y hy
      exact h.sum_preorder hf hy (by omega)
    rw [preorder, List.map_cons, List.sum_cons, hkids, hf x hx]
    omega

end Ranked

end StorageHarvester.Traversal
