/-
Forests given by parent pointers: `parent i` is the node above `i`, or `none` at a root, and a
parent always has a smaller index (`Down`). Ancestry (`Above`), the backwards pass that rolls every
node's value up into its ancestors, and the meet (lowest common ancestor) of two nodes with what a
fold of meets computes.
-/
import Mathlib.Algebra.BigOperators.Group.Finset.Piecewise
import Mathlib.Algebra.Order.BigOperators.Group.Finset
import Mathlib.Algebra.Order.Ring.Int
import Mathlib.Data.List.Dedup
import Mathlib.Data.List.GetD
import Mathlib.Data.List.Perm.Subperm
import Mathlib.Data.List.Sort
import Mathlib.Tactic.Common

namespace StorageHarvester.Forest

variable {parent : ℕ → Option ℕ}

/-! ## Ancestry -/

/-- Every parent has a smaller index. -/
def Down (parent : ℕ → Option ℕ) : Prop := ∀ i p, parent i = some p → p < i

/-- `a` is `i` itself or one of its ancestors. -/
inductive Above (parent : ℕ → Option ℕ) (a : ℕ) : ℕ → Prop
  | refl : Above parent a a
  | step {i p : ℕ} (hp : parent i = some p) (h : Above parent a p) : Above parent a i

theorem Above.trans {a b c : ℕ} (h1 : Above parent a b) (h2 : Above parent b c) : Above parent a c := by
  induction h2 with
  | refl => exact h1
  | step hp _ ih => exact .step hp ih

theorem Above.le (hd : Down parent) {a i : ℕ} (h : Above parent a i) : a ≤ i := by
  induction h with
  | refl => exact Nat.le_refl _
  | step hp _ ih => exact Nat.le_trans ih (Nat.le_of_lt (hd _ _ hp))

theorem Above.antisymm (hd : Down parent) {a b : ℕ} (h1 : Above parent a b) (h2 : Above parent b a) : a = b :=
  Nat.le_antisymm (h1.le hd) (h2.le hd)

/-- Only a strictly smaller index can be above a node other than itself. -/
theorem above_iff {a i : ℕ} : Above parent a i ↔ a = i ∨ ∃ p, parent i = some p ∧ Above parent a p := by
  constructor
  · intro h
    cases h with
    | refl => exact .inl rfl
    | step hp h => exact .inr ⟨_, hp, h⟩
  · rintro (rfl | ⟨p, hp, h⟩)
    · exact .refl
    · exact .step hp h

theorem above_of_parent {a i p : ℕ} (hp : parent i = some p) : Above parent a i ↔ a = i ∨ Above parent a p := by
  rw [above_iff, hp]; simp

theorem above_root {a i : ℕ} (hp : parent i = none) : Above parent a i ↔ a = i := by
  rw [above_iff, hp]; simp

/-- A strict ancestor is at or above the parent. -/
theorem Above.parent_of_ne {a i : ℕ} (h : Above parent a i) (hne : a ≠ i) :
    ∃ p, parent i = some p ∧ Above parent a p := by
  rcases above_iff.1 h with rfl | h
  · exact absurd rfl hne
  · exact h

/-- Two ancestors of one node are comparable. -/
theorem Above.total {a b i : ℕ} (ha : Above parent a i) (hb : Above parent b i) :
    Above parent a b ∨ Above parent b a := by
  induction ha with
  | refl => exact .inr hb
  | step hp h ih =>
    rcases (above_of_parent hp).1 hb with rfl | hb
    · exact .inl (.step hp h)
    · exact ih hb

/-- Ancestry reads only the parents of nodes up to the index it starts at. -/
theorem Above.congr {parent' : ℕ → Option ℕ} (hd : Down parent) {a i : ℕ} (h : Above parent a i)
    (he : ∀ j ≤ i, parent' j = parent j) : Above parent' a i := by
  induction h with
  | refl => exact .refl
  | step hp _ ih =>
    refine .step ((he _ (Nat.le_refl _)).trans hp) (ih fun j hj => he j ?_)
    exact Nat.le_trans hj (Nat.le_of_lt (hd _ _ hp))

theorem Down.congr {parent' : ℕ → Option ℕ} (hd : Down parent) (he : ∀ j, parent' j = parent j) : Down parent' :=
  fun i p hp => hd i p ((he i).symm.trans hp)

/-- The child of `a` on the way down to a strict descendant `i`. -/
theorem Above.child {a i : ℕ} (h : Above parent a i) (hne : a ≠ i) :
    ∃ c, parent c = some a ∧ Above parent c i := by
  induction h with
  | refl => exact absurd rfl hne
  | @step i p hp h ih =>
    by_cases hap : a = p
    · subst hap; exact ⟨i, hp, .refl⟩
    · obtain ⟨c, hc, hci⟩ := ih hap
      exact ⟨c, hc, .step hp hci⟩

/-- Distinct siblings have no common descendant. -/
theorem sibling_unique (hd : Down parent) {a b c i : ℕ} (ha : parent a = some c) (hb : parent b = some c)
    (hai : Above parent a i) (hbi : Above parent b i) : a = b := by
  rcases hai.total hbi with h | h
  · rcases (above_of_parent hb).1 h with h | h
    · exact h
    · exact absurd (h.le hd) (Nat.not_le.2 (hd _ _ ha))
  · rcases (above_of_parent ha).1 h with h | h
    · exact h.symm
    · exact absurd (h.le hd) (Nat.not_le.2 (hd _ _ hb))

/-! ## The backwards pass -/

section RollUp

variable {M N : Type*}

/-- One step of the pass: node `i` adds its value to its parent's. -/
def push (op : M → M → M) (parent : ℕ → Option ℕ) (i : ℕ) (f : ℕ → M) : ℕ → M :=
  match parent i with
  | none => f
  | some p => Function.update f p (op (f p) (f i))

/-- The pass over nodes `k`, `k - 1`, …, `1`. -/
def rollUp (op : M → M → M) (parent : ℕ → Option ℕ) : ℕ → (ℕ → M) → ℕ → M
  | 0, f => f
  | k + 1, f => rollUp op parent k (push op parent (k + 1) f)

/-- The pass leaves every node after `k` as it was. -/
theorem rollUp_of_lt (op : M → M → M) (hd : Down parent) :
    ∀ {k v : ℕ} (f : ℕ → M), k < v → rollUp op parent k f v = f v
  | 0, _, _, _ => rfl
  | k + 1, v, f, h => by
    rw [rollUp, rollUp_of_lt op hd _ (by omega), push]
    cases hp : parent (k + 1) with
    | none => rfl
    | some p =>
      have := hd _ _ hp
      exact Function.update_of_ne (by omega) _ _

/-- What holds of every node's own value, and of what the operation makes of such values, holds of what is rolled up. -/
theorem rollUp_induction {op : M → M → M} {P : M → Prop} (hop : ∀ a b, P a → P b → P (op a b)) :
    ∀ (k : ℕ) (f : ℕ → M), (∀ i, P (f i)) → ∀ v, P (rollUp op parent k f v)
  | 0, _, hf, v => hf v
  | k + 1, f, hf, v => by
    rw [rollUp]
    refine rollUp_induction hop k _ (fun i => ?_) v
    unfold push
    cases parent (k + 1) with
    | none => exact hf i
    | some p =>
      show P (Function.update f p (op (f p) (f (k + 1))) i)
      rw [Function.update_apply]
      split
      · exact hop _ _ (hf p) (hf (k + 1))
      · exact hf i

/-- The pass commutes with a map that respects the operation. -/
theorem rollUp_map {op : M → M → M} {g : N → N → N} (φ : M → N) (hφ : ∀ a b, φ (op a b) = g (φ a) (φ b)) :
    ∀ (k : ℕ) (f : ℕ → M) (v : ℕ), φ (rollUp op parent k f v) = rollUp g parent k (fun i => φ (f i)) v
  | 0, _, _ => rfl
  | k + 1, f, v => by
    rw [rollUp, rollUp, rollUp_map φ hφ k]
    congr 1
    funext i
    unfold push
    cases parent (k + 1) with
    | none => rfl
    | some p =>
      by_cases hi : i = p
      · subst hi; simp [hφ]
      · simp [Function.update_of_ne hi]

/-- A node's value only grows when values are joined. -/
theorem le_rollUp_max [LinearOrder M] : ∀ (k v : ℕ) (f : ℕ → M), f v ≤ rollUp max parent k f v
  | 0, _, _ => le_refl _
  | k + 1, v, f => by
    rw [rollUp]
    refine le_trans ?_ (le_rollUp_max k v _)
    unfold push
    cases parent (k + 1) with
    | none => exact le_refl _
    | some p =>
      dsimp only
      rw [Function.update_apply]
      split
      · rename_i hv
        rw [hv]
        exact le_max_left _ _
      · exact le_refl _

/-- After the pass no node's value is above its parent's. -/
theorem rollUp_max_le [LinearOrder M] (hd : Down parent) :
    ∀ {k j p : ℕ}, j ≤ k → ∀ f : ℕ → M, parent j = some p → rollUp max parent k f j ≤ rollUp max parent k f p
  | 0, j, p, hj, f, hp => by
    have := hd j p hp
    omega
  | k + 1, j, p, hj, f, hp => by
    rw [rollUp]
    rcases Nat.lt_or_ge k j with hkj | hkj
    · -- the last node has just been added to its parent's
      obtain rfl : j = k + 1 := by omega
      have hpk := hd _ _ hp
      have hpush : push max parent (k + 1) f = Function.update f p (max (f p) (f (k + 1))) := by
        unfold push
        rw [hp]
      rw [rollUp_of_lt max hd _ (Nat.lt_succ_self k), hpush, Function.update_of_ne (by omega)]
      refine le_trans ?_ (le_rollUp_max k p _)
      rw [Function.update_self]
      exact le_max_right _ _
    · exact rollUp_max_le hd hkj _ hp

/-- After the pass a node holds the greatest of the values at and below it. -/
theorem rollUp_max_of_above [LinearOrder M] (hd : Down parent) {k v j : ℕ} (hj : j ≤ k) (h : Above parent v j) (f : ℕ → M) :
    f j ≤ rollUp max parent k f v := by
  refine le_trans (b := rollUp max parent k f j) (le_rollUp_max k j f) ?_
  induction h with
  | refl => exact le_refl _
  | step hp _ ih => exact le_trans (rollUp_max_le hd hj f hp) (ih (Nat.le_trans (Nat.le_of_lt (hd _ _ hp)) hj))

theorem rollUp_max_mem [LinearOrder M] : ∀ (k v : ℕ) (f : ℕ → M),
    ∃ j, (j ≤ k ∨ j = v) ∧ Above parent v j ∧ rollUp max parent k f v = f j
  | 0, v, f => ⟨v, .inr rfl, .refl, rfl⟩
  | k + 1, v, f => by
    obtain ⟨j, hj, ha, he⟩ := rollUp_max_mem k v (push max parent (k + 1) f)
    rw [rollUp, he]
    have hj' : j ≤ k + 1 ∨ j = v := hj.imp_left fun hj => Nat.le_succ_of_le hj
    unfold push
    cases hp : parent (k + 1) with
    | none => exact ⟨j, hj', ha, rfl⟩
    | some p =>
      dsimp only
      by_cases hjp : j = p
      · -- the parent's own value, or the one just added to it
        subst hjp
        rw [Function.update_self]
        rcases max_choice (f j) (f (k + 1)) with hm | hm
        · exact ⟨j, hj', ha, hm⟩
        · exact ⟨k + 1, .inl (Nat.le_refl _), ha.trans (.step hp .refl), hm⟩
      · exact ⟨j, hj', ha, Function.update_of_ne hjp _ _⟩

open Classical in
/-- After the pass a node holds the sum of the values at and below it. -/
theorem rollUp_eq_sum [AddCommMonoid M] (hd : Down parent) :
    ∀ {k v : ℕ} (f : ℕ → M), v ≤ k →
      rollUp (· + ·) parent k f v = ∑ j ∈ Finset.range (k + 1), if Above parent v j then f j else 0
  | 0, v, f, h => by
    obtain rfl : v = 0 := by omega
    simp [rollUp, Above.refl]
  | k + 1, v, f, h => by
    rw [rollUp, Finset.sum_range_succ]
    by_cases hv : v = k + 1
    · subst hv
      rw [rollUp_of_lt _ hd _ (Nat.lt_succ_self k), if_pos .refl, Finset.sum_eq_zero, zero_add]
      · unfold push
        cases hp : parent (k + 1) with
        | none => rfl
        | some p => exact Function.update_of_ne (by have := hd _ _ hp; omega) _ _
      · intro j hj
        rw [Finset.mem_range] at hj
        exact if_neg fun ha => by have := ha.le hd; omega
    · rw [rollUp_eq_sum hd _ (by omega)]
      unfold push
      cases hp : parent (k + 1) with
      | none => simp [above_root hp, hv]
      | some p =>
        have hpk := hd _ _ hp
        have hsplit : ∀ j ∈ Finset.range (k + 1),
            (if Above parent v j then Function.update f p (f p + f (k + 1)) j else 0) =
              (if Above parent v j then f j else 0) + if j = p then (if Above parent v p then f (k + 1) else 0) else 0 := by
          intro j _
          by_cases hj : j = p
          · subst hj; by_cases ha : Above parent v j <;> simp [ha]
          · simp [hj]
        rw [Finset.sum_congr rfl hsplit, Finset.sum_add_distrib, Finset.sum_ite_eq' _ p,
          if_pos (Finset.mem_range.2 hpk)]
        simp [above_of_parent hp, hv]

open Classical in
/-- What is at or below a node is the node and what is at or below its children. -/
theorem sum_above_children [AddCommMonoid M] (hd : Down parent) {v k : ℕ} (hv : v ≤ k) (f : ℕ → M) :
    (∑ j ∈ Finset.range (k + 1), if Above parent v j then f j else 0) =
      f v + ∑ c ∈ Finset.range (k + 1), if parent c = some v then
        ∑ j ∈ Finset.range (k + 1), if Above parent c j then f j else 0 else 0 := by
  have hpoint : ∀ j ∈ Finset.range (k + 1), (if Above parent v j then f j else 0) =
      (if j = v then f v else 0) +
        ∑ c ∈ Finset.range (k + 1), if parent c = some v ∧ Above parent c j then f j else 0 := by
    intro j hj
    rw [Finset.mem_range] at hj
    by_cases hjv : j = v
    · subst hjv
      rw [if_pos .refl, if_pos rfl, Finset.sum_eq_zero, add_zero]
      rintro c -
      rw [if_neg]
      rintro ⟨hc, ha⟩
      have := hd c j hc; have := ha.le hd; omega
    · rw [if_neg hjv, zero_add]
      by_cases ha : Above parent v j
      · obtain ⟨c, hc, hcj⟩ := ha.child (Ne.symm hjv)
        rw [if_pos ha, Finset.sum_eq_single c, if_pos ⟨hc, hcj⟩]
        · rintro b - hbc
          rw [if_neg]
          exact fun hb => hbc (sibling_unique hd hb.1 hc hb.2 hcj)
        · intro hn
          exact absurd (Finset.mem_range.2 (by have := hcj.le hd; omega)) hn
      · rw [if_neg ha, Finset.sum_eq_zero]
        rintro c -
        rw [if_neg]
        exact fun hc => ha ((Above.step hc.1 .refl).trans hc.2)
  rw [Finset.sum_congr rfl hpoint, Finset.sum_add_distrib, Finset.sum_ite_eq' _ v, if_pos (Finset.mem_range.2 (by omega)),
    Finset.sum_comm]
  congr 1
  refine Finset.sum_congr rfl fun c _ => ?_
  by_cases hc : parent c = some v
  · simp [hc]
  · simp [hc]

end RollUp

/-! ## Meets -/

/-- `c` is at or above a node, and above nothing where there is no node. -/
def AboveOpt (parent : ℕ → Option ℕ) (c : ℕ) : Option ℕ → Prop
  | none => False
  | some i => Above parent c i

/-- `x` is the lowest common ancestor of `a` and `b` (none when they have no common ancestor, or
one of them is none). -/
def IsMeet (parent : ℕ → Option ℕ) (a b x : Option ℕ) : Prop :=
  ∀ c, AboveOpt parent c x ↔ AboveOpt parent c a ∧ AboveOpt parent c b

theorem aboveOpt_inj (hd : Down parent) {x y : Option ℕ} (h : ∀ c, AboveOpt parent c x ↔ AboveOpt parent c y) :
    x = y := by
  cases x with
  | none =>
    cases y with
    | none => rfl
    | some j => exact ((h j).2 .refl).elim
  | some i =>
    cases y with
    | none => exact ((h i).1 .refl).elim
    | some j =>
      have h1 : Above parent i j := (h i).1 .refl
      have h2 : Above parent j i := (h j).2 .refl
      rw [h1.antisymm hd h2]

/-- What a left fold of meets is at or below: everything the start and all the items have above. -/
theorem foldl_meet {f : Option ℕ → Option ℕ → Option ℕ} (hf : ∀ a b, IsMeet parent a b (f a b)) :
    ∀ (l : List (Option ℕ)) (a : Option ℕ) (c : ℕ),
      AboveOpt parent c (l.foldl f a) ↔ AboveOpt parent c a ∧ ∀ b ∈ l, AboveOpt parent c b
  | [], a, c => by simp
  | b :: l, a, c => by
    rw [List.foldl_cons, foldl_meet hf l, hf a b c]
    simp only [List.mem_cons, forall_eq_or_imp]
    tauto

end StorageHarvester.Forest
