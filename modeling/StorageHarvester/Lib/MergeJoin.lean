/-
The merge-join of two sorted lists: the steps of the loop that compares the heads and takes the
smaller one, or both. Every item is taken once; sorted without repeats, two items are taken
together exactly when their keys are equal.
-/
import Mathlib.Algebra.BigOperators.Group.Finset.Piecewise
import Mathlib.Algebra.Order.BigOperators.Group.Finset
import Mathlib.Algebra.Order.Ring.Int
import Mathlib.Data.List.Dedup
import Mathlib.Data.List.GetD
import Mathlib.Data.List.Perm.Subperm
import Mathlib.Data.List.Sort
import Mathlib.Tactic.Common

namespace StorageHarvester.MergeJoin

variable {α β κ : Type*}

/-- One step: an item of either list alone, or one of each. -/
inductive Joined (α β : Type*) where
  | left (a : α)
  | right (b : β)
  | both (a : α) (b : β)

namespace Joined

def onlyLeft : Joined α β → Option α
  | left a => some a
  | _ => none

def onlyRight : Joined α β → Option β
  | right b => some b
  | _ => none

def pair : Joined α β → Option (α × β)
  | both a b => some (a, b)
  | _ => none

end Joined

/-- The steps of a merge, at most `fuel`. -/
def steps (cmp : α → β → Ordering) : ℕ → List α → List β → List (Joined α β)
  | 0, _, _ => []
  | _, [], [] => []
  | fuel + 1, a :: as, [] => .left a :: steps cmp fuel as []
  | fuel + 1, [], b :: bs => .right b :: steps cmp fuel [] bs
  | fuel + 1, a :: as, b :: bs =>
    match cmp a b with
    | .eq => .both a b :: steps cmp fuel as bs
    | .lt => .left a :: steps cmp fuel as (b :: bs)
    | .gt => .right b :: steps cmp fuel (a :: as) bs

variable {cmp : α → β → Ordering}

theorem eq_nil_of_length {as : List α} {bs : List β} (h : as.length + bs.length ≤ 0) : as = [] ∧ bs = [] :=
  ⟨List.length_eq_zero_iff.1 (by omega), List.length_eq_zero_iff.1 (by omega)⟩

/-- Every item of the left list is taken once. -/
theorem sum_left (f : α → ℤ) (fuel : ℕ) (as : List α) (bs : List β) (h : as.length + bs.length ≤ fuel) :
    (as.map f).sum = (((steps cmp fuel as bs).filterMap Joined.onlyLeft).map f).sum +
      (((steps cmp fuel as bs).filterMap Joined.pair).map fun p => f p.1).sum := by
  fun_induction steps cmp fuel as bs with
  | case1 as bs =>
    obtain ⟨rfl, rfl⟩ := eq_nil_of_length h
    rfl
  | case2 => rfl
  | case3 fuel a as ih | case6 fuel a as b bs hc ih =>
    have ih := ih (by simp only [List.length_cons] at h ⊢; omega)
    simp only [List.map_cons, List.sum_cons, List.filterMap_cons, Joined.onlyLeft, Joined.pair]
    omega
  | case4 fuel b bs ih | case7 fuel a as b bs hc ih =>
    have ih := ih (by simp only [List.length_cons] at h ⊢; omega)
    simpa only [List.filterMap_cons, Joined.onlyLeft, Joined.pair] using ih
  | case5 fuel a as b bs hc ih =>
    have ih := ih (by simp only [List.length_cons] at h; omega)
    simp only [List.map_cons, List.sum_cons, List.filterMap_cons, Joined.onlyLeft, Joined.pair]
    omega

/-- Every item of the right list is taken once. -/
theorem sum_right (f : β → ℤ) (fuel : ℕ) (as : List α) (bs : List β) (h : as.length + bs.length ≤ fuel) :
    (bs.map f).sum = (((steps cmp fuel as bs).filterMap Joined.onlyRight).map f).sum +
      (((steps cmp fuel as bs).filterMap Joined.pair).map fun p => f p.2).sum := by
  fun_induction steps cmp fuel as bs with
  | case1 as bs =>
    obtain ⟨rfl, rfl⟩ := eq_nil_of_length h
    rfl
  | case2 => rfl
  | case3 fuel a as ih | case6 fuel a as b bs hc ih =>
    have ih := ih (by simp only [List.length_cons] at h ⊢; omega)
    simpa only [List.filterMap_cons, Joined.onlyRight, Joined.pair] using ih
  | case4 fuel b bs ih | case7 fuel a as b bs hc ih =>
    have ih := ih (by simp only [List.length_cons] at h ⊢; omega)
    simp only [List.map_cons, List.sum_cons, List.filterMap_cons, Joined.onlyRight, Joined.pair]
    omega
  | case5 fuel a as b bs hc ih =>
    have ih := ih (by simp only [List.length_cons] at h; omega)
    simp only [List.map_cons, List.sum_cons, List.filterMap_cons, Joined.onlyRight, Joined.pair]
    omega

/-- The items taken together, in the order of the left list. -/
theorem pair_sublist (fuel : ℕ) (as : List α) (bs : List β) :
    (((steps cmp fuel as bs).filterMap Joined.pair).map Prod.fst).Sublist as := by
  fun_induction steps cmp fuel as bs with
  | case1 | case2 => simp
  | case3 fuel a as ih | case6 fuel a as b bs hc ih => exact ih.trans (List.sublist_cons_self ..)
  | case4 fuel b bs ih | case7 fuel a as b bs hc ih => exact ih
  | case5 fuel a as b bs hc ih => exact ih.cons_cons a

/-! ## Sorted lists -/

theorem ne_of_lt [Ord κ] [Std.LawfulEqOrd κ] {x y : κ} (h : compare x y = .lt) : x ≠ y := by
  rintro rfl
  rw [Std.ReflOrd.compare_self] at h
  cases h

/-- Sorted by their keys, without repeats. -/
abbrev Ascending [Ord κ] (f : α → κ) (l : List α) : Prop := l.Pairwise fun a b => compare (f a) (f b) = .lt

section Sorted

variable [Ord κ] [Std.TransOrd κ] [Std.LawfulEqOrd κ] [DecidableEq κ] {f : α → κ} {g : β → κ}

omit [DecidableEq κ] in
theorem ne_head {x : κ} {b : β} {bs : List β} (h : compare x (g b) = .lt) (hs : Ascending g (b :: bs)) :
    ∀ c ∈ b :: bs, x ≠ g c := by
  intro c hc
  rcases List.mem_cons.1 hc with rfl | hc
  · exact ne_of_lt h
  · exact ne_of_lt (Std.TransCmp.lt_trans h ((List.pairwise_cons.1 hs).1 c hc))

omit [DecidableEq κ] in
/-- Taken together: what has one key. -/
theorem mem_pair (hcmp : ∀ a b, cmp a b = compare (f a) (g b)) {x : α} {y : β} (fuel : ℕ) (as : List α) (bs : List β)
    (h : as.length + bs.length ≤ fuel) (hf : Ascending f as) (hg : Ascending g bs) :
    (x, y) ∈ (steps cmp fuel as bs).filterMap Joined.pair ↔ x ∈ as ∧ y ∈ bs ∧ f x = g y := by
  fun_induction steps cmp fuel as bs with
  | case1 as bs =>
    obtain ⟨rfl, rfl⟩ := eq_nil_of_length h
    simp
  | case2 => simp
  | case3 fuel a as ih =>
    have ih := ih (by simp only [List.length_cons] at h ⊢; omega) hf.of_cons hg
    simp only [List.filterMap_cons, Joined.pair]
    rw [ih]; simp
  | case4 fuel b bs ih =>
    have ih := ih (by simp only [List.length_cons] at h ⊢; omega) hf hg.of_cons
    simp only [List.filterMap_cons, Joined.pair]
    rw [ih]; simp
  | case5 fuel a as b bs hc ih =>
    have ih := ih (by simp only [List.length_cons] at h; omega) hf.of_cons hg.of_cons
    have heq : f a = g b := Std.LawfulEqCmp.eq_of_compare ((hcmp a b).symm.trans hc)
    simp only [List.filterMap_cons, Joined.pair, List.mem_cons, Prod.mk.injEq]
    rw [ih]
    constructor
    · rintro (⟨rfl, rfl⟩ | ⟨hx, hy, he⟩)
      · exact ⟨.inl rfl, .inl rfl, heq⟩
      · exact ⟨.inr hx, .inr hy, he⟩
    · -- a head and an item past the other head have different keys
      rintro ⟨rfl | hx, rfl | hy, he⟩
      · exact .inl ⟨rfl, rfl⟩
      · exact absurd (heq.symm.trans he) (ne_of_lt ((List.pairwise_cons.1 hg).1 y hy))
      · exact absurd (heq.trans he.symm) (ne_of_lt ((List.pairwise_cons.1 hf).1 x hx))
      · exact .inr ⟨hx, hy, he⟩
  | case6 fuel a as b bs hc ih =>
    have ih := ih (by simp only [List.length_cons] at h ⊢; omega) hf.of_cons hg
    simp only [List.filterMap_cons, Joined.pair]
    rw [ih, List.mem_cons (a := x)]
    constructor
    · rintro ⟨hx, hy, he⟩
      exact ⟨.inr hx, hy, he⟩
    · rintro ⟨rfl | hx, hy, he⟩
      · exact absurd he (ne_head ((hcmp x b).symm.trans hc) hg y hy)
      · exact ⟨hx, hy, he⟩
  | case7 fuel a as b bs hc ih =>
    have ih := ih (by simp only [List.length_cons] at h ⊢; omega) hf hg.of_cons
    have hlt : compare (g b) (f a) = .lt := Std.OrientedCmp.gt_iff_lt.1 ((hcmp a b).symm.trans hc)
    simp only [List.filterMap_cons, Joined.pair]
    rw [ih, List.mem_cons (a := y)]
    constructor
    · rintro ⟨hx, hy, he⟩
      exact ⟨hx, .inr hy, he⟩
    · rintro ⟨hx, rfl | hy, he⟩
      · exact absurd he.symm (ne_head hlt hf x hx)
      · exact ⟨hx, hy, he⟩

/-- Taken alone from the left: what has no namesake on the right. -/
theorem onlyLeft_eq (hcmp : ∀ a b, cmp a b = compare (f a) (g b)) (fuel : ℕ) (as : List α) (bs : List β)
    (h : as.length + bs.length ≤ fuel) (hf : Ascending f as) (hg : Ascending g bs) :
    (steps cmp fuel as bs).filterMap Joined.onlyLeft = as.filter fun a => bs.all fun b => decide (f a ≠ g b) := by
  fun_induction steps cmp fuel as bs with
  | case1 as bs =>
    obtain ⟨rfl, rfl⟩ := eq_nil_of_length h
    rfl
  | case2 => rfl
  | case3 fuel a as ih =>
    have ih := ih (by simp only [List.length_cons] at h ⊢; omega) hf.of_cons hg
    simp only [List.filterMap_cons, Joined.onlyLeft]
    rw [ih]; simp
  | case4 fuel b bs ih =>
    have ih := ih (by simp only [List.length_cons] at h ⊢; omega) hf hg.of_cons
    simpa only [List.filterMap_cons, Joined.onlyLeft, List.filter_nil] using ih
  | case5 fuel a as b bs hc ih =>
    have ih := ih (by simp only [List.length_cons] at h; omega) hf.of_cons hg.of_cons
    have heq : f a = g b := Std.LawfulEqCmp.eq_of_compare ((hcmp a b).symm.trans hc)
    simp only [List.filterMap_cons, Joined.onlyLeft]
    rw [ih, List.filter_cons_of_neg (by simp [heq])]
    refine List.filter_congr fun x hx => ?_
    have hne : f x ≠ g b := fun he => absurd (heq.trans he.symm) (ne_of_lt ((List.pairwise_cons.1 hf).1 x hx))
    simp [hne]
  | case6 fuel a as b bs hc ih =>
    have ih := ih (by simp only [List.length_cons] at h ⊢; omega) hf.of_cons hg
    simp only [List.filterMap_cons, Joined.onlyLeft]
    rw [ih, List.filter_cons_of_pos]
    refine List.all_eq_true.2 fun y hy => ?_
    exact decide_eq_true (ne_head ((hcmp a b).symm.trans hc) hg y hy)
  | case7 fuel a as b bs hc ih =>
    have ih := ih (by simp only [List.length_cons] at h ⊢; omega) hf hg.of_cons
    have hlt : compare (g b) (f a) = .lt := Std.OrientedCmp.gt_iff_lt.1 ((hcmp a b).symm.trans hc)
    simp only [List.filterMap_cons, Joined.onlyLeft]
    rw [ih]
    refine List.filter_congr fun x hx => ?_
    have hne : f x ≠ g b := fun he => ne_head hlt hf x hx he.symm
    simp [hne]

/-- Taken alone from the right: what has no namesake on the left. -/
theorem onlyRight_eq (hcmp : ∀ a b, cmp a b = compare (f a) (g b)) (fuel : ℕ) (as : List α) (bs : List β)
    (h : as.length + bs.length ≤ fuel) (hf : Ascending f as) (hg : Ascending g bs) :
    (steps cmp fuel as bs).filterMap Joined.onlyRight = bs.filter fun b => as.all fun a => decide (f a ≠ g b) := by
  fun_induction steps cmp fuel as bs with
  | case1 as bs =>
    obtain ⟨rfl, rfl⟩ := eq_nil_of_length h
    rfl
  | case2 => rfl
  | case3 fuel a as ih =>
    have ih := ih (by simp only [List.length_cons] at h ⊢; omega) hf.of_cons hg
    simpa only [List.filterMap_cons, Joined.onlyRight, List.filter_nil] using ih
  | case4 fuel b bs ih =>
    have ih := ih (by simp only [List.length_cons] at h ⊢; omega) hf hg.of_cons
    simp only [List.filterMap_cons, Joined.onlyRight]
    rw [ih]; simp
  | case5 fuel a as b bs hc ih =>
    have ih := ih (by simp only [List.length_cons] at h; omega) hf.of_cons hg.of_cons
    have heq : f a = g b := Std.LawfulEqCmp.eq_of_compare ((hcmp a b).symm.trans hc)
    simp only [List.filterMap_cons, Joined.onlyRight]
    rw [ih, List.filter_cons_of_neg (by simp [heq])]
    refine List.filter_congr fun y hy => ?_
    have hne : f a ≠ g y := fun he => absurd (heq.symm.trans he) (ne_of_lt ((List.pairwise_cons.1 hg).1 y hy))
    simp [hne]
  | case6 fuel a as b bs hc ih =>
    have ih := ih (by simp only [List.length_cons] at h ⊢; omega) hf.of_cons hg
    simp only [List.filterMap_cons, Joined.onlyRight]
    rw [ih]
    refine List.filter_congr fun y hy => ?_
    simp [ne_head ((hcmp a b).symm.trans hc) hg y hy]
  | case7 fuel a as b bs hc ih =>
    have ih := ih (by simp only [List.length_cons] at h ⊢; omega) hf hg.of_cons
    have hlt : compare (g b) (f a) = .lt := Std.OrientedCmp.gt_iff_lt.1 ((hcmp a b).symm.trans hc)
    simp only [List.filterMap_cons, Joined.onlyRight]
    rw [ih, List.filter_cons_of_pos]
    refine List.all_eq_true.2 fun x hx => ?_
    exact decide_eq_true fun he => ne_head hlt hf x hx he.symm

end Sorted

end StorageHarvester.MergeJoin
