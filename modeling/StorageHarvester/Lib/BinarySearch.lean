/-
Binary search by a comparison, as `slice::binary_search_by` documents it: a probe answers
`lt` when the element is before what is looked for. On a list whose probes are sorted
(`lt … lt, eq?, gt … gt`) it finds the one `eq` element if there is one, and else the place that
keeps the list sorted.
-/
import Mathlib.Algebra.BigOperators.Group.Finset.Piecewise
import Mathlib.Algebra.Order.BigOperators.Group.Finset
import Mathlib.Algebra.Order.Ring.Int
import Mathlib.Data.List.Dedup
import Mathlib.Data.List.GetD
import Mathlib.Data.List.Perm.Subperm
import Mathlib.Data.List.Sort
import Mathlib.Tactic.Common

namespace StorageHarvester

/-- `Ok(at)` for a match, `Err(at)` for where one would be inserted. -/
inductive Found where
  | ok (at_ : Nat)
  | err (at_ : Nat)
  deriving DecidableEq, Repr

/-- `slice::binary_search_by` on the window of `size` elements from `left`. -/
def searchWindow {α : Type*} (probe : α → Ordering) (l : List α) (left : Nat) : Nat → Nat → Found
  | 0, _ => .err left
  | fuel + 1, size =>
    if size = 0 then .err left
    else
      let mid := left + size / 2
      match l[mid]? with
      | none => .err left
      | some x =>
        match probe x with
        | .eq => .ok mid
        | .lt => searchWindow probe l (mid + 1) fuel (size - size / 2 - 1)
        | .gt => searchWindow probe l left fuel (size / 2)

def binarySearchBy {α : Type*} (l : List α) (probe : α → Ordering) : Found :=
  searchWindow probe l 0 l.length l.length

/-- The probes of a list in order: everything before an element that does not answer `gt` answers
`lt`, and everything after one that does not answer `lt` answers `gt`. -/
def Probed {α : Type*} (l : List α) (probe : α → Ordering) : Prop :=
  l.Pairwise fun x y => (probe y ≠ .gt → probe x = .lt) ∧ (probe x ≠ .lt → probe y = .gt)

namespace Probed

variable {α : Type*} {l : List α} {probe : α → Ordering}

theorem before (h : Probed l probe) {i j : Nat} (hij : i < j) {x y : α} (hx : l[i]? = some x) (hy : l[j]? = some y)
    (hp : probe y ≠ .gt) : probe x = .lt := by
  obtain ⟨hi, rfl⟩ := List.getElem?_eq_some_iff.1 hx
  obtain ⟨hj, rfl⟩ := List.getElem?_eq_some_iff.1 hy
  exact ((List.pairwise_iff_getElem.1 h) i j hi hj hij).1 hp

theorem after (h : Probed l probe) {i j : Nat} (hij : i < j) {x y : α} (hx : l[i]? = some x) (hy : l[j]? = some y)
    (hp : probe x ≠ .lt) : probe y = .gt := by
  obtain ⟨hi, rfl⟩ := List.getElem?_eq_some_iff.1 hx
  obtain ⟨hj, rfl⟩ := List.getElem?_eq_some_iff.1 hy
  exact ((List.pairwise_iff_getElem.1 h) i j hi hj hij).2 hp

end Probed

section Search

variable {α : Type*} {probe : α → Ordering} {l : List α}

/-- What a search of a window answers, when everything left of the window is before and
everything right of it after what is looked for. -/
theorem searchWindow_spec (h : Probed l probe) :
    ∀ (fuel left size : Nat), size ≤ fuel → left + size ≤ l.length →
      (∀ i x, l[i]? = some x → i < left → probe x = .lt) →
      (∀ i x, l[i]? = some x → left + size ≤ i → probe x = .gt) →
      match searchWindow probe l left fuel size with
      | .ok at_ => ∃ x, l[at_]? = some x ∧ probe x = .eq
      | .err at_ => at_ ≤ l.length ∧ (∀ i x, l[i]? = some x → i < at_ → probe x = .lt) ∧
          ∀ i x, l[i]? = some x → at_ ≤ i → probe x = .gt
  | 0, left, size, hf, hle, hl, hr => by
    obtain rfl : size = 0 := by omega
    exact ⟨by simpa using hle, hl, fun i x hi h => hr i x hi (by omega)⟩
  | fuel + 1, left, size, hf, hle, hl, hr => by
    by_cases h0 : size = 0
    · subst h0
      exact ⟨by simpa using hle, hl, fun i x hi h => hr i x hi (by omega)⟩
    · rw [searchWindow, if_neg h0]
      have hmid : left + size / 2 < l.length := by omega
      have hget : l[left + size / 2]? = some l[left + size / 2] := List.getElem?_eq_getElem hmid
      simp only [hget]
      cases hp : probe l[left + size / 2] with
      | eq => exact ⟨_, hget, hp⟩
      | lt =>
        refine searchWindow_spec h fuel _ _ (by omega) (by omega) (fun i x hi hlt => ?_) (fun i x hi hge => ?_)
        · by_cases him : i = left + size / 2
          · subst him; rw [hget] at hi; cases hi; exact hp
          · exact h.before (by omega) hi hget (by simp [hp])
        · exact hr i x hi (by omega)
      | gt =>
        refine searchWindow_spec h fuel _ _ (by omega) (by omega) hl (fun i x hi hge => ?_)
        by_cases him : i = left + size / 2
        · subst him; rw [hget] at hi; cases hi; exact hp
        · exact h.after (by omega) hget hi (by simp [hp])

/-- A match is an element the probe answers `eq` for. -/
theorem binarySearchBy_ok {at_ : Nat} (h : binarySearchBy l probe = .ok at_) :
    ∃ x, l[at_]? = some x ∧ probe x = .eq := by
  have key : ∀ (fuel left size : Nat), searchWindow probe l left fuel size = .ok at_ →
      ∃ x, l[at_]? = some x ∧ probe x = .eq := by
    intro fuel
    induction fuel with
    | zero => intro left size h; simp [searchWindow] at h
    | succ fuel ih =>
      intro left size h
      rw [searchWindow] at h
      split at h
      · cases h
      · simp only at h
        split at h
        · cases h
        · rename_i x hx
          split at h
          · rename_i hp; cases h; exact ⟨x, hx, hp⟩
          · exact ih _ _ h
          · exact ih _ _ h
  exact key _ _ _ h

theorem binarySearchBy_spec (h : Probed l probe) :
    match binarySearchBy l probe with
    | .ok at_ => ∃ x, l[at_]? = some x ∧ probe x = .eq
    | .err at_ => at_ ≤ l.length ∧ (∀ i x, l[i]? = some x → i < at_ → probe x = .lt) ∧
        ∀ i x, l[i]? = some x → at_ ≤ i → probe x = .gt :=
  searchWindow_spec h _ _ _ (Nat.le_refl _) (by simp) (by simp)
    (fun i x hi hge => by have := (List.getElem?_eq_some_iff.1 hi).1; omega)

/-- On a list in order the search finds an element that is there. -/
theorem binarySearchBy_mem (h : Probed l probe) {i : Nat} {x : α} (hi : l[i]? = some x) (hp : probe x = .eq) :
    binarySearchBy l probe = .ok i := by
  have hs := binarySearchBy_spec h
  cases hb : binarySearchBy l probe with
  | ok j =>
    rw [hb] at hs
    obtain ⟨y, hy, hpy⟩ := hs
    rcases Nat.lt_trichotomy i j with hij | rfl | hij
    · have := h.before hij hi hy (by simp [hpy]); rw [hp] at this; cases this
    · rfl
    · have := h.before hij hy hi (by simp [hp]); rw [hpy] at this; cases this
  | err j =>
    rw [hb] at hs
    obtain ⟨-, hlt, hgt⟩ := hs
    rcases Nat.lt_or_ge i j with hij | hij
    · have := hlt i x hi hij; rw [hp] at this; cases this
    · have := hgt i x hi hij; rw [hp] at this; cases this

end Search

end StorageHarvester
