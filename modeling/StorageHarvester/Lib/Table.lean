/-
Finite tables: association lists that hold no key twice. Lookup, insertion, removal and a pass
that rewrites or drops every entry, what each does to lookup, and how each changes a sum over the
entries.
-/
import Mathlib.Algebra.BigOperators.Group.Finset.Piecewise
import Mathlib.Algebra.Order.BigOperators.Group.Finset
import Mathlib.Algebra.Order.Ring.Int
import Mathlib.Data.List.Dedup
import Mathlib.Data.List.GetD
import Mathlib.Data.List.Perm.Subperm
import Mathlib.Data.List.Sort
import Mathlib.Tactic.Common

namespace StorageHarvester

/-- A finite map from `κ` to `ν`, as its entries in some order. -/
@[ext] structure Table (κ ν : Type*) where
  entries : List (κ × ν)
  nodup : (entries.map Prod.fst).Nodup

namespace Table

variable {κ ν M : Type*} [DecidableEq κ]

/-! ## Operations -/

def empty : Table κ ν := ⟨[], List.nodup_nil⟩

instance : Inhabited (Table κ ν) := ⟨empty⟩

instance [DecidableEq ν] : DecidableEq (Table κ ν) := fun _ _ => decidable_of_iff _ Table.ext_iff.symm

def get (t : Table κ ν) (k : κ) : Option ν := (t.entries.find? fun e => e.1 = k).map Prod.snd

def del (t : Table κ ν) (k : κ) : Table κ ν :=
  ⟨t.entries.filter fun e => e.1 ≠ k, t.nodup.sublist ((List.filter_sublist ..).map _)⟩

/-- Binds `k` to `v`, in place of what it was bound to. -/
def put (t : Table κ ν) (k : κ) (v : ν) : Table κ ν :=
  ⟨(k, v) :: (t.del k).entries, by
    rw [List.map_cons, List.nodup_cons]
    refine ⟨fun h => ?_, (t.del k).nodup⟩
    obtain ⟨e, he, hk⟩ := List.mem_map.1 h
    simp only [del, List.mem_filter] at he
    simp [hk] at he⟩

/-- Binds `k` to `v` unless it is bound already. -/
def putNew (t : Table κ ν) (k : κ) (v : ν) : Table κ ν :=
  match t.get k with
  | some _ => t
  | none => t.put k v

/-- Rewrites every entry's value, dropping the entries `f` gives none for. -/
def retain (f : κ → ν → Option ν) (t : Table κ ν) : Table κ ν :=
  ⟨t.entries.filterMap fun e => (f e.1 e.2).map (e.1, ·), by
    have hsub : ∀ l : List (κ × ν),
        ((l.filterMap fun e => (f e.1 e.2).map (e.1, ·)).map Prod.fst).Sublist (l.map Prod.fst) := by
      intro l
      induction l with
      | nil => exact List.Sublist.slnil
      | cons e l ih =>
        rw [List.filterMap_cons]
        cases f e.1 e.2 with
        | none => exact ih.cons _
        | some v => exact ih.cons_cons _
    exact t.nodup.sublist (hsub t.entries)⟩

/-- The sum of `f` over the entries. -/
def total [AddCommMonoid M] (t : Table κ ν) (f : κ → ν → M) : M := (t.entries.map fun e => f e.1 e.2).sum

/-- A table from entries, the last one winning where a key comes twice. -/
def ofList (l : List (κ × ν)) : Table κ ν := l.foldl (fun t e => t.put e.1 e.2) empty

/-! ## Lookup -/

theorem find?_eq_some {l : List (κ × ν)} (hn : (l.map Prod.fst).Nodup) {k : κ} {v : ν} :
    (l.find? fun e => e.1 = k).map Prod.snd = some v ↔ (k, v) ∈ l := by
  induction l with
  | nil => simp
  | cons e l ih =>
    rw [List.map_cons, List.nodup_cons] at hn
    by_cases he : e.1 = k
    · subst he
      rw [List.find?_cons_of_pos (by simp)]
      constructor
      · intro h; cases h; exact List.mem_cons_self ..
      · intro h
        rcases List.mem_cons.1 h with h | h
        · rw [← h]; rfl
        · exact absurd (List.mem_map_of_mem (f := Prod.fst) h) hn.1
    · rw [List.find?_cons_of_neg (by simpa using he), ih hn.2, List.mem_cons]
      constructor
      · exact .inr
      · rintro (rfl | h)
        · exact absurd rfl he
        · exact h

theorem get_eq_some {t : Table κ ν} {k : κ} {v : ν} : t.get k = some v ↔ (k, v) ∈ t.entries :=
  find?_eq_some t.nodup

theorem get_eq_none {t : Table κ ν} {k : κ} : t.get k = none ↔ ∀ e ∈ t.entries, e.1 ≠ k := by
  unfold get; simp [List.find?_eq_none]

/-- Tables are determined by lookup when it comes to membership. -/
theorem get_congr {t u : Table κ ν} {k : κ} (h : ∀ v, (k, v) ∈ t.entries ↔ (k, v) ∈ u.entries) :
    t.get k = u.get k := by
  apply Option.ext
  intro v
  rw [get_eq_some, get_eq_some, h]

@[simp] theorem get_empty (k : κ) : (empty : Table κ ν).get k = none := rfl

theorem get_del (t : Table κ ν) (k k' : κ) : (t.del k).get k' = if k' = k then none else t.get k' := by
  split
  · rename_i h
    rw [get_eq_none]
    intro e he
    simp only [del, List.mem_filter, decide_eq_true_eq] at he
    exact h ▸ he.2
  · rename_i h
    refine get_congr fun v => ?_
    simp [del, h]

theorem get_put (t : Table κ ν) (k k' : κ) (v : ν) : (t.put k v).get k' = if k' = k then some v else t.get k' := by
  split
  · rename_i h
    subst h
    exact get_eq_some.2 (List.mem_cons_self ..)
  · rename_i h
    rw [show t.get k' = (t.del k).get k' by rw [get_del, if_neg h]]
    refine get_congr fun w => ?_
    simp [put, h]

@[simp] theorem get_put_self (t : Table κ ν) (k : κ) (v : ν) : (t.put k v).get k = some v := by
  rw [get_put, if_pos rfl]

theorem putNew_of_none {t : Table κ ν} {k : κ} (h : t.get k = none) (v : ν) : t.putNew k v = t.put k v := by
  rw [putNew, h]

theorem get_putNew (t : Table κ ν) (k k' : κ) (v : ν) :
    (t.putNew k v).get k' = (t.get k').or (if k' = k then some v else none) := by
  unfold putNew
  split
  · rename_i w h
    by_cases hk : k' = k
    · subst hk; simp [h]
    · simp [hk]
  · rename_i h
    rw [get_put]
    by_cases hk : k' = k
    · subst hk; simp [h]
    · simp [hk]

theorem get_retain (f : κ → ν → Option ν) (t : Table κ ν) (k : κ) :
    (t.retain f).get k = (t.get k).bind (f k) := by
  apply Option.ext
  intro v
  rw [get_eq_some, Option.bind_eq_some_iff]
  simp only [retain, List.mem_filterMap, Option.map_eq_some_iff]
  constructor
  · rintro ⟨e, he, w, hw, heq⟩
    cases heq
    exact ⟨e.2, get_eq_some.2 he, hw⟩
  · rintro ⟨w, hw, hf⟩
    exact ⟨(k, w), get_eq_some.1 hw, v, hf, rfl⟩

theorem get_foldl_put (l : List (κ × ν)) (t : Table κ ν) (k : κ) :
    (l.foldl (fun t e => t.put e.1 e.2) t).get k =
      ((l.reverse.find? fun e => e.1 = k).map Prod.snd).or (t.get k) := by
  induction l generalizing t with
  | nil => simp
  | cons e l ih =>
    rw [List.foldl_cons, ih, get_put, List.reverse_cons, List.find?_append, List.find?_singleton]
    cases h : l.reverse.find? fun e => e.1 = k with
    | some x => simp
    | none =>
      by_cases hk : e.1 = k
      · subst hk; simp
      · simp [hk, Ne.symm hk]

/-- All bindings of a table put into another. -/
theorem get_foldl_put_entries {μ : Type*} (f : ν → μ) (u : Table κ ν) (t : Table κ μ) (k : κ) :
    (u.entries.foldl (fun t e => t.put e.1 (f e.2)) t).get k = ((u.get k).map f).or (t.get k) := by
  have hfold : ∀ (l : List (κ × ν)) (t : Table κ μ), (l.map Prod.fst).Nodup →
      (l.foldl (fun t e => t.put e.1 (f e.2)) t).get k = (((l.find? fun e => e.1 = k).map Prod.snd).map f).or (t.get k) := by
    intro l
    induction l with
    | nil => exact fun t _ => rfl
    | cons e l ih =>
      intro t hn
      rw [List.map_cons, List.nodup_cons] at hn
      rw [List.foldl_cons, ih _ hn.2, get_put]
      by_cases hk : k = e.1
      · subst hk
        have hnone : l.find? (fun x => x.1 = e.1) = none := by
          rw [List.find?_eq_none]
          intro x hx hxe
          exact hn.1 (List.mem_map.2 ⟨x, hx, of_decide_eq_true hxe⟩)
        rw [if_pos rfl, hnone, List.find?_cons_of_pos (by simp)]
        rfl
      · rw [if_neg hk, List.find?_cons_of_neg (by simpa using Ne.symm hk)]
  exact hfold u.entries t u.nodup

/-- Every binding of `ofList` is one of its entries. -/
theorem mem_of_get_ofList {l : List (κ × ν)} {k : κ} {v : ν} (h : (ofList l).get k = some v) : (k, v) ∈ l := by
  unfold ofList at h
  rw [get_foldl_put, get_empty, Option.or_none, Option.map_eq_some_iff] at h
  obtain ⟨e, he, rfl⟩ := h
  have hk : e.1 = k := by simpa using List.find?_some he
  have hm := List.mem_of_find?_eq_some he
  rw [List.mem_reverse] at hm
  rw [← hk]; exact hm

/-- `ofList` binds every key it is given. -/
theorem get_ofList_isSome {l : List (κ × ν)} {k : κ} {v : ν} (h : (k, v) ∈ l) : ∃ w, (ofList l).get k = some w := by
  cases hg : (ofList l).get k with
  | some w => exact ⟨w, rfl⟩
  | none =>
    unfold ofList at hg
    rw [get_foldl_put, get_empty, Option.or_none, Option.map_eq_none_iff, List.find?_eq_none] at hg
    exact absurd (by simp) (hg (k, v) (List.mem_reverse.2 h))

theorem get_ofList_append (l l' : List (κ × ν)) (k : κ) :
    (ofList (l ++ l')).get k = ((ofList l').get k).or ((ofList l).get k) := by
  unfold ofList
  rw [List.foldl_append, get_foldl_put l', get_foldl_put l', get_empty, Option.or_none]

theorem get_ofList_eq_none {l : List (κ × ν)} {k : κ} (h : ∀ e ∈ l, e.1 ≠ k) :
    (ofList l).get k = none := by
  cases hget : (ofList l).get k with
  | none => rfl
  | some v => exact absurd rfl (h _ (mem_of_get_ofList hget))

/-- Of values under one key the last stays. -/
theorem get_ofList_const (k : κ) (values : List ν) :
    (ofList (values.map fun v => (k, v))).get k = values.getLast? := by
  unfold ofList
  rw [get_foldl_put, get_empty, Option.or_none, ← List.map_reverse, List.find?_map]
  rw [← List.head?_reverse]
  cases values.reverse with
  | nil => rfl
  | cons v rest => simp

/-- Where each one's values are under its own key, a key has those of its own. -/
theorem get_ofList_flatMap {α : Type*} {key : α → κ} {f : α → List (κ × ν)} (hf : ∀ a, ∀ e ∈ f a, e.1 = key a) (k : κ) :
    ∀ {l : List α}, (l.map key).Nodup →
      (ofList (l.flatMap f)).get k = (l.find? fun a => key a = k).bind fun a => (ofList (f a)).get k
  | [], _ => rfl
  | a :: l, hn => by
    obtain ⟨hnew, hn⟩ := List.nodup_cons.1 hn
    rw [List.flatMap_cons, get_ofList_append, get_ofList_flatMap hf k hn]
    by_cases hk : key a = k
    · have hnone : (l.find? fun a => key a = k) = none := by
        refine List.find?_eq_none.2 fun b hb hbk => hnew ?_
        rw [hk, ← of_decide_eq_true hbk]
        exact List.mem_map_of_mem hb
      rw [hnone, List.find?_cons_of_pos (by simpa using hk)]
      rfl
    · rw [List.find?_cons_of_neg (by simpa using hk), get_ofList_eq_none fun e he hek => hk ((hf a e he).symm.trans hek), Option.or_none]

/-! ## Sums -/

section Sums

variable [AddCommMonoid M]

omit [DecidableEq κ] in
@[simp] theorem total_empty (f : κ → ν → M) : (empty : Table κ ν).total f = 0 := rfl

theorem total_congr {t : Table κ ν} {f g : κ → ν → M} (h : ∀ k v, t.get k = some v → f k v = g k v) :
    t.total f = t.total g := by
  unfold total
  congr 1
  exact List.map_congr_left fun e he => h e.1 e.2 (get_eq_some.2 he)

omit [DecidableEq κ] in
theorem total_add (t : Table κ ν) (f g : κ → ν → M) :
    t.total (fun k v => f k v + g k v) = t.total f + t.total g := by
  unfold total
  induction t.entries with
  | nil => simp
  | cons e l ih => simp only [List.map_cons, List.sum_cons, ih]; exact add_add_add_comm ..

theorem total_zero {t : Table κ ν} {f : κ → ν → M} (h : ∀ k v, t.get k = some v → f k v = 0) : t.total f = 0 := by
  rw [total_congr h]
  unfold total
  exact List.sum_eq_zero (by simp)

/-- Removing a key takes its share out of a sum. -/
theorem total_del (t : Table κ ν) (k : κ) (f : κ → ν → M) :
    (t.del k).total f + (t.get k).elim 0 (f k) = t.total f := by
  obtain ⟨l, hn⟩ := t
  unfold total del get
  simp only
  induction l with
  | nil => simp
  | cons e l ih =>
    rw [List.map_cons, List.nodup_cons] at hn
    by_cases he : e.1 = k
    · subst he
      have hfil : l.filter (fun x => decide (x.1 ≠ e.1)) = l := by
        rw [List.filter_eq_self]
        intro x hx
        simp only [decide_eq_true_eq]
        exact fun h => hn.1 (h ▸ List.mem_map_of_mem hx)
      rw [List.filter_cons_of_neg (by simp), hfil, List.find?_cons_of_pos (by simp)]
      simp [add_comm]
    · rw [List.filter_cons_of_pos (by simpa using he), List.find?_cons_of_neg (by simpa using he), List.map_cons,
        List.map_cons, List.sum_cons, List.sum_cons, add_assoc, ih hn.2]

/-- Binding a key puts its new share in place of the old one. -/
theorem total_put (t : Table κ ν) (k : κ) (v : ν) (f : κ → ν → M) :
    (t.put k v).total f + (t.get k).elim 0 (f k) = t.total f + f k v := by
  have h : (t.put k v).total f = f k v + (t.del k).total f := rfl
  rw [h, add_assoc, total_del, add_comm]

/-- Binding a fresh key adds its share. -/
theorem total_put_of_none {t : Table κ ν} {k : κ} (h : t.get k = none) (v : ν) (f : κ → ν → M) :
    (t.put k v).total f = t.total f + f k v := by
  have := total_put t k v f
  rwa [h, Option.elim_none, add_zero] at this

/-- Binding a key that had no share so far, while the others keep theirs. -/
theorem total_put_of_zero {t : Table κ ν} {k : κ} {f g : κ → ν → M} (h0 : ∀ v, t.get k = some v → f k v = 0)
    (hfg : ∀ k' v, k' ≠ k → g k' v = f k' v) (v : ν) : (t.put k v).total g = t.total f + g k v := by
  have hput : (t.put k v).total g = g k v + (t.del k).total g := rfl
  have hdel : (t.del k).total g = (t.del k).total f := total_congr fun k' v' hget => by
    rw [get_del] at hget
    split at hget
    · cases hget
    · exact hfg k' v' ‹_›
  have hnone : (t.get k).elim 0 (f k) = 0 := by
    cases hk : t.get k with
    | none => rfl
    | some v' => exact h0 v' hk
  rw [hput, hdel, ← total_del t k f, hnone, add_zero, add_comm]

omit [DecidableEq κ] in
/-- A pass over the entries keeps the shares of what it keeps. -/
theorem total_retain (t : Table κ ν) (r : κ → ν → Option ν) (f : κ → ν → M) :
    (t.retain r).total f = t.total fun k v => (r k v).elim 0 (f k) := by
  unfold total retain
  simp only
  induction t.entries with
  | nil => simp
  | cons e l ih =>
    rw [List.filterMap_cons]
    cases hr : r e.1 e.2 with
    | none => simp [ih, hr]
    | some v => simp [ih, hr]

omit [AddCommMonoid M] in
theorem mem_shares {t : Table κ ν} {f : κ → ν → M} {k : κ} {m : M} :
    (k, m) ∈ t.entries.map (fun e => (e.1, f e.1 e.2)) ↔ (t.get k).map (f k) = some m := by
  rw [List.mem_map, Option.map_eq_some_iff]
  constructor
  · rintro ⟨e, he, heq⟩
    cases heq
    exact ⟨e.2, get_eq_some.2 he, rfl⟩
  · rintro ⟨v, hv, rfl⟩
    exact ⟨(k, v), get_eq_some.1 hv, rfl⟩

omit [DecidableEq κ] [AddCommMonoid M] in
theorem nodup_shares (t : Table κ ν) (f : κ → ν → M) : (t.entries.map fun e => (e.1, f e.1 e.2)).Nodup := by
  apply List.Nodup.of_map Prod.fst
  rw [List.map_map]
  exact t.nodup

/-- Tables with the same share for each key have the same sum. -/
theorem total_eq {μ : Type*} {t : Table κ ν} {u : Table κ μ} {f : κ → ν → M} {g : κ → μ → M}
    (h : ∀ k, (t.get k).map (f k) = (u.get k).map (g k)) : t.total f = u.total g := by
  have hperm : (t.entries.map fun e => (e.1, f e.1 e.2)).Perm (u.entries.map fun e => (e.1, g e.1 e.2)) := by
    apply (List.perm_ext_iff_of_nodup (nodup_shares t f) (nodup_shares u g)).2
    rintro ⟨k, m⟩
    rw [mem_shares, mem_shares, h]
  have hsum := (hperm.map Prod.snd).sum_eq
  rw [List.map_map, List.map_map] at hsum
  exact hsum

/-- A sum over a table is a sum over the entries it was made from. -/
theorem total_ofList {l : List (κ × ν)} (hn : (l.map Prod.fst).Nodup) (f : κ → ν → M) :
    (ofList l).total f = (l.map fun e => f e.1 e.2).sum := by
  have hfold : ∀ (l : List (κ × ν)) (t : Table κ ν), (l.map Prod.fst).Nodup → (∀ e ∈ l, t.get e.1 = none) →
      (l.foldl (fun t e => t.put e.1 e.2) t).total f = t.total f + (l.map fun e => f e.1 e.2).sum := by
    intro l
    induction l with
    | nil => intro t _ _; simp
    | cons e l ih =>
      intro t hn hf
      rw [List.map_cons, List.nodup_cons] at hn
      rw [List.foldl_cons, ih _ hn.2 fun x hx => ?_, total_put_of_none (hf e (List.mem_cons_self ..)), List.map_cons,
        List.sum_cons, add_assoc]
      have hne : x.1 ≠ e.1 := fun hk => hn.1 (hk ▸ List.mem_map_of_mem hx)
      rw [get_put, if_neg hne]
      exact hf x (List.mem_cons_of_mem _ hx)
  have h := hfold l empty hn fun _ _ => rfl
  rwa [total_empty, zero_add] at h

end Sums

end Table

end StorageHarvester
