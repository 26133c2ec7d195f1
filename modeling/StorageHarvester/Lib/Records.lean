/-
Records of the keys numbers go by, and the index over them. Records are only added at the end, and
the index names the number a key was last recorded for. A key of a live number is found under a
live number as long as the last one recorded for it lives. Where it is the first record of a key that
counts instead, `firsts` has those that do.
-/
import StorageHarvester.Lib.Table

namespace StorageHarvester.Records

variable {κ : Type*} [DecidableEq κ]

/-- The number a key was last recorded for. -/
def last (records : List (ℕ × κ)) (key : κ) : Option ℕ := (records.reverse.find? fun e => e.2 = key).map Prod.fst

/-- Every key of a live number is found under a live number. -/
def Found (live : ℕ → Prop) (records : List (ℕ × κ)) : Prop :=
  ∀ e ∈ records, live e.1 → ∃ n, last records e.2 = some n ∧ live n

theorem last_append (records added : List (ℕ × κ)) (key : κ) :
    last (records ++ added) key = (last added key).or (last records key) := by
  unfold last
  rw [List.reverse_append, List.find?_append]
  cases added.reverse.find? fun e : ℕ × κ => e.2 = key <;> rfl

theorem mem_of_last {records : List (ℕ × κ)} {key : κ} {n : ℕ} (h : last records key = some n) : (n, key) ∈ records := by
  unfold last at h
  obtain ⟨e, he, rfl⟩ := Option.map_eq_some_iff.1 h
  have hkey : e.2 = key := by simpa using List.find?_some he
  subst hkey
  exact List.mem_reverse.1 (List.mem_of_find?_eq_some he)

theorem last_of_mem {records : List (ℕ × κ)} {e : ℕ × κ} (h : e ∈ records) : ∃ n, last records e.2 = some n := by
  unfold last
  cases hf : records.reverse.find? fun x : ℕ × κ => x.2 = e.2 with
  | some x => exact ⟨x.1, rfl⟩
  | none =>
    have hne := List.find?_eq_none.1 hf e (List.mem_reverse.2 h)
    simp at hne

/-- The index after records are put into it. -/
theorem get_index (records : List (ℕ × κ)) (index : Table κ ℕ) (key : κ) :
    (records.foldl (fun index e => index.put e.2 e.1) index).get key = (last records key).or (index.get key) := by
  have h := Table.get_foldl_put (records.map Prod.swap) index key
  rw [List.foldl_map] at h
  rw [show (records.foldl (fun index e => index.put e.2 e.1) index) =
    records.foldl (fun index e => index.put e.swap.1 e.swap.2) index from rfl, h]
  unfold last
  rw [← List.map_reverse, List.find?_map, Option.map_map]
  rfl

/-- With every number live, every key is found. -/
theorem found_of_live {live : ℕ → Prop} {records : List (ℕ × κ)} (h : ∀ e ∈ records, live e.1) : Found live records := by
  intro e he _
  obtain ⟨n, hn⟩ := last_of_mem he
  exact ⟨n, hn, h _ (mem_of_last hn)⟩

/-- With live numbers added, a key of an old number is found under the old one, if that lives, or among
what was added. -/
theorem found_append {live : ℕ → Prop} {records added : List (ℕ × κ)} (hadded : ∀ e ∈ added, live e.1) :
    Found live (records ++ added) ↔
      ∀ e ∈ records, live e.1 → (∃ n, last records e.2 = some n ∧ live n) ∨ ∃ e' ∈ added, e'.2 = e.2 := by
  constructor
  · intro h e he hlive
    obtain ⟨n, hn, hl⟩ := h e (List.mem_append_left _ he) hlive
    rw [last_append] at hn
    rcases Option.or_eq_some_iff.1 hn with hn | ⟨-, hn⟩
    · exact .inr ⟨_, mem_of_last hn, rfl⟩
    · exact .inl ⟨n, hn, hl⟩
  · intro h e he hlive
    have hnew : (∃ e' ∈ added, e'.2 = e.2) → ∃ n, last (records ++ added) e.2 = some n ∧ live n := by
      rintro ⟨e', he', hkey⟩
      obtain ⟨n, hn⟩ := last_of_mem he'
      rw [hkey] at hn
      exact ⟨n, by rw [last_append, hn]; rfl, hadded _ (mem_of_last hn)⟩
    rcases List.mem_append.1 he with he | he
    · rcases h e he hlive with ⟨n, hn, hl⟩ | hadd
      · cases hlast : last added e.2 with
        | some k => exact hnew ⟨_, mem_of_last hlast, rfl⟩
        | none => exact ⟨n, by rw [last_append, hlast, hn]; rfl, hl⟩
      · exact hnew hadd
    · exact hnew ⟨e, he, rfl⟩

/-- Which numbers live matters for those recorded only. -/
theorem found_congr {live live' : ℕ → Prop} {records : List (ℕ × κ)} (h : ∀ e ∈ records, live e.1 ↔ live' e.1) :
    Found live records ↔ Found live' records := by
  refine forall₂_congr fun e he => imp_congr (h e he) (exists_congr fun n => and_congr_right fun hn => h _ (mem_of_last hn))

/-! ## First records -/

section Firsts

variable {α : Type*} (key : α → κ)

/-- The records that are the first of their key. -/
def firsts : List α → List α
  | [] => []
  | x :: records => x :: (firsts records).filter fun y => key y ≠ key x

variable {key}

theorem mem_firsts : ∀ {records : List α} {x : α}, x ∈ firsts key records ↔ records.find? (fun y => key y = key x) = some x
  | [], x => by simp [firsts]
  | y :: records, x => by
    rw [firsts, List.mem_cons, List.mem_filter, mem_firsts, List.find?_cons]
    by_cases hk : key y = key x
    · rw [decide_eq_true hk]
      simp [hk, eq_comm]
    · have hne : x ≠ y := fun h => hk (congrArg key h.symm)
      have hk' : key x ≠ key y := Ne.symm hk
      simp [hk, hk', hne]

theorem mem_of_firsts {records : List α} {x : α} (h : x ∈ firsts key records) : x ∈ records :=
  List.mem_of_find?_eq_some (mem_firsts.1 h)

/-- Every key on record has a first record. -/
theorem exists_firsts {records : List α} {x : α} (h : x ∈ records) : ∃ y ∈ firsts key records, key y = key x := by
  cases hf : records.find? fun y => key y = key x with
  | none =>
    have hne := List.find?_eq_none.1 hf x h
    simp at hne
  | some y =>
    have hkey : key y = key x := by simpa using List.find?_some hf
    refine ⟨y, mem_firsts.2 ?_, hkey⟩
    rw [hkey]
    exact hf

theorem nodup_firsts : ∀ records : List α, ((firsts key records).map key).Nodup
  | [] => List.nodup_nil
  | x :: records => by
    rw [firsts, List.map_cons, List.nodup_cons]
    refine ⟨fun hx => ?_, (nodup_firsts records).sublist (List.Sublist.map key List.filter_sublist)⟩
    obtain ⟨y, hy, hkey⟩ := List.mem_map.1 hx
    simp [hkey] at hy

/-- One more record is the first of its key or changes nothing. -/
theorem firsts_concat : ∀ (records : List α) (x : α),
    firsts key (records ++ [x]) = if (firsts key records).any (fun y => key y = key x) then firsts key records else firsts key records ++ [x]
  | [], x => rfl
  | y :: records, x => by
    rw [List.cons_append, firsts, firsts_concat records x, firsts]
    by_cases hk : key y = key x
    · have hsame : ((firsts key records).filter fun z => key z ≠ key y).any (fun z => key z = key x) = false := by
        simp [hk]
      rw [List.any_cons, decide_eq_true hk, Bool.true_or, if_pos rfl]
      split
      · rfl
      · rw [List.filter_append]
        simp [hk]
    · have hrest : ((firsts key records).filter fun z => key z ≠ key y).any (fun z => key z = key x) =
          (firsts key records).any fun z => key z = key x := by
        rw [List.any_filter]
        refine congrArg (List.any (firsts key records)) (funext fun z => ?_)
        by_cases hz : key z = key x
        · simp [hz, Ne.symm hk]
        · simp [hz]
      rw [List.any_cons, decide_eq_false hk, Bool.false_or, hrest]
      split
      · rfl
      · rw [List.filter_append, List.cons_append]
        simp [Ne.symm hk]

end Firsts

end StorageHarvester.Records
