/-
What settling computes. The merged references of one extent come one after the other, so the meet
folded over them is the lowest common ancestor of all of them, wherever the chunks were cut. Each
directory is left with exactly what is settled at it, and the backwards pass over the tree gives
exactly what lies in its subtree alone.
-/
import StorageHarvester.Btrfs.Collect

namespace StorageHarvester.Btrfs

open Forest

/-! ## References in order -/

/-- The directories referring to an extent. -/
def nodesOf (refs : List Ref) (bytenr : Nat) : List (Option Nat) := (refs.filter fun r => r.bytenr = bytenr).map Ref.node

/-- The extents referred to: address and size. -/
def extentsOf (refs : List Ref) : Finset (Nat × Nat) := (refs.map fun r => (r.bytenr, r.pages)).toFinset

/-- What an extent adds to directory `n`. -/
def share (s : Skeleton) (refs : List Ref) (n : Nat) (extent : Nat × Nat) : Nat :=
  if s.commonOf (nodesOf refs extent.1) = some n then extent.2 * 4096 else 0

/-- All references of one extent give the same size. -/
def SameSize (refs : List Ref) : Prop := ∀ r ∈ refs, ∀ r' ∈ refs, r.bytenr = r'.bytenr → r.pages = r'.pages

theorem mem_nodesOf {refs : List Ref} {bytenr : Nat} {d : Option Nat} :
    d ∈ nodesOf refs bytenr ↔ ∃ r ∈ refs, r.bytenr = bytenr ∧ r.node = d := by
  simp [nodesOf, and_assoc]

theorem mem_extentsOf {refs : List Ref} {e : Nat × Nat} : e ∈ extentsOf refs ↔ ∃ r ∈ refs, (r.bytenr, r.pages) = e := by
  simp [extentsOf]

theorem bytenr_le {a b : Ref} (h : Ref.lt b a = false) : a.bytenr ≤ b.bytenr := by
  by_contra hc
  have : Ref.lt b a = true := by simp [Ref.lt, show b.bytenr < a.bytenr by omega]
  rw [h] at this; cases this

theorem nodesOf_concat (refs : List Ref) (next : Ref) (bytenr : Nat) :
    nodesOf (refs ++ [next]) bytenr = nodesOf refs bytenr ++ if next.bytenr = bytenr then [next.node] else [] := by
  unfold nodesOf
  rw [List.filter_append, List.map_append]
  congr 1
  by_cases h : next.bytenr = bytenr <;> simp [h]

/-- The share of an extent the next reference is not to. -/
theorem share_concat {s : Skeleton} {refs : List Ref} {next : Ref} {n : Nat} {e : Nat × Nat} (h : next.bytenr ≠ e.1) :
    share s (refs ++ [next]) n e = share s refs n e := by
  unfold share
  rw [nodesOf_concat, if_neg h, List.append_nil]

theorem commonOf_concat (s : Skeleton) {l : List (Option Nat)} (hl : l ≠ []) (d : Option Nat) :
    s.commonOf (l ++ [d]) = s.common (s.commonOf l) d := by
  cases l with
  | nil => exact absurd rfl hl
  | cons x l => simp [Skeleton.commonOf]

section Next

variable {seen : List Ref} {current next : Ref}

/-- An extent referred to again is the same extent. -/
theorem extentsOf_again (hcurrent : current ∈ seen) (hsame : SameSize (seen ++ [next])) (he : current.bytenr = next.bytenr) :
    extentsOf (seen ++ [next]) = extentsOf seen := by
  have hpages : next.pages = current.pages := hsame next (by simp) current (by simp [hcurrent]) he.symm
  ext e
  simp only [mem_extentsOf, List.mem_append, List.mem_singleton, or_and_right, exists_or, exists_eq_left]
  refine ⟨fun hx => hx.elim id fun hx => ⟨current, hcurrent, ?_⟩, .inl⟩
  rw [← hx, he, hpages]

/-- An extent at the address of the current one is that one. -/
theorem extent_at (hcurrent : current ∈ seen) (hsame : SameSize seen) {e : Nat × Nat} (hm : e ∈ extentsOf seen)
    (hb : e.1 = current.bytenr) : e = (current.bytenr, current.pages) := by
  obtain ⟨r, hr, rfl⟩ := mem_extentsOf.1 hm
  rw [show r.bytenr = current.bytenr from hb, hsame r hr current hcurrent hb]

/-- The first reference to an extent. -/
theorem nodesOf_new (hlt : ∀ r ∈ seen, r.bytenr < next.bytenr) : nodesOf (seen ++ [next]) next.bytenr = [next.node] := by
  rw [nodesOf_concat, if_pos rfl]
  have hnil : nodesOf seen next.bytenr = [] := by
    rw [List.eq_nil_iff_forall_not_mem]
    intro d hd
    obtain ⟨r, hr, hrb, -⟩ := mem_nodesOf.1 hd
    have := hlt r hr; omega
  rw [hnil, List.nil_append]

theorem extentsOf_new (hlt : ∀ r ∈ seen, r.bytenr < next.bytenr) :
    (extentsOf (seen ++ [next])).erase (next.bytenr, next.pages) = extentsOf seen := by
  have hnew : (next.bytenr, next.pages) ∉ extentsOf seen := fun hm => by
    obtain ⟨r, hr, he'⟩ := mem_extentsOf.1 hm
    have := hlt r hr
    rw [Prod.mk.injEq] at he'; omega
  have hins : extentsOf (seen ++ [next]) = insert (next.bytenr, next.pages) (extentsOf seen) := by
    ext e
    simp only [mem_extentsOf, List.mem_append, List.mem_singleton, or_and_right, exists_or, exists_eq_left,
      Finset.mem_insert]
    rw [or_comm, eq_comm]
  rw [hins, Finset.erase_insert hnew]

end Next

/-! ## Settling in order -/

/-- What has been settled when the references `seen` were popped, on top of the bytes `base`. The
extent `current` is not settled yet. -/
structure Seen (s : Skeleton) (base : Nat → Nat) (seen : List Ref) (m : Merging) (current : Ref) : Prop where
  atExtent : m.current = some current
  mem : current ∈ seen
  last : ∀ r ∈ seen, r.bytenr ≤ current.bytenr
  meets : m.common = s.commonOf (nodesOf seen current.bytenr)
  group : m.group ≠ [] ∧ ∀ d ∈ m.group, d ∈ nodesOf seen current.bytenr
  alone : ∀ n, m.alone n =
    (base n + ∑ e ∈ (extentsOf seen).erase (current.bytenr, current.pages), share s seen n e) % 2 ^ 64

variable {s : Skeleton} {base : Nat → Nat} {seen : List Ref} {m : Merging} {current next : Ref}

/-- Some directory of the group is the tree's whenever the references have a common ancestor. -/
theorem Seen.ours (h : Seen s base seen m current) {n : Nat} (hc : m.common = some n) :
    (m.group.any fun node => node ≠ none) = true := by
  obtain ⟨d, hd⟩ := List.exists_mem_of_ne_nil _ h.group.1
  rw [List.any_eq_true]
  refine ⟨d, hd, ?_⟩
  rw [h.meets] at hc
  have habove := ((s.aboveOpt_commonOf n _).1 (by rw [hc]; exact .refl)).2 d (h.group.2 d hd)
  cases d with
  | none => exact habove.elim
  | some i => simp

/-- Settling the current extent adds its share everywhere. -/
theorem Seen.settle (h : Seen s base seen m current) (n : Nat) :
    (m.settle s current).alone n = (base n + ∑ e ∈ extentsOf seen, share s seen n e) % 2 ^ 64 := by
  have hmem : (current.bytenr, current.pages) ∈ extentsOf seen := mem_extentsOf.2 ⟨current, h.mem, rfl⟩
  rw [← Finset.sum_erase_add _ _ hmem, ← Nat.add_assoc]
  unfold Merging.settle share
  simp only
  rw [← h.meets]
  cases hc : m.common with
  | none =>
    have hsame : (if (m.group.any fun node => decide (node ≠ none)) = true then addAt m.alone none (current.pages * 4096)
        else m.alone) = m.alone := by split <;> rfl
    rw [hsame, if_neg (by simp), Nat.add_zero]
    exact h.alone n
  | some i =>
    rw [if_pos (h.ours hc), addAt_apply, h.alone n, mod_add_mod]
    split <;> rfl

theorem settle_frame (s : Skeleton) (m : Merging) (current : Ref) : (m.settle s current).group = [] := rfl

/-- The first reference. -/
theorem Seen.first (s : Skeleton) (m : Merging) (hc : m.current = none) (hg : m.group = []) (next : Ref)
    (hb : ∀ n, m.alone n = base n % 2 ^ 64) : Seen s base [next] (m.visit s next) next := by
  unfold Merging.visit
  rw [hc]
  have hnodes : nodesOf [next] next.bytenr = [next.node] := by simp [nodesOf]
  refine ⟨rfl, by simp, by simp, ?_, ⟨by simp, fun d hd => ?_⟩, fun n => ?_⟩
  · simp only [hnodes]; rfl
  · rw [hnodes]
    simpa [hg] using hd
  · simp [extentsOf, hb n]

/-- One more reference. -/
theorem Seen.visit (h : Seen s base seen m current) (hs : ∀ r ∈ seen, r.bytenr ≤ next.bytenr)
    (hsame : SameSize (seen ++ [next])) :
    ∃ current', Seen s base (seen ++ [next]) (m.visit s next) current' := by
  unfold Merging.visit
  rw [h.atExtent]
  by_cases he : current.bytenr = next.bytenr
  · -- another reference to the current extent
    have hne : nodesOf seen current.bytenr ≠ [] := List.ne_nil_of_mem (mem_nodesOf.2 ⟨current, h.mem, rfl, rfl⟩)
    have hnodes : nodesOf (seen ++ [next]) current.bytenr = nodesOf seen current.bytenr ++ [next.node] := by
      rw [nodesOf_concat, if_pos he.symm]
    have hextents := extentsOf_again h.mem hsame he
    refine ⟨current, ?_⟩
    simp only [if_pos he]
    refine ⟨rfl, by simp [h.mem], fun r hr => ?_, ?_, ⟨?_, fun d hd => ?_⟩, fun n => ?_⟩
    · rcases List.mem_append.1 hr with hr | hr
      · exact h.last r hr
      · rw [List.mem_singleton.1 hr, he]
    · rw [hnodes, commonOf_concat s hne, ← h.meets]
    · have := h.group.1
      simp only
      split <;> simp [this]
    · rw [hnodes, List.mem_append]
      simp only at hd
      split at hd
      · rcases List.mem_append.1 hd with hd | hd
        · exact .inl (h.group.2 d hd)
        · exact .inr hd
      · exact .inl (h.group.2 d hd)
    · rw [hextents]
      refine (h.alone n).trans ?_
      congr 2
      refine Finset.sum_congr rfl fun e hm => (share_concat fun hx => ?_).symm
      -- an extent at the same address is the current one
      obtain ⟨hne', hm⟩ := Finset.mem_erase.1 hm
      exact hne' (extent_at h.mem (fun r hr r' hr' => hsame r (by simp [hr]) r' (by simp [hr'])) hm (hx.symm.trans he.symm))
  · -- the current extent is complete
    have hlt : ∀ r ∈ seen, r.bytenr < next.bytenr := fun r hr => by
      have := h.last r hr; have := hs current h.mem; omega
    have hnodes := nodesOf_new hlt
    have hextents := extentsOf_new hlt
    refine ⟨next, ?_⟩
    simp only [if_neg he]
    refine ⟨rfl, by simp, fun r hr => ?_, ?_, ⟨by simp, fun d hd => ?_⟩, fun n => ?_⟩
    · rcases List.mem_append.1 hr with hr | hr
      · exact Nat.le_of_lt (hlt r hr)
      · rw [List.mem_singleton.1 hr]
    · simp only [hnodes]; rfl
    · rw [hnodes]
      simpa [settle_frame] using hd
    · rw [hextents]
      refine (h.settle n).trans ?_
      congr 2
      refine Finset.sum_congr rfl fun e hm => (share_concat fun hx => ?_).symm
      obtain ⟨r, hr, rfl⟩ := mem_extentsOf.1 hm
      have := hlt r hr
      simp only at hx; omega

/-- All references popped, in order. -/
theorem settle_all (s : Skeleton) (m : Merging) (hc : m.current = none) (hg : m.group = []) (hb : ∀ n, m.alone n = base n % 2 ^ 64)
    {refs : List Ref} (hs : refs.Pairwise fun a b => Ref.lt b a = false) (hsame : SameSize refs) (n : Nat) :
    ((refs.foldl (Merging.visit s) m).close s).alone n = (base n + ∑ e ∈ extentsOf refs, share s refs n e) % 2 ^ 64 := by
  have hrun : ∀ (rest seen : List Ref) (m : Merging) (current : Ref), refs = seen ++ rest → Seen s base seen m current →
      ∃ current', Seen s base refs (rest.foldl (Merging.visit s) m) current' := by
    intro rest
    induction rest with
    | nil =>
      intro seen m current hrefs h
      rw [List.append_nil] at hrefs
      subst hrefs; exact ⟨current, h⟩
    | cons next rest ih =>
      intro seen m current hrefs h
      have hle : ∀ r ∈ seen, r.bytenr ≤ next.bytenr := fun r hr =>
        bytenr_le ((List.pairwise_append.1 (hrefs ▸ hs)).2.2 r hr next (List.mem_cons_self ..))
      have hsub : SameSize (seen ++ [next]) := fun r hr r' hr' => by
        have hin : ∀ x ∈ seen ++ [next], x ∈ refs := fun x hx => by
          rw [hrefs]; simp only [List.mem_append, List.mem_cons, List.not_mem_nil, or_false] at hx ⊢; tauto
        exact hsame r (hin r hr) r' (hin r' hr')
      obtain ⟨current', h'⟩ := h.visit hle hsub
      exact ih (seen ++ [next]) _ current' (by rw [hrefs]; simp) h'
  cases refs with
  | nil =>
    rw [List.foldl_nil, Merging.close, hc]
    simp [extentsOf, hb n]
  | cons first rest =>
    obtain ⟨current, h⟩ := hrun rest [first] (m.visit s first) first rfl (Seen.first s m hc hg first hb)
    rw [List.foldl_cons, Merging.close, h.atExtent]
    exact h.settle n

end StorageHarvester.Btrfs
