/-
A depth-first sweep over child lists with an explicit stack, and that it reaches everything below
where it starts: when every child names its parent and parents have smaller numbers, no node is
met twice, so as many steps as there are nodes are enough.
-/
import StorageHarvester.Lib.Forest

namespace StorageHarvester.Forest

/-- The nodes a sweep pops, in order; the top of the stack is the head of the list. -/
def sweep (kids : ℕ → List ℕ) : ℕ → List ℕ → List ℕ
  | 0, _ => []
  | _, [] => []
  | fuel + 1, a :: stack => a :: sweep kids fuel ((kids a).reverse ++ stack)

/-- Child lists that follow the parent pointers among the nodes `P` holds of, below `n`. -/
structure Kids (parent : ℕ → Option ℕ) (kids : ℕ → List ℕ) (P : ℕ → Prop) (n : ℕ) : Prop where
  down : Down parent
  lt : ∀ i, P i → i < n
  kid : ∀ i, P i → ∀ c ∈ kids i, P c ∧ parent c = some i
  nodup : ∀ i, P i → (kids i).Nodup

variable {parent : ℕ → Option ℕ} {kids : ℕ → List ℕ} {P : ℕ → Prop} {n r : ℕ}

/-- The state of a sweep from `r` that has popped `seen`. -/
structure Sweeping (parent : ℕ → Option ℕ) (kids : ℕ → List ℕ) (P : ℕ → Prop) (r : ℕ) (seen stack : List ℕ) : Prop where
  nodup : (seen ++ stack).Nodup
  mem : ∀ x ∈ seen ++ stack, P x ∧ r ≤ x
  above : ∀ x ∈ seen ++ stack, x ≠ r → ∃ p ∈ seen, parent x = some p
  closed : ∀ x ∈ seen, ∀ c ∈ kids x, c ∈ seen ++ stack

theorem Sweeping.pop (hk : Kids parent kids P n) {seen stack : List ℕ} {a : ℕ}
    (h : Sweeping parent kids P r seen (a :: stack)) :
    Sweeping parent kids P r (seen ++ [a]) ((kids a).reverse ++ stack) := by
  have hperm : ((seen ++ [a]) ++ ((kids a).reverse ++ stack)).Perm ((seen ++ a :: stack) ++ kids a) := by
    have h1 : ((kids a).reverse ++ stack).Perm (stack ++ kids a) :=
      List.perm_append_comm.trans ((List.reverse_perm _).append_left _)
    have h2 := h1.append_left (seen ++ [a])
    simpa [List.append_assoc] using h2
  have ha := h.mem a (by simp)
  have hnotin : a ∉ seen := fun hs => (List.nodup_append.1 h.nodup).2.2 a hs a (List.mem_cons_self ..) rfl
  -- a child of `a` was not met before: its parent would have been popped
  have hfresh : ∀ c ∈ kids a, c ∉ seen ++ a :: stack := by
    intro c hc hm
    have hpc := (hk.kid a ha.1 c hc).2
    by_cases hcr : c = r
    · have := hk.down c a hpc; have := ha.2; omega
    · obtain ⟨p, hp, hpar⟩ := h.above c hm hcr
      rw [hpc] at hpar; cases hpar
      exact hnotin hp
  have hsub : ∀ x, x ∈ (seen ++ [a]) ++ ((kids a).reverse ++ stack) ↔ x ∈ seen ++ a :: stack ∨ x ∈ kids a := by
    intro x; rw [hperm.mem_iff, List.mem_append]
  refine ⟨?_, fun x hx => ?_, fun x hx hxr => ?_, fun x hx c hc => (hsub c).2 ?_⟩
  · rw [hperm.nodup_iff, List.nodup_append]
    exact ⟨h.nodup, hk.nodup a ha.1, fun x hx y hy hxy => hfresh y hy (hxy ▸ hx)⟩
  · rcases (hsub x).1 hx with hx | hx
    · exact h.mem x hx
    · obtain ⟨hpx, hpar⟩ := hk.kid a ha.1 x hx
      have := hk.down x a hpar
      exact ⟨hpx, by have := ha.2; omega⟩
  · rcases (hsub x).1 hx with hx | hx
    · obtain ⟨p, hp, hpar⟩ := h.above x hx hxr
      exact ⟨p, List.mem_append_left _ hp, hpar⟩
    · exact ⟨a, by simp, (hk.kid a ha.1 x hx).2⟩
  · rcases List.mem_append.1 hx with hx | hx
    · exact .inl (h.closed x hx c hc)
    · rw [List.mem_singleton] at hx; subst hx; exact .inr hc

theorem sweep_closed (hk : Kids parent kids P n) :
    ∀ (fuel : ℕ) (seen stack : List ℕ), Sweeping parent kids P r seen stack → n ≤ fuel + seen.length →
      (∀ x ∈ stack, x ∈ seen ++ sweep kids fuel stack) ∧
        ∀ x ∈ seen ++ sweep kids fuel stack, ∀ c ∈ kids x, c ∈ seen ++ sweep kids fuel stack
  | 0, seen, stack, h, hn => by
    -- as many nodes are popped as there are: the stack is empty
    have hlen : (seen ++ stack).length ≤ n := by
      have hsub : (seen ++ stack).toFinset ⊆ Finset.range n := by
        intro x hx
        rw [List.mem_toFinset] at hx
        exact Finset.mem_range.2 (hk.lt x (h.mem x hx).1)
      have := Finset.card_le_card hsub
      rwa [List.toFinset_card_of_nodup h.nodup, Finset.card_range] at this
    obtain rfl : stack = [] := by
      rw [List.length_append] at hlen
      exact List.length_eq_zero_iff.1 (by omega)
    exact ⟨by simp, by simpa [sweep] using h.closed⟩
  | fuel + 1, seen, [], h, hn => ⟨by simp, by simpa [sweep] using h.closed⟩
  | fuel + 1, seen, a :: stack, h, hn => by
    have hrec := sweep_closed hk fuel (seen ++ [a]) ((kids a).reverse ++ stack) (h.pop hk)
      (by rw [List.length_append, List.length_singleton]; omega)
    have heq : (seen ++ [a]) ++ sweep kids fuel ((kids a).reverse ++ stack) =
        seen ++ sweep kids (fuel + 1) (a :: stack) := by simp [sweep]
    rw [heq] at hrec
    refine ⟨fun x hx => ?_, hrec.2⟩
    rcases List.mem_cons.1 hx with rfl | hx
    · simp [sweep]
    · exact hrec.1 x (List.mem_append_right _ hx)

/-- Everything a sweep pops is below where it starts. -/
theorem sweep_below (hk : Kids parent kids P n) :
    ∀ (fuel : ℕ) (stack : List ℕ), (∀ x ∈ stack, P x ∧ Above parent r x) →
      ∀ x ∈ sweep kids fuel stack, P x ∧ Above parent r x
  | 0, _, _, x, hx => by simp [sweep] at hx
  | fuel + 1, [], _, x, hx => by simp [sweep] at hx
  | fuel + 1, a :: stack, h, x, hx => by
    rw [sweep] at hx
    rcases List.mem_cons.1 hx with rfl | hx
    · exact h x (List.mem_cons_self ..)
    · refine sweep_below hk fuel _ (fun y hy => ?_) x hx
      rcases List.mem_append.1 hy with hy | hy
      · obtain ⟨ha, hra⟩ := h a (List.mem_cons_self ..)
        obtain ⟨hpy, hpar⟩ := hk.kid a ha y (List.mem_reverse.1 hy)
        exact ⟨hpy, .step hpar hra⟩
      · exact h y (List.mem_cons_of_mem _ hy)

/-- A sweep from `r` pops exactly the nodes of its subtree, when every node of the subtree is
listed by its parent. -/
theorem mem_sweep (hk : Kids parent kids P n) (hr : P r)
    (hlisted : ∀ i p, P i → parent i = some p → Above parent r p → P p ∧ i ∈ kids p) (x : ℕ) :
    x ∈ sweep kids n [r] ↔ P x ∧ Above parent r x := by
  have hstart : Sweeping parent kids P r [] [r] :=
    ⟨by simp, by simp [hr], fun x hx hne => by simp at hx; exact absurd hx hne, by simp⟩
  obtain ⟨hmem, hclosed⟩ := sweep_closed hk n [] [r] hstart (by simp)
  simp only [List.nil_append] at hmem hclosed
  constructor
  · exact sweep_below hk n [r] (by simp [hr, Above.refl]) x
  · rintro ⟨hx, ha⟩
    induction ha with
    | refl => exact hmem r (by simp)
    | @step i p hp h ih =>
      obtain ⟨hpp, hl⟩ := hlisted i p hx hp h
      exact hclosed p (ih hpp) i hl

end StorageHarvester.Forest
