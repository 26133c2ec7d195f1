/-
A value found by going up a chain of keys to one whose value is known, and coming back down step by
step, with what was found, or not, kept for every key on the way. The recursion stops after so many
levels. If no chain is longer, what is kept is right for every key whatever the order of the
questions: the value at the end of the chain carried down, and none where a chain breaks off or goes
in a circle.
-/
import StorageHarvester.Lib.Table

namespace StorageHarvester.Memo

variable {κ ν σ : Type*}

/-! ## Chains -/

section Chains

variable (up : κ → Option κ) (step : κ → ν → Option ν) (base : κ → Option ν)

/-- The value of a key: known, or stepped to from the one above. -/
inductive Value : κ → ν → Prop
  | known {k : κ} {v : ν} (h : base k = some v) : Value k v
  | step {k parent : κ} {v w : ν} (hbase : base k = none) (hup : up k = some parent) (hv : Value parent v)
      (hstep : step k v = some w) : Value k w

/-- A chain of so many steps leads up to a known key. -/
inductive Height : κ → Nat → Prop
  | known {k : κ} {v : ν} (h : base k = some v) : Height k 0
  | step {k parent : κ} {n : Nat} (hbase : base k = none) (hup : up k = some parent) (h : Height parent n) : Height k (n + 1)

end Chains

variable {up : κ → Option κ} {step : κ → ν → Option ν} {base : κ → Option ν}

theorem Value.height {k : κ} {v : ν} (h : Value up step base k v) : ∃ n, Height up base k n := by
  induction h with
  | known h => exact ⟨0, .known h⟩
  | step hbase hup _ _ ih =>
    obtain ⟨n, hn⟩ := ih
    exact ⟨n + 1, .step hbase hup hn⟩

/-- Below a key whose value is not known, the value comes from above. -/
theorem value_iff {k parent : κ} (hbase : base k = none) (hup : up k = some parent) (w : ν) :
    Value up step base k w ↔ ∃ v, Value up step base parent v ∧ step k v = some w := by
  constructor
  · intro h
    cases h with
    | known h => rw [hbase] at h; cases h
    | step _ hup' hv hstep =>
      rw [hup] at hup'
      cases hup'
      exact ⟨_, hv, hstep⟩
  · rintro ⟨v, hv, hstep⟩
    exact .step hbase hup hv hstep

theorem not_value_of_root {k : κ} (hbase : base k = none) (hup : up k = none) (w : ν) : ¬Value up step base k w := by
  intro h
  cases h with
  | known h => rw [hbase] at h; cases h
  | step _ hup' _ _ => rw [hup] at hup'; cases hup'

/-! ## The recursion -/

variable [DecidableEq κ]

/-- The value of a key, at most so many levels up. A step reads and changes a state of its own. -/
def resolve (up : κ → Option κ) (grow : κ → ν → σ → Option ν × σ) :
    Nat → κ → Table κ (Option ν) → σ → Option ν × Table κ (Option ν) × σ
  | levels, k, t, s =>
    match t.get k with
    | some known => (known, t, s)
    | none =>
      match up k, levels with
      | some parent, levels + 1 =>
        let above := resolve up grow levels parent t s
        match above.1 with
        | some v =>
          let found := grow k v above.2.2
          (found.1, above.2.1.put k found.1, found.2)
        | none => (none, above.2.1.put k none, above.2.2)
      | _, _ => (none, t.put k none, s)

/-- What is kept is right, and the known values are kept. -/
structure Sound (up : κ → Option κ) (step : κ → ν → Option ν) (base : κ → Option ν) (t : Table κ (Option ν)) : Prop where
  right : ∀ k r, t.get k = some r → ∀ v, r = some v ↔ Value up step base k v
  known : ∀ k v, base k = some v → t.get k = some (some v)

/-- A step with a state is the step without, as long as the state is good. -/
def Grows (good : σ → Prop) (step : κ → ν → Option ν) (grow : κ → ν → σ → Option ν × σ) : Prop :=
  ∀ k v s, good s → (grow k v s).1 = step k v ∧ good (grow k v s).2

variable {t t' : Table κ (Option ν)} {good : σ → Prop} {grow : κ → ν → σ → Option ν × σ}

theorem Sound.base_none (h : Sound up step base t) {k : κ} (hk : t.get k = none) : base k = none := by
  cases hb : base k with
  | none => rfl
  | some v =>
    rw [h.known k v hb] at hk
    cases hk

theorem Sound.put (h : Sound up step base t) {k : κ} (hbase : base k = none) {r : Option ν}
    (hr : ∀ v, r = some v ↔ Value up step base k v) : Sound up step base (t.put k r) := by
  constructor
  · intro k' r' hget
    rw [Table.get_put] at hget
    split at hget
    · cases hget
      subst_vars
      exact hr
    · exact h.right k' r' hget
  · intro k' v hb
    rw [Table.get_put]
    split
    · subst_vars
      rw [hbase] at hb
      cases hb
    · exact h.known k' v hb

/-- What one question comes to: the right answer, kept, and what was kept before is kept. -/
structure Answered (up : κ → Option κ) (step : κ → ν → Option ν) (base : κ → Option ν) (good : σ → Prop) (k : κ)
    (t : Table κ (Option ν)) (a : Option ν × Table κ (Option ν) × σ) : Prop where
  right : ∀ v, a.1 = some v ↔ Value up step base k v
  sound : Sound up step base a.2.1
  good : good a.2.2
  kept : a.2.1.get k = some a.1
  grown : ∀ k' r, t.get k' = some r → a.2.1.get k' = some r

theorem get_put_of_some {t' : Table κ (Option ν)} (hgrown : ∀ k' r, t.get k' = some r → t'.get k' = some r) {k : κ}
    (hk : t.get k = none) (r : Option ν) : ∀ k' r', t.get k' = some r' → (t'.put k r).get k' = some r' := by
  intro k' r' hget
  rw [Table.get_put, if_neg]
  · exact hgrown k' r' hget
  · rintro rfl
    rw [hk] at hget
    cases hget

/-- The recursion answers right, if the chain above the key is no longer than the levels. -/
theorem resolve_answered (hgrow : Grows good step grow) : ∀ (levels : Nat) (k : κ) (t : Table κ (Option ν)) (s : σ),
    Sound up step base t → good s → (∀ n, Height up base k n → n ≤ levels) →
    Answered up step base good k t (resolve up grow levels k t s) := by
  intro levels
  induction levels with
  | zero =>
    intro k t s hsound hgood hheight
    unfold resolve
    cases hk : t.get k with
    | some known => exact ⟨hsound.right k known hk, hsound, hgood, hk, fun _ _ h => h⟩
    | none =>
      have hbase := hsound.base_none hk
      -- a value would be a chain of at least one step
      have hnone : ∀ v, none = some v ↔ Value up step base k v := by
        intro v
        refine ⟨(fun h => by cases h), fun h => ?_⟩
        obtain ⟨n, hn⟩ := h.height
        have hle := hheight n hn
        cases hn with
        | known hb => rw [hbase] at hb; cases hb
        | step _ _ _ => omega
      cases up k <;>
        exact ⟨hnone, hsound.put hbase hnone, hgood, Table.get_put_self _ _ _, get_put_of_some (fun _ _ h => h) hk none⟩
  | succ levels ih =>
    intro k t s hsound hgood hheight
    unfold resolve
    cases hk : t.get k with
    | some known => exact ⟨hsound.right k known hk, hsound, hgood, hk, fun _ _ h => h⟩
    | none =>
      have hbase := hsound.base_none hk
      cases hup : up k with
      | none =>
        have hnone : ∀ v, none = some v ↔ Value up step base k v := fun v =>
          ⟨(fun h => by cases h), fun h => absurd h (not_value_of_root hbase hup v)⟩
        exact ⟨hnone, hsound.put hbase hnone, hgood, Table.get_put_self _ _ _, get_put_of_some (fun _ _ h => h) hk none⟩
      | some parent =>
        have habove := ih parent t s hsound hgood (fun n hn => Nat.le_of_succ_le_succ (hheight _ (.step hbase hup hn)))
        dsimp only
        cases hv : (resolve up grow levels parent t s).1 with
        | none =>
          have hnone : ∀ w, none = some w ↔ Value up step base k w := by
            intro w
            rw [value_iff hbase hup]
            refine ⟨(fun h => by cases h), ?_⟩
            rintro ⟨v, hvalue, _⟩
            have := (habove.right v).2 hvalue
            rw [hv] at this
            cases this
          exact ⟨hnone, habove.sound.put hbase hnone, habove.good, Table.get_put_self _ _ _,
            get_put_of_some habove.grown hk none⟩
        | some v =>
          obtain ⟨hstep, hgood'⟩ := hgrow k v _ habove.good
          have hright : ∀ w, (grow k v (resolve up grow levels parent t s).2.2).1 = some w ↔ Value up step base k w := by
            intro w
            rw [value_iff hbase hup, hstep]
            constructor
            · exact fun h => ⟨v, (habove.right v).1 hv, h⟩
            · rintro ⟨v', hvalue, h⟩
              have := (habove.right v').2 hvalue
              rw [hv] at this
              cases this
              exact h
          exact ⟨hright, habove.sound.put hbase hright, hgood', Table.get_put_self _ _ _,
            get_put_of_some habove.grown hk _⟩

/-- All questions, one after the other. -/
def resolveAll (up : κ → Option κ) (grow : κ → ν → σ → Option ν × σ) (levels : Nat) (keys : List κ)
    (t : Table κ (Option ν)) (s : σ) : Table κ (Option ν) × σ :=
  keys.foldl (fun a k => (resolve up grow levels k a.1 a.2).2) (t, s)

/-- Whatever their order, each is answered right in the end. -/
theorem resolveAll_right (hgrow : Grows good step grow) {levels : Nat} : ∀ {keys : List κ} {t : Table κ (Option ν)} {s : σ},
    Sound up step base t → good s → (∀ k ∈ keys, ∀ n, Height up base k n → n ≤ levels) →
    (∀ k ∈ keys, ∃ r, (resolveAll up grow levels keys t s).1.get k = some r ∧ ∀ v, r = some v ↔ Value up step base k v) ∧
      ∀ k r, t.get k = some r → (resolveAll up grow levels keys t s).1.get k = some r
  | [], t, s, _, _, _ => ⟨fun _ h => absurd h List.not_mem_nil, fun _ _ h => h⟩
  | k :: keys, t, s, hsound, hgood, hheight => by
    have ha := resolve_answered hgrow levels k t s hsound hgood (hheight k List.mem_cons_self)
    have ih := resolveAll_right hgrow ha.sound ha.good fun k' (hk' : k' ∈ keys) => hheight k' (List.mem_cons_of_mem _ hk')
    refine ⟨?_, fun k' r hget => ih.2 k' r (ha.grown k' r hget)⟩
    intro k' hk'
    rcases List.mem_cons.1 hk' with rfl | hk'
    · exact ⟨_, ih.2 _ _ ha.kept, ha.right⟩
    · exact ih.1 k' hk'

end StorageHarvester.Memo
