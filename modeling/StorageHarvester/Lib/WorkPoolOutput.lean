/-
What the work of a pool comes to, whatever the schedule. When what a job hands on and what it puts out
depend only on the place it is for, the places of all jobs done are the root's and those handed on, each
as often as it was. That leaves one collection of places, so runs that come to their end did the same
jobs and put out the same things, however many workers there were and whichever began what.
-/
import StorageHarvester.Lib.WorkPoolBag
import Mathlib.Data.Multiset.Bind

namespace StorageHarvester.WorkPool

/-! ## Unfolding -/

section Unfolding

variable {X : Type*} {kids : X → Multiset X} {rank : X → Nat} {root : X} {s s' : Multiset X}

/-- A collection of its root and of the kids of all it holds. -/
def Unfolds (kids : X → Multiset X) (root : X) (s : Multiset X) : Prop := s = {root} + s.bind kids

/-- One rank of the kids are the kids of the rank before. -/
theorem filter_bind_kids (hr : ∀ x, ∀ y ∈ kids x, rank y = rank x + 1) (k : Nat) (s : Multiset X) :
    (s.bind kids).filter (rank · = k + 1) = (s.filter (rank · = k)).bind kids := by
  induction s using Multiset.induction with
  | empty => rfl
  | cons x s ih =>
    rw [Multiset.cons_bind, Multiset.filter_add, ih]
    by_cases hx : rank x = k
    · rw [Multiset.filter_cons_of_pos (p := (rank · = k)) s hx, Multiset.cons_bind, Multiset.filter_eq_self.2]
      rintro y hy
      rw [hr x y hy, hx]
    · rw [Multiset.filter_cons_of_neg (p := (rank · = k)) s hx, Multiset.filter_eq_nil.2, zero_add]
      rintro y hy
      rw [hr x y hy]
      omega

/-- There is one such collection when every kid is one rank below. -/
theorem Unfolds.unique (hr : ∀ x, ∀ y ∈ kids x, rank y = rank x + 1) (h : Unfolds kids root s) (h' : Unfolds kids root s') : s = s' := by
  have hzero : ∀ u : Multiset X, (u.bind kids).filter (rank · = 0) = 0 := by
    rintro u
    apply Multiset.filter_eq_nil.2
    rintro y hy
    obtain ⟨x, -, hy⟩ := Multiset.mem_bind.1 hy
    rw [hr x y hy]
    omega
  have hlayer : ∀ k, s.filter (rank · = k) = s'.filter (rank · = k) := by
    intro k
    induction k with
    | zero => rw [h, h', Multiset.filter_add, Multiset.filter_add, hzero, hzero]
    | succ k ih => rw [h, h', Multiset.filter_add, Multiset.filter_add, filter_bind_kids hr, filter_bind_kids hr, ih]
  classical
  ext y
  have hcount : ∀ u : Multiset X, u.count y = (u.filter (rank · = rank y)).count y := fun u =>
    (Multiset.count_filter_of_pos (p := (rank · = rank y)) rfl).symm
  rw [hcount s, hlayer, ← hcount]

/-- Everything in it but its root is a kid of something in it. -/
theorem Unfolds.mem (h : Unfolds kids root s) {y : X} : y ∈ s ↔ y = root ∨ ∃ x ∈ s, y ∈ kids x := by
  constructor
  · rintro hy
    rw [h, Multiset.mem_add, Multiset.mem_singleton, Multiset.mem_bind] at hy
    exact hy
  · rintro hy
    rw [h, Multiset.mem_add, Multiset.mem_singleton, Multiset.mem_bind]
    exact hy

/-- It holds nothing twice when no two of its places lead to one. -/
theorem Unfolds.nodup (hr : ∀ x, ∀ y ∈ kids x, rank y = rank x + 1) (h : Unfolds kids root s) (hroot : rank root = 0)
    (hk : ∀ x ∈ s, (kids x).Nodup) (hd : ∀ x ∈ s, ∀ x' ∈ s, ∀ y ∈ kids x, y ∈ kids x' → x = x') : s.Nodup := by
  have hlayer : ∀ k, (s.filter (rank · = k)).Nodup := by
    intro k
    induction k with
    | zero =>
      have hnone : (s.bind kids).filter (rank · = 0) = 0 := by
        apply Multiset.filter_eq_nil.2
        rintro y hy
        obtain ⟨x, -, hy⟩ := Multiset.mem_bind.1 hy
        rw [hr x y hy]
        omega
      rw [h, Multiset.filter_add, hnone, add_zero]
      exact (Multiset.nodup_singleton root).filter _
    | succ k ih =>
      have hnone : ({root} : Multiset X).filter (rank · = k + 1) = 0 := by
        apply Multiset.filter_eq_nil.2
        rintro y hy
        rw [Multiset.mem_singleton.1 hy, hroot]
        omega
      rw [h, Multiset.filter_add, hnone, zero_add, filter_bind_kids hr, Multiset.nodup_bind]
      constructor
      · exact fun x hx => hk x (Multiset.mem_of_mem_filter hx)
      · refine ih.pairwise fun x hx x' hx' hne => Multiset.disjoint_left.2 fun hy hy' => hne ?_
        exact hd x (Multiset.mem_of_mem_filter hx) x' (Multiset.mem_of_mem_filter hx') _ hy hy'
  classical
  rw [Multiset.nodup_iff_count_le_one]
  intro y
  rw [← Multiset.count_filter_of_pos (p := (rank · = rank y)) rfl]
  exact Multiset.nodup_iff_count_le_one.1 (hlayer (rank y)) y

/-- What is in a part of it, which is gone into at one place alone, unfolds from there. -/
theorem Unfolds.filter {In : X → Prop} [DecidablePred In] {top : X} (h : Unfolds kids root s) (hn : s.Nodup) (htop : top ∈ s) (hin : In top)
    (hroot : In root → root = top) (hdown : ∀ x ∈ s, In x → ∀ y ∈ kids x, In y ∧ y ≠ top)
    (hup : ∀ x ∈ s, ∀ y ∈ kids x, In y → y = top ∨ In x) : Unfolds kids top (s.filter In) := by
  have hsplit : s.bind kids = (s.filter In).bind kids + (s.filter fun x => ¬In x).bind kids := by
    rw [← Multiset.add_bind, Multiset.filter_add_not]
  have hkids : ((s.filter In).bind kids).Nodup := by
    refine Multiset.nodup_of_le ?_ hn
    calc (s.filter In).bind kids ≤ s.bind kids := hsplit ▸ Multiset.le_add_right _ _
      _ ≤ {root} + s.bind kids := Multiset.le_add_left _ _
      _ = s := h.symm
  have hfresh : top ∉ (s.filter In).bind kids := by
    rintro ht
    obtain ⟨x, hx, hy⟩ := Multiset.mem_bind.1 ht
    exact (hdown x (Multiset.mem_of_mem_filter hx) (Multiset.of_mem_filter hx) top hy).2 rfl
  unfold Unfolds
  rw [Multiset.singleton_add]
  apply (Multiset.Nodup.ext (hn.filter In) (Multiset.nodup_cons.2 ⟨hfresh, hkids⟩)).2
  intro y
  rw [Multiset.mem_filter, Multiset.mem_cons, Multiset.mem_bind]
  constructor
  · rintro ⟨hy, hiny⟩
    rcases h.mem.1 hy with rfl | ⟨x, hx, hyx⟩
    · exact .inl (hroot hiny)
    · exact (hup x hx y hyx hiny).imp id fun hinx => ⟨x, Multiset.mem_filter.2 ⟨hx, hinx⟩, hyx⟩
  · rintro (rfl | ⟨x, hx, hyx⟩)
    · exact ⟨htop, hin⟩
    · obtain ⟨hx, hinx⟩ := Multiset.mem_filter.1 hx
      exact ⟨h.mem.2 (.inr ⟨x, hx, hyx⟩), (hdown x hx hinx y hyx).1⟩

/-- Places told otherwise unfold alike. -/
theorem Unfolds.map {Y : Type*} {kids' : Y → Multiset Y} (h : Unfolds kids root s) (f : X → Y)
    (hf : ∀ x ∈ s, kids' (f x) = (kids x).map f) : Unfolds kids' (f root) (s.map f) := by
  unfold Unfolds
  conv_lhs => rw [h]
  rw [Multiset.map_add, Multiset.map_singleton, Multiset.map_bind, Multiset.bind_map, Multiset.bind_congr hf]

end Unfolding

/-! ## What a bag puts out -/

variable {n : Nat} {J P D S E X O : Type*}

/-- The states of a bag, each with what its steps put out on the way to it. -/
inductive Emitting (task : Task J P D S E) (emit : P → Multiset O) (root : J) (data : Fin (n + 1) → D) (shared : S) :
    Bag n J P D S → Multiset O → Prop
  | initial : Emitting task emit root data shared ⟨{root}, fun _ => none, data, shared⟩ 0
  | start {b : Bag n J P D S} {put : Multiset O} {i : Fin (n + 1)} {job : J} {rest : Multiset J}
      (h : Emitting task emit root data shared b put) (hi : b.active i = none) (hj : b.pending = {job} + rest) :
      Emitting task emit root data shared
        { b with pending := rest, active := Function.update b.active i (some (job, task.start job)) } put
  | more {b : Bag n J P D S} {put : Multiset O} {i : Fin (n + 1)} {interrupted : Bool} {job : J} {p p' : P} {d' : D} {s' : S}
      (h : Emitting task emit root data shared b put) (hi : b.active i = some (job, p))
      (ht : task.step interrupted p (b.data i) b.shared (.more p' d' s')) :
      Emitting task emit root data shared
        { b with active := Function.update b.active i (some (job, p')), data := Function.update b.data i d', shared := s' }
        (put + emit p)
  | done {b : Bag n J P D S} {put : Multiset O} {i : Fin (n + 1)} {interrupted : Bool} {job : J} {p : P} {children : List J}
      {d' : D} {s' : S} (h : Emitting task emit root data shared b put) (hi : b.active i = some (job, p))
      (ht : task.step interrupted p (b.data i) b.shared (.done children d' s')) :
      Emitting task emit root data shared ⟨b.pending + children, Function.update b.active i none, Function.update b.data i d', s'⟩
        (put + emit p)

/-- Work that hands on and puts out what the place of its job says: `ahead` and `owed` are what is still to come
of a job begun. -/
structure Steady (task : Task J P D S E) (emit : P → Multiset O) (place : J → X) (kids : X → Multiset X) (out : X → Multiset O)
    (ahead : P → Multiset X) (owed : P → Multiset O) : Prop where
  start : ∀ job, ahead (task.start job) = kids (place job) ∧ owed (task.start job) = out (place job)
  more : ∀ interrupted p d s p' d' s', task.step interrupted p d s (.more p' d' s') →
    ahead p' = ahead p ∧ emit p + owed p' = owed p
  done : ∀ interrupted p d s children d' s', task.step interrupted p d s (.done children d' s') →
    (children : Multiset J).map place = ahead p ∧ emit p = owed p

section Runs

variable {task : Task J P D S E} {emit : P → Multiset O} {place : J → X} {kids : X → Multiset X} {out : X → Multiset O}
  {ahead : P → Multiset X} {owed : P → Multiset O} {root : J} {data : Fin (n + 1) → D} {shared : S} {b : Bag n J P D S}
  {put : Multiset O}

/-- What a function of the progress makes of a worker at work. -/
def ofActive {M : Type*} [Zero M] (f : P → M) (a : Option (J × P)) : M := (a.map fun e => f e.2).getD 0

theorem ofActive_none {M : Type*} [Zero M] (f : P → M) : ofActive f (none : Option (J × P)) = 0 := rfl

theorem ofActive_some {M : Type*} [Zero M] (f : P → M) (job : J) (p : P) : ofActive f (some (job, p)) = f p := rfl

/-- Every state of a bag has what was put out on the way. -/
theorem emitting_of_reachable (emit : P → Multiset O) (h : BagReachable task root data shared b) :
    ∃ put, Emitting task emit root data shared b put := by
  induction h with
  | initial => exact ⟨_, .initial⟩
  | start h hi hj ih =>
    obtain ⟨put, hp⟩ := ih
    exact ⟨_, hp.start hi hj⟩
  | more h hi ht ih =>
    obtain ⟨put, hp⟩ := ih
    exact ⟨_, hp.more hi ht⟩
  | done h hi ht ih =>
    obtain ⟨put, hp⟩ := ih
    exact ⟨_, hp.done hi ht⟩

/-- Each place a job was begun for was the root's or handed on, and what those places are for was put out or is owed. -/
theorem Emitting.conserved (hs : Steady task emit place kids out ahead owed) (h : Emitting task emit root data shared b put) :
    ∃ begun : Multiset X, begun + b.pending.map place + ∑ i, ofActive ahead (b.active i) = {place root} + begun.bind kids ∧
      put + ∑ i, ofActive owed (b.active i) = begun.bind out := by
  induction h with
  | initial => exact ⟨0, by simp [ofActive], by simp [ofActive]⟩
  | @start b put i job rest h hi hj ih =>
    obtain ⟨begun, hplaces, hput⟩ := ih
    obtain ⟨hkids, hout⟩ := hs.start job
    have hahead := Bag.sum_update (ofActive ahead) b.active i (some (job, task.start job))
    have howed := Bag.sum_update (ofActive owed) b.active i (some (job, task.start job))
    rw [hi, ofActive_none, ofActive_some, add_zero] at hahead howed
    refine ⟨begun + {place job}, ?_, ?_⟩
    · show _ + rest.map place + ∑ j, ofActive ahead (Function.update b.active i (some (job, task.start job)) j) = _
      rw [hj, Multiset.map_add, Multiset.map_singleton] at hplaces
      rw [hahead, hkids, Multiset.add_bind, Multiset.singleton_bind, ← add_assoc {place root}, ← hplaces]
      ac_rfl
    · show _ + ∑ j, ofActive owed (Function.update b.active i (some (job, task.start job)) j) = _
      rw [howed, hout, Multiset.add_bind, Multiset.singleton_bind, ← hput]
      ac_rfl
  | @more b put i interrupted job p p' d' s' h hi ht ih =>
    obtain ⟨begun, hplaces, hput⟩ := ih
    obtain ⟨hkids, hout⟩ := hs.more _ _ _ _ _ _ _ ht
    have hahead := Bag.sum_update (ofActive ahead) b.active i (some (job, p'))
    have howed := Bag.sum_update (ofActive owed) b.active i (some (job, p'))
    rw [hi, ofActive_some, ofActive_some] at hahead howed
    rw [hkids] at hahead
    refine ⟨begun, ?_, ?_⟩
    · show _ + _ + ∑ j, ofActive ahead (Function.update b.active i (some (job, p')) j) = _
      rw [add_right_cancel hahead]
      exact hplaces
    · show put + emit p + ∑ j, ofActive owed (Function.update b.active i (some (job, p')) j) = _
      apply add_right_cancel (b := owed p)
      rw [add_assoc, howed, ← hput, ← hout]
      ac_rfl
  | @done b put i interrupted job p children d' s' h hi ht ih =>
    obtain ⟨begun, hplaces, hput⟩ := ih
    obtain ⟨hkids, hout⟩ := hs.done _ _ _ _ _ _ _ ht
    have hahead := Bag.sum_update (ofActive ahead) b.active i none
    have howed := Bag.sum_update (ofActive owed) b.active i none
    rw [hi, ofActive_some, ofActive_none, add_zero] at hahead howed
    refine ⟨begun, ?_, ?_⟩
    · show _ + (b.pending + children).map place + ∑ j, ofActive ahead (Function.update b.active i none j) = _
      rw [Multiset.map_add, hkids, ← hplaces, ← hahead]
      ac_rfl
    · show put + emit p + ∑ j, ofActive owed (Function.update b.active i none j) = _
      rw [hout, ← hput, ← howed]
      ac_rfl

/-- At its end a run has done the jobs that unfold from the root's place, and put out what those are for. -/
theorem Emitting.unfolds (hs : Steady task emit place kids out ahead owed) (h : Emitting task emit root data shared b put)
    (hp : b.pending = 0) (ha : ∀ i, b.active i = none) : ∃ begun, Unfolds kids (place root) begun ∧ put = begun.bind out := by
  obtain ⟨begun, hplaces, hput⟩ := h.conserved hs
  have hahead : ∑ i, ofActive ahead (b.active i) = 0 := Finset.sum_eq_zero fun i _ => by rw [ha i, ofActive_none]
  have howed : ∑ i, ofActive owed (b.active i) = 0 := Finset.sum_eq_zero fun i _ => by rw [ha i, ofActive_none]
  rw [hp, hahead, Multiset.map_zero, add_zero, add_zero] at hplaces
  rw [howed, add_zero] at hput
  exact ⟨begun, hplaces, hput⟩

/-- Figures of the workers that every step raises by the worth of what it puts out. -/
theorem Emitting.total {M : Type*} [AddCommMonoid M] (weigh : D → M) (worth : O → M)
    (hmore : ∀ interrupted p d s p' d' s', task.step interrupted p d s (.more p' d' s') → weigh d' = weigh d + ((emit p).map worth).sum)
    (hdone : ∀ interrupted p d s children d' s', task.step interrupted p d s (.done children d' s') →
      weigh d' = weigh d + ((emit p).map worth).sum)
    (h : Emitting task emit root data shared b put) : ∑ i, weigh (b.data i) = ∑ i, weigh (data i) + (put.map worth).sum := by
  have hstep : ∀ (f : Fin (n + 1) → D) (i : Fin (n + 1)) (d' : D) (new : M), weigh d' = weigh (f i) + new →
      ∑ j, weigh (Function.update f i d' j) = ∑ j, weigh (f j) + new := by
    rintro f i d' new hd
    have hsame : ∑ j ∈ Finset.univ.erase i, weigh (Function.update f i d' j) = ∑ j ∈ Finset.univ.erase i, weigh (f j) :=
      Finset.sum_congr rfl fun j hj => by rw [Function.update_of_ne (Finset.ne_of_mem_erase hj)]
    rw [← Finset.add_sum_erase _ _ (Finset.mem_univ i), ← Finset.add_sum_erase _ (fun j => weigh (f j)) (Finset.mem_univ i), hsame,
      Function.update_self, hd]
    ac_rfl
  induction h with
  | initial => simp
  | start h hi hj ih => exact ih
  | @more b put i _ job p p' d' s' h hi ht ih =>
    show ∑ j, weigh (Function.update b.data i d' j) = _
    rw [hstep _ _ _ _ (hmore _ _ _ _ _ _ _ ht), ih, Multiset.map_add, Multiset.sum_add, add_assoc]
  | @done b put i _ job p children d' s' h hi ht ih =>
    show ∑ j, weigh (Function.update b.data i d' j) = _
    rw [hstep _ _ _ _ (hdone _ _ _ _ _ _ _ ht), ih, Multiset.map_add, Multiset.sum_add, add_assoc]

end Runs

end StorageHarvester.WorkPool
