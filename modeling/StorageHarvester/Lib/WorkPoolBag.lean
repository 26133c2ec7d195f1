/-
The work pool without its protocol: a bag of jobs any of which any free worker may begin. As long as
no worker gives up, every state of the pool is a state of the bag, so what is invariant under
beginning, advancing and finishing jobs in any order is invariant in the pool.
-/
import StorageHarvester.Lib.WorkPoolSafety

namespace StorageHarvester.WorkPool

variable {n : Nat} {J P D S E : Type*}

open State

/-- What the pool computes with, whatever the schedule: the jobs not begun, the work in progress,
and the data. -/
structure Bag (n : Nat) (J P D S : Type*) where
  pending : Multiset J
  active : Fin (n + 1) → Option (J × P)
  data : Fin (n + 1) → D
  shared : S

/-- Any pending job may be begun by any free worker. -/
inductive BagReachable (task : Task J P D S E) (root : J) (data : Fin (n + 1) → D) (shared : S) : Bag n J P D S → Prop
  | initial : BagReachable task root data shared ⟨{root}, fun _ => none, data, shared⟩
  | start {b : Bag n J P D S} {i : Fin (n + 1)} {job : J} {rest : Multiset J} (h : BagReachable task root data shared b)
      (hi : b.active i = none) (hj : b.pending = {job} + rest) :
      BagReachable task root data shared
        { b with pending := rest, active := Function.update b.active i (some (job, task.start job)) }
  | more {b : Bag n J P D S} {i : Fin (n + 1)} {interrupted : Bool} {job : J} {p p' : P} {d' : D} {s' : S}
      (h : BagReachable task root data shared b) (hi : b.active i = some (job, p))
      (ht : task.step interrupted p (b.data i) b.shared (.more p' d' s')) :
      BagReachable task root data shared
        { b with active := Function.update b.active i (some (job, p')), data := Function.update b.data i d', shared := s' }
  | done {b : Bag n J P D S} {i : Fin (n + 1)} {interrupted : Bool} {job : J} {p : P} {children : List J} {d' : D} {s' : S}
      (h : BagReachable task root data shared b) (hi : b.active i = some (job, p))
      (ht : task.step interrupted p (b.data i) b.shared (.done children d' s')) :
      BagReachable task root data shared
        ⟨b.pending + children, Function.update b.active i none, Function.update b.data i d', s'⟩

/-- The children a worker has not handed over yet. -/
def Phase.queued : Phase J P E → Multiset J
  | .exchange children => children
  | _ => 0

def Phase.active : Phase J P E → Option (J × P)
  | .working job p => some (job, p)
  | _ => none

def State.bag (s : State n J P D S E) : Bag n J P D S where
  pending := (s.jobs : Multiset J) + ∑ i, (s.phase i).queued
  active i := (s.phase i).active
  data := s.data
  shared := s.shared

/-! ## Simulation -/

section Simulation

variable {task : Task J P D S E} {root : J} {data : Fin (n + 1) → D} {shared : S} {s s' : State n J P D S E} {i : Fin (n + 1)}
  {b : Phase J P E}

theorem pending_moves (hm : Moves s s' i b) {rest : Multiset J}
    (hj : (s.jobs : Multiset J) + (s.phase i).queued + rest = (s'.jobs : Multiset J) + b.queued) :
    s'.bag.pending = s.bag.pending + rest := by
  have hsum := hm.sum Phase.queued rfl
  show (s'.jobs : Multiset J) + ∑ j, (s'.phase j).queued = (s.jobs : Multiset J) + ∑ j, (s.phase j).queued + rest
  refine add_right_cancel (b := (s.phase i).queued) ?_
  calc (s'.jobs : Multiset J) + ∑ j, (s'.phase j).queued + (s.phase i).queued
      = ((s'.jobs : Multiset J) + b.queued) + ∑ j, (s.phase j).queued := by rw [add_assoc, hsum]; ac_rfl
    _ = (s.jobs : Multiset J) + ∑ j, (s.phase j).queued + rest + (s.phase i).queued := by rw [← hj]; ac_rfl

theorem active_moves (hm : Moves s s' i b) : s'.bag.active = Function.update s.bag.active i b.active := by
  funext j
  by_cases hji : j = i
  · subst hji
    rw [Function.update_self]
    exact congrArg Phase.active hm.self
  · rw [Function.update_of_ne hji]
    exact hm.apply (f := Phase.active) rfl hji

/-- A move by which no work begins or ends. -/
theorem active_quiet (hm : Moves s s' i b) (ha : b.active = (s.phase i).active) : s'.bag.active = s.bag.active := by
  rw [active_moves hm, ha]
  exact Function.update_eq_self ..

/-- A move the bag does not see. -/
theorem bag_quiet (hm : Moves s s' i b) (ha : b.active = (s.phase i).active)
    (hj : (s.jobs : Multiset J) + (s.phase i).queued = (s'.jobs : Multiset J) + b.queued) (hd : s'.data = s.data)
    (hs : s'.shared = s.shared) : s'.bag = s.bag := by
  have h1 : s'.bag.pending = s.bag.pending + 0 := pending_moves hm (by rw [add_zero]; exact hj)
  rw [add_zero] at h1
  have h2 : s'.bag.active = s.bag.active := active_quiet hm ha
  cases hb : s'.bag
  cases hb' : s.bag
  rw [hb, hb'] at h1 h2
  have h3 : s'.bag.data = s.bag.data := hd
  have h4 : s'.bag.shared = s.bag.shared := hs
  rw [hb, hb'] at h3 h4
  simp only at h1 h2 h3 h4
  subst h1 h2 h3 h4
  rfl

theorem bag_same (h : BagReachable task root data shared s.bag) (hm : Moves s s' i b) (ha : b.active = (s.phase i).active)
    (hj : (s.jobs : Multiset J) + (s.phase i).queued = (s'.jobs : Multiset J) + b.queued) (hd : s'.data = s.data := by rfl)
    (hs : s'.shared = s.shared := by rfl) : BagReachable task root data shared s'.bag := by
  rw [bag_quiet hm ha hj hd hs]; exact h

/-- A move by which a worker begins a job. -/
theorem bag_start (h : BagReachable task root data shared s.bag) {job : J}
    (hm : Moves s s' i (.working job (task.start job))) (ha : (s.phase i).active = none)
    (hj : (s.jobs : Multiset J) + (s.phase i).queued = {job} + (s'.jobs : Multiset J)) (hd : s'.data = s.data)
    (hs : s'.shared = s.shared) : BagReachable task root data shared s'.bag := by
  have hsum := hm.sum Phase.queued rfl
  change ∑ j, (s'.phase j).queued + (s.phase i).queued = ∑ j, (s.phase j).queued + 0 at hsum
  have hp : s.bag.pending = {job} + s'.bag.pending := by
    show (s.jobs : Multiset J) + ∑ j, (s.phase j).queued = {job} + ((s'.jobs : Multiset J) + ∑ j, (s'.phase j).queued)
    rw [add_zero] at hsum
    calc (s.jobs : Multiset J) + ∑ j, (s.phase j).queued
        = ((s.jobs : Multiset J) + (s.phase i).queued) + ∑ j, (s'.phase j).queued := by rw [← hsum]; ac_rfl
      _ = {job} + ((s'.jobs : Multiset J) + ∑ j, (s'.phase j).queued) := by rw [hj, add_assoc]
  have hstep := BagReachable.start (i := i) h ha hp
  have he : s'.bag = { s.bag with
      pending := s'.bag.pending
      active := Function.update s.bag.active i (some (job, task.start job)) } := by
    have h2 := active_moves hm
    have h3 : s'.bag.data = s.bag.data := hd
    have h4 : s'.bag.shared = s.bag.shared := hs
    cases hb : s'.bag
    rw [hb] at h2 h3 h4
    simp only at h2 h3 h4
    subst h2 h3 h4
    rfl
  rw [he]
  exact hstep

theorem bag_look (h : BagReachable task root data shared s.bag) {t : State n J P D S E} (ht : t.phase = s.phase)
    (hjobs : t.jobs = s.jobs) (hd : t.data = s.data) (hs : t.shared = s.shared) (hq : (s.phase i).queued = 0)
    (ha : (s.phase i).active = none) : BagReachable task root data shared (t.look task i).bag := by
  rcases look_cases task t i with ⟨-, he⟩ | ⟨-, js, job, hj, he⟩ | ⟨-, -, -, he⟩ | ⟨-, -, -, he⟩
  · rw [he]
    refine bag_same h (moves_set i _ ht) ha.symm ?_ hd hs
    rw [hq]
    show _ = (t.jobs : Multiset J) + 0
    rw [hjobs]
  · rw [he]
    refine bag_start h (moves_set i _ ht) ha ?_ hd hs
    rw [hq, ← hjobs, hj, ← Multiset.coe_add, Multiset.coe_singleton, add_zero]
    exact add_comm _ _
  · rw [he]
    refine bag_same h (moves_wakeAll i _ ht) ha.symm ?_ hd hs
    rw [hq]
    show _ = (t.jobs : Multiset J) + 0
    rw [hjobs]
  · rw [he]
    refine bag_same h (moves_set i _ ht) ha.symm ?_ hd hs
    rw [hq]
    show _ = (t.jobs : Multiset J) + 0
    rw [hjobs]

/-- A step of a pool in which no worker has given up is a step of the bag, or none. -/
theorem bag_worker (h : BagReachable task root data shared s.bag) (hc : Counts s) (hs : WorkerStep task i s s')
    (ha : s'.abandoned = []) (hgave : ∀ j, (s.phase j).isHalt = false) : BagReachable task root data shared s'.bag := by
  -- nobody gave up, so no worker is in the phases that only a failure leads to
  have hnot : ∀ {stage}, s.phase i = .halting stage → False := fun he => by
    have := hgave i
    rw [he] at this; cases this
  cases hs with
  | @spawn k hi hk =>
    have hu := (hc.spawning i k hi).2.2 ⟨k, hk⟩ (Nat.le_refl k)
    have hki : i ≠ ⟨k, hk⟩ := fun he => by rw [he, hu] at hi; cases hi
    have hi' : (s.set ⟨k, hk⟩ (.exchange [])).phase i = .spawning k := by rw [phase_set_of_ne hki, hi]
    have h1 : BagReachable task root data shared (s.set ⟨k, hk⟩ (.exchange [])).bag :=
      bag_same h (moves_set _ _) (by rw [hu]; rfl) (by rw [hu]; rfl)
    exact bag_same h1 (moves_set i _) (by rw [hi']; rfl) (by rw [hi']; rfl)
  | @spawnFail k hi hk =>
    have hu := (hc.spawning i k hi).2.2 ⟨k, hk⟩ (Nat.le_refl k)
    have hki : i ≠ ⟨k, hk⟩ := fun he => by rw [he, hu] at hi; cases hi
    have hi' : ({ s with busy := s.busy - 1 }.set ⟨k, hk⟩ .notSpawned).phase i = .spawning k := by
      rw [phase_set_of_ne hki, hi]
    have h1 : BagReachable task root data shared ({ s with busy := s.busy - 1 }.set ⟨k, hk⟩ .notSpawned).bag :=
      bag_same h (moves_set _ _) (by rw [hu]; rfl) (by rw [hu]; rfl)
    exact bag_same h1 (moves_set i _) (by rw [hi']; rfl) (by rw [hi']; rfl)
  | spawnWake hi => exact bag_same h (moves_wakeAll i _) (by rw [hi]; rfl) (by rw [hi]; rfl)
  | spawnDone hi hk => exact bag_same h (moves_set i _) (by rw [hi]; rfl) (by rw [hi]; rfl)
  | @keep own hi =>
    refine bag_start h (moves_set i _) (by rw [hi]; rfl) ?_ rfl rfl
    rw [hi]
    exact add_comm _ _
  | @publish rest own w hi hr hw hcard =>
    refine bag_start h (moves_wakeSome w i _) (by rw [hi]; rfl) ?_ rfl rfl
    rw [hi]
    show (s.jobs : Multiset J) + ((rest ++ [own] : List J) : Multiset J) = {own} + ((s.jobs ++ rest : List J) : Multiset J)
    rw [← Multiset.coe_add, ← Multiset.coe_add, Multiset.coe_singleton]
    ac_rfl
  | retire hi => exact bag_look h rfl rfl rfl rfl (by rw [hi]; rfl) (by rw [hi]; rfl)
  | rouse hi => exact bag_look h rfl rfl rfl rfl (by rw [hi]; rfl) (by rw [hi]; rfl)
  | @more job p p' d' t hi ht =>
    have hm : Moves s ({ s with data := Function.update s.data i d', shared := t }.set i (.working job p')) i (.working job p') :=
      moves_set i _
    have hp := pending_moves hm (show _ + _ + (0 : Multiset J) = _ by rw [hi, add_zero]; rfl)
    have hstep := BagReachable.more (i := i) h (show s.bag.active i = some (job, p) from congrArg Phase.active hi) ht
    rw [add_zero] at hp
    have hact := active_moves hm
    convert hstep using 1
    show Bag.mk _ _ _ _ = Bag.mk _ _ _ _
    rw [← hp]
    exact congrArg (fun a => Bag.mk _ a _ _) hact
  | @done job p children d' t hi ht =>
    have hm : Moves s ({ s with
        data := Function.update s.data i d', shared := t, pushed := s.pushed ++ children
        finished := s.finished ++ [job] }.set i (.exchange children)) i (.exchange children) := moves_set i _
    have hp := pending_moves hm (show _ + _ + (children : Multiset J) = _ by
      rw [hi]
      show (s.jobs : Multiset J) + 0 + (children : Multiset J) = (s.jobs : Multiset J) + (children : Multiset J)
      rw [add_zero])
    have hstep := BagReachable.done (i := i) h (show s.bag.active i = some (job, p) from congrArg Phase.active hi) ht
    have hact := active_moves hm
    convert hstep using 1
    show Bag.mk _ _ _ _ = Bag.mk _ _ _ _
    rw [← hp]
    exact congrArg (fun a => Bag.mk _ a _ _) hact
  | failed hi ht => exact absurd ha (by simp [State.set])
  | cancelled hi ht => exact absurd ha (by simp [State.set])
  | panic hi => exact absurd ha (by simp [State.set])
  | haltRecord hi => exact (hnot hi).elim
  | haltRaise hi => exact (hnot hi).elim
  | haltStop hi => exact (hnot hi).elim
  | haltNotify hi => exact (hnot hi).elim

/-- What a worker gave up on stays on record. -/
theorem abandoned_step (hs : Step task s s') (ha : s'.abandoned = []) : s.abandoned = [] := by
  have hlook : ∀ (t : State n J P D S E) (j : Fin (n + 1)), (t.look task j).abandoned = t.abandoned := by
    intro t j
    rcases look_cases task t j with ⟨-, he⟩ | ⟨-, js, job, -, he⟩ | ⟨-, -, -, he⟩ | ⟨-, -, -, he⟩ <;> rw [he] <;> rfl
  cases hs with
  | worker hw =>
    cases hw with
    | retire hi => rw [hlook] at ha; exact ha
    | rouse hi => rw [hlook] at ha; exact ha
    | failed hi ht => exact absurd ha (by simp [State.set])
    | cancelled hi ht => exact absurd ha (by simp [State.set])
    | panic hi => exact absurd ha (by simp [State.set])
    | _ => exact ha
  | spurious hi => exact ha
  | cancel => exact ha

/-- A pool in which no worker has given up computes as the bag of its jobs does. -/
theorem Reachable.bag (h : Reachable task root data shared s) (ha : s.abandoned = []) :
    BagReachable task root data shared s.bag := by
  induction h with
  | initial cancel =>
    have hq : ∀ j, ((State.initial root data shared cancel : State n J P D S E).phase j).queued = 0 ∧
        ((State.initial root data shared cancel : State n J P D S E).phase j).active = none := by
      intro j
      show (if j = 0 then Phase.spawning 1 else Phase.unspawned : Phase J P E).queued = 0 ∧
        (if j = 0 then Phase.spawning 1 else Phase.unspawned : Phase J P E).active = none
      split <;> exact ⟨rfl, rfl⟩
    have he : (State.initial root data shared cancel : State n J P D S E).bag = ⟨{root}, fun _ => none, data, shared⟩ := by
      have hact : (State.initial root data shared cancel : State n J P D S E).bag.active = fun _ => none :=
        funext fun j => (hq j).2
      show Bag.mk _ _ _ _ = _
      rw [show (fun j => ((State.initial root data shared cancel : State n J P D S E).phase j).active) = fun _ => none from hact,
        Finset.sum_congr rfl fun j _ => (hq j).1, Finset.sum_const_zero, add_zero]
      rfl
    rw [he]
    exact .initial
  | @step t t' h hs ih =>
    have hat := abandoned_step hs ha
    have hinv := h.inv
    cases hs with
    | worker hw => exact bag_worker (ih hat) hinv.counts hw ha (hinv.ledger.gave.1 hat)
    | @spurious j hj =>
      exact bag_same (ih hat) (moves_set j _) (by rw [hj]; rfl) (by rw [hj]; rfl)
    | cancel => exact ih hat

/-- When all workers have returned and none gave up, the bag is empty and no one is at work. -/
theorem Inv.bag_done (h : Inv s) (ho : ∀ j, (s.phase j).isOver = true) (ha : s.abandoned = []) :
    s.bag = ⟨0, fun _ => none, s.data, s.shared⟩ := by
  have hq : ∀ j, (s.phase j).queued = 0 ∧ (s.phase j).active = none := by
    intro j
    have := ho j
    cases hp : s.phase j <;> rw [hp] at this <;> first | exact ⟨rfl, rfl⟩ | cases this
  have hact : (fun j => (s.phase j).active) = fun _ => none := funext fun j => (hq j).2
  show Bag.mk _ _ _ _ = _
  rw [hact, Finset.sum_congr rfl fun j _ => (hq j).1, Finset.sum_const_zero, (h.all_finished ho ha).1]
  rfl

end Simulation

/-! ## What the work keeps -/

/-- A property of the work in progress and of the data that holds on as jobs are begun, advanced, done
or given up. -/
structure Keeps (task : Task J P D S E) (I : (Fin (n + 1) → Option (J × P)) → (Fin (n + 1) → D) → S → Prop) : Prop where
  start : ∀ {active data shared i job}, I active data shared → active i = none →
    I (Function.update active i (some (job, task.start job))) data shared
  more : ∀ {active data shared i interrupted job p p' d' s'}, I active data shared → active i = some (job, p) →
    task.step interrupted p (data i) shared (.more p' d' s') →
    I (Function.update active i (some (job, p'))) (Function.update data i d') s'
  ended : ∀ {active data shared i interrupted job p d' s'}, I active data shared → active i = some (job, p) →
    ((∃ children, task.step interrupted p (data i) shared (.done children d' s')) ∨
      (∃ e, task.step interrupted p (data i) shared (.failed e d' s')) ∨
      task.step interrupted p (data i) shared (.cancelled d' s')) →
    I (Function.update active i none) (Function.update data i d') s'

section Kept

variable {task : Task J P D S E} {root : J} {data : Fin (n + 1) → D} {shared : S} {s s' : State n J P D S E} {i : Fin (n + 1)}
  {b : Phase J P E} {I : (Fin (n + 1) → Option (J × P)) → (Fin (n + 1) → D) → S → Prop}

theorem kept_same (h : I s.bag.active s.data s.shared) (hm : Moves s s' i b) (ha : b.active = (s.phase i).active)
    (hd : s'.data = s.data := by rfl) (hs : s'.shared = s.shared := by rfl) : I s'.bag.active s'.data s'.shared := by
  rw [active_quiet hm ha, hd, hs]
  exact h

/-- A move by which a worker begins a job. -/
theorem Keeps.begin (hI : Keeps task I) (h : I s.bag.active s.data s.shared) {job : J}
    (hm : Moves s s' i (.working job (task.start job))) (ha : (s.phase i).active = none) (hd : s'.data = s.data := by rfl)
    (hs : s'.shared = s.shared := by rfl) : I s'.bag.active s'.data s'.shared := by
  rw [active_moves hm, hd, hs]
  exact hI.start h ha

theorem Keeps.look (hI : Keeps task I) (h : I s.bag.active s.data s.shared) {t : State n J P D S E} (ht : t.phase = s.phase)
    (hd : t.data = s.data) (hs : t.shared = s.shared) (ha : (s.phase i).active = none) :
    I (t.look task i).bag.active (t.look task i).data (t.look task i).shared := by
  rcases look_cases task t i with ⟨-, he⟩ | ⟨-, js, job, -, he⟩ | ⟨-, -, -, he⟩ | ⟨-, -, -, he⟩
  · rw [he]
    exact kept_same h (moves_set i _ ht) ha.symm hd hs
  · rw [he]
    exact hI.begin h (moves_set i _ ht) ha hd hs
  · rw [he]
    exact kept_same h (moves_wakeAll i _ ht) ha.symm hd hs
  · rw [he]
    exact kept_same h (moves_set i _ ht) ha.symm hd hs

theorem Keeps.worker (hI : Keeps task I) (hc : Counts s) (hs : WorkerStep task i s s') (hp : s'.panicked = false)
    (h : I s.bag.active s.data s.shared) : I s'.bag.active s'.data s'.shared := by
  cases hs with
  | @spawn k hi hk =>
    have hu := (hc.spawning i k hi).2.2 ⟨k, hk⟩ (Nat.le_refl k)
    have hki : i ≠ ⟨k, hk⟩ := fun he => by rw [he, hu] at hi; cases hi
    have hi' : (s.set ⟨k, hk⟩ (.exchange [])).phase i = .spawning k := by rw [phase_set_of_ne hki, hi]
    have hm : Moves s (s.set ⟨k, hk⟩ (.exchange [])) ⟨k, hk⟩ (.exchange []) := moves_set _ _
    have h1 := kept_same h hm (by rw [hu]; rfl)
    exact kept_same h1 (moves_set i _) (by rw [hi']; rfl)
  | @spawnFail k hi hk =>
    have hu := (hc.spawning i k hi).2.2 ⟨k, hk⟩ (Nat.le_refl k)
    have hki : i ≠ ⟨k, hk⟩ := fun he => by rw [he, hu] at hi; cases hi
    have hi' : ({ s with busy := s.busy - 1 }.set ⟨k, hk⟩ .notSpawned).phase i = .spawning k := by
      rw [phase_set_of_ne hki, hi]
    have hm : Moves s ({ s with busy := s.busy - 1 }.set ⟨k, hk⟩ .notSpawned) ⟨k, hk⟩ .notSpawned := moves_set _ _
    have h1 := kept_same h hm (by rw [hu]; rfl)
    exact kept_same h1 (moves_set i _) (by rw [hi']; rfl)
  | spawnWake hi => exact kept_same h (moves_wakeAll i _) (by rw [hi]; rfl)
  | spawnDone hi hk => exact kept_same h (moves_set i _) (by rw [hi]; rfl)
  | keep hi => exact hI.begin h (moves_set i _) (by rw [hi]; rfl)
  | publish hi hr hw hcard => exact hI.begin h (moves_wakeSome _ i _) (by rw [hi]; rfl)
  | retire hi => exact hI.look h rfl rfl rfl (by rw [hi]; rfl)
  | rouse hi => exact hI.look h rfl rfl rfl (by rw [hi]; rfl)
  | @more job p p' d' t hi ht =>
    have hm : Moves s ({ s with data := Function.update s.data i d', shared := t }.set i (.working job p')) i (.working job p') :=
      moves_set i _
    rw [active_moves hm]
    exact hI.more h (congrArg Phase.active hi) ht
  | @done job p children d' t hi ht =>
    have hm : Moves s ({ s with
        data := Function.update s.data i d', shared := t, pushed := s.pushed ++ children
        finished := s.finished ++ [job] }.set i (.exchange children)) i (.exchange children) := moves_set i _
    rw [active_moves hm]
    exact hI.ended h (congrArg Phase.active hi) (.inl ⟨_, ht⟩)
  | @failed job p e d' t hi ht =>
    have hm : Moves s ({ s with
        data := Function.update s.data i d', shared := t
        abandoned := s.abandoned ++ [job] }.set i (.halting (.record (some e)))) i (.halting (.record (some e))) := moves_set i _
    rw [active_moves hm]
    exact hI.ended h (congrArg Phase.active hi) (.inr (.inl ⟨_, ht⟩))
  | @cancelled job p d' t hi ht =>
    have hm : Moves s ({ s with
        data := Function.update s.data i d', shared := t
        abandoned := s.abandoned ++ [job] }.set i (.halting (.record none))) i (.halting (.record none)) := moves_set i _
    rw [active_moves hm]
    exact hI.ended h (congrArg Phase.active hi) (.inr (.inr ht))
  | panic hi => cases hp
  | haltRecord hi => exact kept_same h (moves_set i _) (by rw [hi]; rfl)
  | haltRaise hi => exact kept_same h (moves_set i _) (by rw [hi]; rfl)
  | haltStop hi => exact kept_same h (moves_set i _) (by rw [hi]; rfl)
  | haltNotify hi => exact kept_same h (moves_wakeAll i _) (by rw [hi]; rfl)

/-- Nobody unpanics. -/
theorem panicked_step (hs : Step task s s') (hp : s'.panicked = false) : s.panicked = false := by
  have hlook : ∀ (t : State n J P D S E) (j : Fin (n + 1)), (t.look task j).panicked = t.panicked := by
    intro t j
    rcases look_cases task t j with ⟨-, he⟩ | ⟨-, js, job, -, he⟩ | ⟨-, -, -, he⟩ | ⟨-, -, -, he⟩ <;> rw [he] <;> rfl
  cases hs with
  | worker hw =>
    cases hw with
    | retire hi => rw [hlook] at hp; exact hp
    | rouse hi => rw [hlook] at hp; exact hp
    | panic hi => cases hp
    | _ => exact hp
  | spurious hi => exact hp
  | cancel => exact hp

/-- What the work keeps holds in every state of a pool, halted or not, as long as no worker panicked. -/
theorem Reachable.keeps (h : Reachable task root data shared s) (hI : Keeps task I) (h0 : I (fun _ => none) data shared)
    (hp : s.panicked = false) : I s.bag.active s.data s.shared := by
  induction h with
  | initial cancel =>
    have hnone : (State.initial root data shared cancel : State n J P D S E).bag.active = fun _ => none := by
      funext j
      show (if j = 0 then Phase.spawning 1 else Phase.unspawned : Phase J P E).active = none
      split <;> rfl
    rw [hnone]
    exact h0
  | @step t t' h hs ih =>
    have ih := ih (panicked_step hs hp)
    cases hs with
    | worker hw => exact hI.worker h.inv.counts hw hp ih
    | @spurious j hj => exact kept_same ih (moves_set j _) (by rw [hj]; rfl)
    | cancel => exact ih

theorem BagReachable.keeps {b : Bag n J P D S} (h : BagReachable task root data shared b) (hI : Keeps task I)
    (h0 : I (fun _ => none) data shared) : I b.active b.data b.shared := by
  induction h with
  | initial => exact h0
  | start h hi hj ih => exact hI.start ih hi
  | more h hi ht ih => exact hI.more ih hi ht
  | done h hi ht ih => exact hI.ended ih hi (.inl ⟨_, ht⟩)

end Kept

/-! ## The jobs of a bag -/

namespace Bag

/-- A sum over workers in which only one of them changes. -/
theorem sum_update {A M : Type*} [AddCommMonoid M] (g : A → M) (f : Fin (n + 1) → A) (i : Fin (n + 1)) (a : A) :
    ∑ j, g (Function.update f i a j) + g (f i) = ∑ j, g (f j) + g a := by
  have hsame : ∑ j ∈ Finset.univ.erase i, g (Function.update f i a j) = ∑ j ∈ Finset.univ.erase i, g (f j) :=
    Finset.sum_congr rfl fun j hj => by rw [Function.update_of_ne (Finset.ne_of_mem_erase hj)]
  rw [← Finset.add_sum_erase _ _ (Finset.mem_univ i), ← Finset.add_sum_erase _ (fun j => g (f j)) (Finset.mem_univ i),
    hsame, Function.update_self]
  ac_rfl

/-- The job a worker is at. -/
def atWork : Option (J × P) → Multiset J
  | none => 0
  | some (job, _) => {job}

theorem atWork_none : atWork (none : Option (J × P)) = 0 := rfl

theorem atWork_some (job : J) (p : P) : atWork (some (job, p)) = {job} := rfl

/-- Every job not done yet. -/
def jobs (b : Bag n J P D S) : Multiset J := b.pending + ∑ i, atWork (b.active i)

variable {b : Bag n J P D S} {i : Fin (n + 1)}

theorem jobs_start {job : J} {rest : Multiset J} (hi : b.active i = none) (hj : b.pending = {job} + rest) (p : P) :
    ({ b with pending := rest, active := Function.update b.active i (some (job, p)) } : Bag n J P D S).jobs = b.jobs := by
  have hsum := sum_update atWork b.active i (some (job, p))
  rw [hi, atWork_none, atWork_some, add_zero] at hsum
  unfold jobs
  rw [hj]
  show rest + ∑ j, atWork (Function.update b.active i (some (job, p)) j) = _
  rw [hsum]
  ac_rfl

theorem jobs_more {job : J} {p : P} (hi : b.active i = some (job, p)) (p' : P) (d : Fin (n + 1) → D) (s : S) :
    ({ b with active := Function.update b.active i (some (job, p')), data := d, shared := s } : Bag n J P D S).jobs = b.jobs := by
  have hsum := sum_update atWork b.active i (some (job, p'))
  rw [hi] at hsum
  unfold jobs
  exact congrArg (b.pending + ·) (add_right_cancel hsum)

theorem mem_jobs {job : J} {p : P} (hi : b.active i = some (job, p)) : job ∈ b.jobs := by
  refine Multiset.mem_add.2 (.inr ?_)
  rw [Multiset.mem_sum]
  exact ⟨i, Finset.mem_univ i, by rw [hi]; exact Multiset.mem_singleton_self job⟩

/-- A job done gives way to its children. -/
theorem jobs_done {job : J} {p : P} (hi : b.active i = some (job, p)) (children : Multiset J) (d : Fin (n + 1) → D) (s : S) :
    ∃ rest, b.jobs = {job} + rest ∧
      (⟨b.pending + children, Function.update b.active i none, d, s⟩ : Bag n J P D S).jobs = rest + children := by
  have hsum := sum_update atWork b.active i none
  rw [hi, atWork_none, atWork_some, add_zero] at hsum
  refine ⟨b.pending + ∑ j, atWork (Function.update b.active i none j), ?_, ?_⟩
  · unfold jobs
    rw [← hsum]
    ac_rfl
  · unfold jobs
    show b.pending + children + _ = _
    ac_rfl

end Bag

end StorageHarvester.WorkPool
