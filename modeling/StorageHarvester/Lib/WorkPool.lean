/-
A pool of workers around one shared stack of jobs. A worker keeps one child of the job it
finished, publishes the others, wakes as many idle workers as it published jobs, and retires when
there is nothing left; the last to retire stops the pool. A worker that fails, sees a cancellation
or panics halts the others. The pool is a step relation over every interleaving of the workers,
every failed spawn and every spurious wake-up. It never deadlocks, loses no job and does none
twice, stops by itself only when all work is done, and succeeds only when no worker gave up.
-/
import Mathlib.Algebra.BigOperators.Group.Finset.Piecewise
import Mathlib.Algebra.Order.BigOperators.Group.Finset
import Mathlib.Algebra.Order.Ring.Int
import Mathlib.Data.List.Dedup
import Mathlib.Data.List.GetD
import Mathlib.Data.List.Perm.Subperm
import Mathlib.Data.List.Sort
import Mathlib.Tactic.Common

namespace StorageHarvester.WorkPool

/-! ## Workers -/

/-- What one step of the work on a job comes to. -/
inductive Outcome (J P D S E : Type*) where
  | more (progress : P) (data : D) (shared : S)
  | done (children : List J) (data : D) (shared : S)
  | failed (error : E) (data : D) (shared : S)
  | cancelled (data : D) (shared : S)

/-- The work on a job, step by step, over a worker's own data and what the workers share. A step
is told whether it finds the pool cancelled or halted. -/
structure Task (J P D S E : Type*) where
  start : J → P
  step : Bool → P → D → S → Outcome J P D S E → Prop
  /-- There is always a next step. -/
  total : ∀ interrupted p d s, ∃ o, step interrupted p d s o
  /-- A step gives up as cancelled only when it finds the pool interrupted. -/
  cancelled : ∀ interrupted p d s d' s', step interrupted p d s (.cancelled d' s') → interrupted = true

/-- The stages of `halt`, each one access to shared state. -/
inductive HaltStage (E : Type*) where
  /-- Recording the error, if there is one. -/
  | record (stop : Option E)
  | raise
  | stop
  | notify

inductive Phase (J P E : Type*) where
  /-- Its thread is not started yet. -/
  | unspawned
  /-- The first worker, about to start worker `next`. -/
  | spawning (next : Nat)
  /-- The first worker, about to wake the others after it could not start worker `next`. -/
  | spawnFailed (next : Nat)
  | exchange (children : List J)
  | working (job : J) (progress : P)
  /-- Waiting on the condition variable. -/
  | waiting
  /-- Woken, about to take the lock again. -/
  | woken
  | halting (stage : HaltStage E)
  /-- Returned when the pool had stopped. -/
  | exited
  /-- Returned, or unwound, after halting the pool. -/
  | gaveUp
  /-- Its thread could not be started. -/
  | notSpawned

namespace Phase

variable {J P E : Type*}

/-- Counted in `busy`: everyone who may still hold or take a job without waiting. -/
def isBusy : Phase J P E → Nat
  | unspawned | spawning _ | spawnFailed _ | exchange _ | working _ _ | halting _ | gaveUp => 1
  | waiting | woken | exited | notSpawned => 0

/-- Counted in `idle`. -/
def isIdle : Phase J P E → Nat
  | waiting | woken => 1
  | _ => 0

/-- The jobs a worker holds. -/
def held : Phase J P E → Multiset J
  | exchange children => children
  | working job _ => {job}
  | _ => 0

/-- Waits on the condition variable, not woken yet. -/
def isWaiting : Phase J P E → Bool
  | waiting => true
  | _ => false

/-- The worker takes no further step. -/
def isOver : Phase J P E → Bool
  | exited | gaveUp | notSpawned => true
  | _ => false

/-- The worker gave up on its job. -/
def isHalt : Phase J P E → Bool
  | halting _ | gaveUp => true
  | _ => false

/-- Woken, if it was waiting. -/
def wake : Phase J P E → Phase J P E
  | waiting => woken
  | p => p

end Phase

/-! ## The pool -/

/-- `n + 1` workers, the first on the thread that runs the pool. -/
structure State (n : Nat) (J P D S E : Type*) where
  phase : Fin (n + 1) → Phase J P E
  data : Fin (n + 1) → D
  shared : S
  jobs : List J
  busy : Nat
  idle : Nat
  stopped : Bool
  halted : Bool
  cancel : Bool
  failure : Option E
  /-- Some worker panicked, which the scope the workers run in passes on. -/
  panicked : Bool
  /-- Not in the source: every job handed to the pool, every job done to its end, and every job
  some worker gave up on. -/
  pushed : List J
  finished : List J
  abandoned : List J

variable {n : Nat} {J P D S E : Type*}

namespace State

def set (s : State n J P D S E) (i : Fin (n + 1)) (p : Phase J P E) : State n J P D S E :=
  { s with phase := Function.update s.phase i p }

/-- `notify_all`. -/
def wakeAll (s : State n J P D S E) : State n J P D S E := { s with phase := fun i => (s.phase i).wake }

/-- Wakes the workers in `w`. -/
def wakeSome (s : State n J P D S E) (w : Finset (Fin (n + 1))) : State n J P D S E :=
  { s with phase := fun i => if i ∈ w then (s.phase i).wake else s.phase i }

/-- Every worker is counted busy before it starts, the first one too. -/
def initial (root : J) (data : Fin (n + 1) → D) (shared : S) (cancel : Bool) : State n J P D S E where
  phase i := if i = 0 then .spawning 1 else .unspawned
  data := data
  shared := shared
  jobs := [root]
  busy := n + 1
  idle := 0
  stopped := false
  halted := false
  cancel := cancel
  failure := none
  panicked := false
  pushed := [root]
  finished := []
  abandoned := []

/-- One round of the loop in `exchange`, under the lock. -/
def look (task : Task J P D S E) (s : State n J P D S E) (i : Fin (n + 1)) : State n J P D S E :=
  if s.stopped then s.set i .exited
  else match s.jobs.getLast? with
    | some job => { s with jobs := s.jobs.dropLast, busy := s.busy + 1 }.set i (.working job (task.start job))
    | none =>
      if s.busy = 0 then ({ s with stopped := true }.wakeAll).set i .exited
      else { s with idle := s.idle + 1 }.set i .waiting

end State

open State

/-- One step of worker `i`. -/
inductive WorkerStep (task : Task J P D S E) (i : Fin (n + 1)) : State n J P D S E → State n J P D S E → Prop
  /-- A thread starts. -/
  | spawn {s : State n J P D S E} {k : Nat} (hi : s.phase i = .spawning k) (hk : k < n + 1) :
      WorkerStep task i s ((s.set ⟨k, hk⟩ (.exchange [])).set i (.spawning (k + 1)))
  /-- A thread cannot be started: its slot is given up. -/
  | spawnFail {s : State n J P D S E} {k : Nat} (hi : s.phase i = .spawning k) (hk : k < n + 1) :
      WorkerStep task i s (({ s with busy := s.busy - 1 }.set ⟨k, hk⟩ .notSpawned).set i (.spawnFailed k))
  | spawnWake {s : State n J P D S E} {k : Nat} (hi : s.phase i = .spawnFailed k) :
      WorkerStep task i s (s.wakeAll.set i (.spawning (k + 1)))
  | spawnDone {s : State n J P D S E} {k : Nat} (hi : s.phase i = .spawning k) (hk : n + 1 ≤ k) :
      WorkerStep task i s (s.set i (.exchange []))
  /-- An only child is kept, without taking the lock. -/
  | keep {s : State n J P D S E} {own : J} (hi : s.phase i = .exchange [own]) :
      WorkerStep task i s (s.set i (.working own (task.start own)))
  /-- All children but the last are published, and idle workers woken for them. -/
  | publish {s : State n J P D S E} {rest : List J} {own : J} {w : Finset (Fin (n + 1))}
      (hi : s.phase i = .exchange (rest ++ [own])) (hr : rest ≠ [])
      (hw : ∀ j ∈ w, s.phase j = .waiting)
      (hc : w.card = min (min rest.length s.idle) (Finset.univ.filter fun j => (s.phase j).isWaiting).card) :
      WorkerStep task i s (({ s with jobs := s.jobs ++ rest }.wakeSome w).set i (.working own (task.start own)))
  | retire {s : State n J P D S E} (hi : s.phase i = .exchange []) :
      WorkerStep task i s ({ s with busy := s.busy - 1 }.look task i)
  /-- A woken worker has the lock again. -/
  | rouse {s : State n J P D S E} (hi : s.phase i = .woken) :
      WorkerStep task i s ({ s with idle := s.idle - 1 }.look task i)
  | more {s : State n J P D S E} {job : J} {p p' : P} {d' : D} {s' : S} (hi : s.phase i = .working job p)
      (ht : task.step (s.cancel || s.halted) p (s.data i) s.shared (.more p' d' s')) :
      WorkerStep task i s
        ({ s with data := Function.update s.data i d', shared := s' }.set i (.working job p'))
  | done {s : State n J P D S E} {job : J} {p : P} {children : List J} {d' : D} {s' : S} (hi : s.phase i = .working job p)
      (ht : task.step (s.cancel || s.halted) p (s.data i) s.shared (.done children d' s')) :
      WorkerStep task i s
        ({ s with
            data := Function.update s.data i d', shared := s', pushed := s.pushed ++ children
            finished := s.finished ++ [job] }.set i (.exchange children))
  | failed {s : State n J P D S E} {job : J} {p : P} {e : E} {d' : D} {s' : S} (hi : s.phase i = .working job p)
      (ht : task.step (s.cancel || s.halted) p (s.data i) s.shared (.failed e d' s')) :
      WorkerStep task i s
        ({ s with
            data := Function.update s.data i d', shared := s'
            abandoned := s.abandoned ++ [job] }.set i (.halting (.record (some e))))
  | cancelled {s : State n J P D S E} {job : J} {p : P} {d' : D} {s' : S} (hi : s.phase i = .working job p)
      (ht : task.step (s.cancel || s.halted) p (s.data i) s.shared (.cancelled d' s')) :
      WorkerStep task i s
        ({ s with
            data := Function.update s.data i d', shared := s'
            abandoned := s.abandoned ++ [job] }.set i (.halting (.record none)))
  /-- The work panics, at any point. -/
  | panic {s : State n J P D S E} {job : J} {p : P} {d' : D} {s' : S} (hi : s.phase i = .working job p) :
      WorkerStep task i s
        ({ s with
            data := Function.update s.data i d', shared := s', panicked := true
            abandoned := s.abandoned ++ [job] }.set i (.halting (.record none)))
  | haltRecord {s : State n J P D S E} {stop : Option E} (hi : s.phase i = .halting (.record stop)) :
      WorkerStep task i s ({ s with failure := s.failure.or stop }.set i (.halting .raise))
  | haltRaise {s : State n J P D S E} (hi : s.phase i = .halting .raise) :
      WorkerStep task i s ({ s with halted := true }.set i (.halting .stop))
  | haltStop {s : State n J P D S E} (hi : s.phase i = .halting .stop) :
      WorkerStep task i s ({ s with stopped := true }.set i (.halting .notify))
  | haltNotify {s : State n J P D S E} (hi : s.phase i = .halting .notify) :
      WorkerStep task i s (s.wakeAll.set i .gaveUp)

/-- A step of some worker, or of the world around the pool. -/
inductive Step (task : Task J P D S E) : State n J P D S E → State n J P D S E → Prop
  | worker {s s' : State n J P D S E} {i : Fin (n + 1)} (h : WorkerStep task i s s') : Step task s s'
  | spurious {s : State n J P D S E} {i : Fin (n + 1)} (hi : s.phase i = .waiting) : Step task s (s.set i .woken)
  | cancel {s : State n J P D S E} : Step task s { s with cancel := true }

/-- The states a pool started with one job can reach. -/
inductive Reachable (task : Task J P D S E) (root : J) (data : Fin (n + 1) → D) (shared : S) : State n J P D S E → Prop
  | initial (cancel : Bool) : Reachable task root data shared (.initial root data shared cancel)
  | step {s s' : State n J P D S E} (h : Reachable task root data shared s) (hs : Step task s s') :
      Reachable task root data shared s'

/-! ## Moves -/

namespace Phase

/-- Before the worker's thread runs, or before the first worker has tried to start all others. -/
def isSpawn : Phase J P E → Bool
  | unspawned | spawning _ | spawnFailed _ => true
  | _ => false

/-- The worker has raised `halted`. -/
def raised : Phase J P E → Bool
  | halting .stop | halting .notify | gaveUp => true
  | _ => false

/-- The worker has set `stopped` or found it set. -/
def closed : Phase J P E → Bool
  | halting .notify | gaveUp | exited => true
  | _ => false

@[simp] theorem wake_waiting : (waiting : Phase J P E).wake = woken := rfl

theorem wake_of_ne {p : Phase J P E} (h : p ≠ waiting) : p.wake = p := by
  cases p <;> first | rfl | exact absurd rfl h

theorem wake_ne_waiting (p : Phase J P E) : p.wake ≠ waiting := by cases p <;> simp [wake]

/-- Waking is seen by nothing that takes the waiting and the woken alike. -/
theorem apply_wake {M : Type*} {f : Phase J P E → M} (hf : f waiting = f woken) (p : Phase J P E) : f p.wake = f p := by
  cases p <;> first | rfl | exact hf.symm

end Phase

/-- Worker `i` moves to phase `b`; of the others some may be woken. -/
structure Moves (s s' : State n J P D S E) (i : Fin (n + 1)) (b : Phase J P E) : Prop where
  self : s'.phase i = b
  others : ∀ j, j ≠ i → s'.phase j = s.phase j ∨ s'.phase j = (s.phase j).wake

namespace Moves

variable {s s' : State n J P D S E} {i : Fin (n + 1)} {b : Phase J P E}

theorem apply (h : Moves s s' i b) {M : Type*} {f : Phase J P E → M} (hf : f .waiting = f .woken) {j : Fin (n + 1)}
    (hj : j ≠ i) : f (s'.phase j) = f (s.phase j) := by
  rcases h.others j hj with he | he
  · rw [he]
  · rw [he, Phase.apply_wake hf]

/-- The sum of a weight over the workers changes by what worker `i` weighs. -/
theorem sum (h : Moves s s' i b) {M : Type*} [AddCommMonoid M] (f : Phase J P E → M) (hf : f .waiting = f .woken) :
    (∑ j, f (s'.phase j)) + f (s.phase i) = (∑ j, f (s.phase j)) + f b := by
  rw [← Finset.add_sum_erase Finset.univ (fun j => f (s'.phase j)) (Finset.mem_univ i),
    ← Finset.add_sum_erase Finset.univ (fun j => f (s.phase j)) (Finset.mem_univ i)]
  have hrest : ∑ j ∈ Finset.univ.erase i, f (s'.phase j) = ∑ j ∈ Finset.univ.erase i, f (s.phase j) :=
    Finset.sum_congr rfl fun j hj => h.apply hf (Finset.ne_of_mem_erase hj)
  rw [hrest, h.self, add_right_comm, add_comm (f b), add_right_comm]

theorem waiting (h : Moves s s' i b) {j : Fin (n + 1)} (hj : j ≠ i) (hw : s'.phase j = .waiting) : s.phase j = .waiting := by
  rcases h.others j hj with he | he
  · rw [← he, hw]
  · rw [he] at hw; exact absurd hw (Phase.wake_ne_waiting _)

end Moves

/-- A worker's weight is part of the sum. -/
theorem le_sum (f : Phase J P E → Nat) (s : State n J P D S E) (i : Fin (n + 1)) : f (s.phase i) ≤ ∑ j, f (s.phase j) :=
  Finset.single_le_sum (f := fun j => f (s.phase j)) (fun _ _ => Nat.zero_le _) (Finset.mem_univ i)

@[simp] theorem phase_set_self (s : State n J P D S E) (i : Fin (n + 1)) (p : Phase J P E) : (s.set i p).phase i = p :=
  Function.update_self ..

theorem phase_set_of_ne {i j : Fin (n + 1)} (h : j ≠ i) (s : State n J P D S E) (p : Phase J P E) :
    (s.set i p).phase j = s.phase j := Function.update_of_ne h ..

/-- Setting one phase in a state with the same phases. -/
theorem moves_set {s t : State n J P D S E} (i : Fin (n + 1)) (b : Phase J P E) (ht : t.phase = s.phase := by rfl) :
    Moves s (t.set i b) i b :=
  ⟨phase_set_self .., fun j hj => .inl (by rw [phase_set_of_ne hj, ht])⟩

theorem moves_wakeAll {s t : State n J P D S E} (i : Fin (n + 1)) (b : Phase J P E)
    (ht : t.phase = s.phase := by rfl) : Moves s (t.wakeAll.set i b) i b :=
  ⟨phase_set_self .., fun j hj => .inr (by
    rw [phase_set_of_ne hj]
    show (t.phase j).wake = _
    rw [ht])⟩

theorem moves_wakeSome {s t : State n J P D S E} (w : Finset (Fin (n + 1))) (i : Fin (n + 1)) (b : Phase J P E)
    (ht : t.phase = s.phase := by rfl) : Moves s ((t.wakeSome w).set i b) i b :=
  ⟨phase_set_self .., fun j hj => by
    rw [phase_set_of_ne hj]
    show (if j ∈ w then (t.phase j).wake else t.phase j) = _ ∨ (if j ∈ w then (t.phase j).wake else t.phase j) = _
    rw [ht]
    split
    · exact .inr rfl
    · exact .inl rfl⟩

/-- The four outcomes of looking for a job. -/
theorem look_cases (task : Task J P D S E) (s : State n J P D S E) (i : Fin (n + 1)) :
    (s.stopped = true ∧ s.look task i = s.set i .exited) ∨
    (s.stopped = false ∧ ∃ js job, s.jobs = js ++ [job] ∧
      s.look task i = { s with jobs := js, busy := s.busy + 1 }.set i (.working job (task.start job))) ∨
    (s.stopped = false ∧ s.jobs = [] ∧ s.busy = 0 ∧
      s.look task i = ({ s with stopped := true }.wakeAll).set i .exited) ∨
    (s.stopped = false ∧ s.jobs = [] ∧ s.busy ≠ 0 ∧
      s.look task i = { s with idle := s.idle + 1 }.set i .waiting) := by
  unfold look
  cases hs : s.stopped with
  | true => exact .inl ⟨rfl, by simp⟩
  | false =>
    refine .inr ?_
    rcases List.eq_nil_or_concat s.jobs with hj | ⟨js, job, hj⟩
    · refine .inr ?_
      by_cases hb : s.busy = 0
      · exact .inl ⟨rfl, hj, hb, by simp [hj, hb]⟩
      · exact .inr ⟨rfl, hj, hb, by simp [hj, hb]⟩
    · rw [List.concat_eq_append] at hj
      exact .inl ⟨rfl, js, job, hj, by simp [hj]⟩

/-! ## Counting the workers -/

/-- `busy` and `idle` count what they say, and the first worker starts the others in order. -/
structure Counts (s : State n J P D S E) : Prop where
  busy : s.busy = ∑ i, (s.phase i).isBusy
  idle : s.idle = ∑ i, (s.phase i).isIdle
  spawning : ∀ i k, s.phase i = .spawning k → i = 0 ∧ 1 ≤ k ∧ ∀ j : Fin (n + 1), k ≤ j.val → s.phase j = .unspawned
  spawnFailed : ∀ i k, s.phase i = .spawnFailed k → i = 0 ∧ 1 ≤ k ∧ ∀ j : Fin (n + 1), k < j.val → s.phase j = .unspawned
  unspawned : ∀ i : Fin (n + 1), s.phase i = .unspawned →
    ∃ k, (k ≤ i.val ∧ s.phase 0 = .spawning k) ∨ (k < i.val ∧ s.phase 0 = .spawnFailed k)

namespace Counts

variable {s s' : State n J P D S E} {i : Fin (n + 1)} {b : Phase J P E}

theorem moves (h : Counts s) (hm : Moves s s' i b) (ha : (s.phase i).isSpawn = false) (hb : b.isSpawn = false)
    (hbusy : s'.busy + (s.phase i).isBusy = s.busy + b.isBusy) (hidle : s'.idle + (s.phase i).isIdle = s.idle + b.isIdle) :
    Counts s' := by
  have hback : ∀ j, (s'.phase j).isSpawn = true → j ≠ i ∧ s'.phase j = s.phase j := by
    intro j hj
    have hji : j ≠ i := by rintro rfl; rw [hm.self, hb] at hj; cases hj
    refine ⟨hji, ?_⟩
    rcases hm.others j hji with he | he
    · exact he
    · rw [he]
      refine Phase.wake_of_ne fun hw => ?_
      rw [he, hw] at hj; cases hj
  have hforth : ∀ j, (s.phase j).isSpawn = true → s'.phase j = s.phase j := by
    intro j hj
    have hji : j ≠ i := by rintro rfl; rw [ha] at hj; cases hj
    rcases hm.others j hji with he | he
    · exact he
    · rw [he]
      exact Phase.wake_of_ne fun hw => by rw [hw] at hj; cases hj
  have h1 := hm.sum Phase.isBusy rfl
  have h2 := hm.sum Phase.isIdle rfl
  have h3 := h.busy
  have h4 := h.idle
  refine ⟨by omega, by omega, fun j k hj => ?_, fun j k hj => ?_, fun j hj => ?_⟩
  · have hsj := (hback j (by rw [hj]; rfl)).2
    obtain ⟨h0, h1, hu⟩ := h.spawning j k (hsj ▸ hj)
    exact ⟨h0, h1, fun l hl => by rw [hforth l (by rw [hu l hl]; rfl), hu l hl]⟩
  · have hsj := (hback j (by rw [hj]; rfl)).2
    obtain ⟨h0, h1, hu⟩ := h.spawnFailed j k (hsj ▸ hj)
    exact ⟨h0, h1, fun l hl => by rw [hforth l (by rw [hu l hl]; rfl), hu l hl]⟩
  · have hsj := (hback j (by rw [hj]; rfl)).2
    obtain ⟨k, hk⟩ := h.unspawned j (hsj ▸ hj)
    refine ⟨k, ?_⟩
    rw [hforth 0 (by rcases hk with ⟨-, hk⟩ | ⟨-, hk⟩ <;> rw [hk] <;> rfl)]
    exact hk

theorem initial (root : J) (data : Fin (n + 1) → D) (shared : S) (cancel : Bool) :
    Counts (.initial root data shared cancel : State n J P D S E) := by
  have hphase : ∀ i, (State.initial root data shared cancel : State n J P D S E).phase i =
      if i = 0 then .spawning 1 else .unspawned := fun _ => rfl
  refine ⟨?_, ?_, fun i k hi => ?_, fun i k hi => ?_, fun i hi => ?_⟩
  · have hone : ∀ i, ((State.initial root data shared cancel : State n J P D S E).phase i).isBusy = 1 := by
      intro i
      rw [hphase]; split <;> rfl
    rw [Finset.sum_congr rfl fun i _ => hone i]
    simp [State.initial]
  · have hzero : ∀ i, ((State.initial root data shared cancel : State n J P D S E).phase i).isIdle = 0 := by
      intro i
      rw [hphase]; split <;> rfl
    rw [Finset.sum_congr rfl fun i _ => hzero i]
    simp [State.initial]
  · rw [hphase] at hi
    split at hi
    · rename_i h0
      cases hi
      refine ⟨h0, Nat.le_refl 1, fun j hj => ?_⟩
      rw [hphase, if_neg]
      rintro rfl
      simp at hj
    · cases hi
  · rw [hphase] at hi
    split at hi <;> cases hi
  · rw [hphase] at hi
    split at hi
    · cases hi
    · rename_i h0
      exact ⟨1, .inl ⟨Nat.one_le_iff_ne_zero.2 fun he => h0 (Fin.ext he), rfl⟩⟩

/-- The first worker's moves while it starts the others: worker `k` goes to `c`. -/
theorem spawn (h : Counts s) {k : Nat} (hi : s.phase i = .spawning k) (hk : k < n + 1) {c : Phase J P E}
    {t : State n J P D S E} (ht : t.phase = s.phase) (hc : c.isSpawn = false) (hci : c.isIdle = 0)
    (hb : b = .spawning (k + 1) ∨ b = .spawnFailed k) (hbusy : t.busy + 1 = s.busy + c.isBusy)
    (hidle : t.idle = s.idle) : Counts ((t.set ⟨k, hk⟩ c).set i b) := by
  obtain ⟨rfl, hk1, hu⟩ := h.spawning i k hi
  have hk0 : (⟨k, hk⟩ : Fin (n + 1)) ≠ 0 := fun he => by
    have := congrArg Fin.val he
    simp at this; omega
  have hki := hu ⟨k, hk⟩ (Nat.le_refl k)
  have hm1 : Moves s (t.set ⟨k, hk⟩ c) ⟨k, hk⟩ c := moves_set _ _ ht
  have hm2 : Moves (t.set ⟨k, hk⟩ c) ((t.set ⟨k, hk⟩ c).set 0 b) 0 b := moves_set _ _
  have h0 : (t.set ⟨k, hk⟩ c).phase 0 = .spawning k := by rw [phase_set_of_ne (Ne.symm hk0), ht, hi]
  have h1 := hm1.sum Phase.isBusy rfl
  have h2 := hm1.sum Phase.isIdle rfl
  have h3 := hm2.sum Phase.isBusy rfl
  have h4 := hm2.sum Phase.isIdle rfl
  rw [hki] at h1 h2
  rw [h0] at h3 h4
  have h5 := h.busy
  have h6 := h.idle
  have hbw : b.isBusy = 1 ∧ b.isIdle = 0 := by rcases hb with rfl | rfl <;> exact ⟨rfl, rfl⟩
  change _ + 1 = _ + c.isBusy at h1
  change _ + 0 = _ + c.isIdle at h2
  change _ + 1 = _ + b.isBusy at h3
  change _ + 0 = _ + b.isIdle at h4
  have hrest : ∀ j : Fin (n + 1), k < j.val → ((t.set ⟨k, hk⟩ c).set 0 b).phase j = .unspawned := by
    intro j hj
    have hj0 : j ≠ 0 := by rintro rfl; simp at hj
    have hjk : j ≠ ⟨k, hk⟩ := by rintro rfl; simp at hj
    rw [phase_set_of_ne hj0, phase_set_of_ne hjk, ht]
    exact hu j (by omega)
  have hself : ((t.set ⟨k, hk⟩ c).set 0 b).phase 0 = b := phase_set_self ..
  -- nobody else is starting threads
  have hother : ∀ j l, j ≠ 0 → ((t.set ⟨k, hk⟩ c).set 0 b).phase j ≠ .spawning l ∧
      ((t.set ⟨k, hk⟩ c).set 0 b).phase j ≠ .spawnFailed l := by
    intro j l hj0
    rw [phase_set_of_ne hj0]
    by_cases hjk : j = ⟨k, hk⟩
    · rw [hjk, phase_set_self]
      constructor <;> rintro rfl <;> cases hc
    · rw [phase_set_of_ne hjk, ht]
      exact ⟨fun he => hj0 (h.spawning j l he).1, fun he => hj0 (h.spawnFailed j l he).1⟩
  refine ⟨?_, ?_, fun j l hj => ?_, fun j l hj => ?_, fun j hj => ?_⟩
  · show t.busy = _
    omega
  · show t.idle = _
    omega
  · by_cases hj0 : j = 0
    · subst hj0
      rw [hself] at hj
      subst hj
      rcases hb with hb | hb
      · cases hb
        exact ⟨rfl, by omega, fun l hl => hrest l (by omega)⟩
      · cases hb
    · exact absurd hj (hother j l hj0).1
  · by_cases hj0 : j = 0
    · subst hj0
      rw [hself] at hj
      subst hj
      rcases hb with hb | hb
      · cases hb
      · cases hb
        exact ⟨rfl, hk1, hrest⟩
    · exact absurd hj (hother j l hj0).2
  · have hj0 : j ≠ 0 := by
      rintro rfl
      rw [hself] at hj
      rcases hb with rfl | rfl <;> cases hj
    have hjk : j ≠ ⟨k, hk⟩ := by
      rintro rfl
      rw [phase_set_of_ne hk0, phase_set_self] at hj
      rw [hj] at hc; cases hc
    rw [phase_set_of_ne hj0, phase_set_of_ne hjk, ht] at hj
    have hne : j.val ≠ k := fun he => hjk (Fin.ext he)
    have hkj : k ≤ j.val := by
      obtain ⟨l, ⟨hlj, hl⟩ | ⟨-, hl⟩⟩ := h.unspawned j hj
      · rw [hi] at hl; cases hl; exact hlj
      · rw [hi] at hl; cases hl
    rw [hself]
    rcases hb with rfl | rfl
    · exact ⟨k + 1, .inl ⟨by omega, rfl⟩⟩
    · exact ⟨k, .inr ⟨by omega, rfl⟩⟩

theorem look (h : Counts s) {task : Task J P D S E} {t : State n J P D S E} (ht : t.phase = s.phase)
    (ha : (s.phase i).isSpawn = false) (hbusy : t.busy + (s.phase i).isBusy = s.busy)
    (hidle : t.idle + (s.phase i).isIdle = s.idle) : Counts (t.look task i) := by
  rcases look_cases task t i with ⟨-, he⟩ | ⟨-, js, job, -, he⟩ | ⟨-, -, -, he⟩ | ⟨-, -, -, he⟩
  · rw [he]; exact h.moves (moves_set i _ ht) ha rfl hbusy hidle
  · rw [he]
    refine h.moves (moves_set i _ ht) ha rfl ?_ hidle
    show t.busy + 1 + _ = s.busy + 1
    omega
  · rw [he]; exact h.moves (moves_wakeAll i _ ht) ha rfl hbusy hidle
  · rw [he]
    refine h.moves (moves_set i _ ht) ha rfl hbusy ?_
    show t.idle + 1 + _ = s.idle + 1
    omega

theorem step (h : Counts s) {task : Task J P D S E} (hs : WorkerStep task i s s') : Counts s' := by
  have hpos := le_sum Phase.isBusy s i
  have hidle := le_sum Phase.isIdle s i
  rw [← h.busy] at hpos
  rw [← h.idle] at hidle
  cases hs with
  | spawn hi hk => exact h.spawn hi hk rfl rfl rfl (.inl rfl) rfl rfl
  | spawnFail hi hk =>
    rw [hi] at hpos
    refine h.spawn hi hk rfl rfl rfl (.inr rfl) ?_ rfl
    show s.busy - 1 + 1 = s.busy + 0
    exact Nat.sub_add_cancel hpos
  | @spawnWake k hi =>
    obtain ⟨rfl, hk, hu⟩ := h.spawnFailed i k hi
    have hm : Moves s (s.wakeAll.set 0 (.spawning (k + 1))) 0 (.spawning (k + 1)) := moves_wakeAll _ _
    have h1 := hm.sum Phase.isBusy rfl
    have h2 := hm.sum Phase.isIdle rfl
    rw [hi] at h1 h2
    have hback : ∀ j, j ≠ 0 → ((s.wakeAll.set 0 (.spawning (k + 1))).phase j).isSpawn = true →
        (s.wakeAll.set 0 (.spawning (k + 1))).phase j = s.phase j := by
      intro j hj he
      rw [phase_set_of_ne hj] at he ⊢
      show (s.phase j).wake = _
      refine Phase.wake_of_ne fun hw => ?_
      change ((s.phase j).wake).isSpawn = true at he
      rw [hw] at he; cases he
    refine ⟨?_, ?_, fun j l hj => ?_, fun j l hj => ?_, fun j hj => ?_⟩
    · show s.busy = _
      have := h.busy
      change _ + 1 = _ + 1 at h1
      omega
    · show s.idle = _
      have := h.idle
      change _ + 0 = _ + 0 at h2
      omega
    · by_cases hj0 : j = 0
      · subst hj0
        rw [phase_set_self] at hj
        cases hj
        refine ⟨rfl, by omega, fun m hm => ?_⟩
        have hm0 : m ≠ 0 := by rintro rfl; simp at hm
        rw [phase_set_of_ne hm0]
        show (s.phase m).wake = _
        rw [hu m (by omega)]
        rfl
      · rw [hback j hj0 (by rw [hj]; rfl)] at hj
        exact absurd (h.spawning j l hj).1 hj0
    · have hj0 : j ≠ 0 := by rintro rfl; rw [phase_set_self] at hj; cases hj
      rw [hback j hj0 (by rw [hj]; rfl)] at hj
      exact absurd (h.spawnFailed j l hj).1 hj0
    · have hj0 : j ≠ 0 := by rintro rfl; rw [phase_set_self] at hj; cases hj
      rw [hback j hj0 (by rw [hj]; rfl)] at hj
      obtain ⟨l, ⟨-, hl⟩ | ⟨hlj, hl⟩⟩ := h.unspawned j hj
      · rw [hi] at hl; cases hl
      · rw [hi] at hl
        cases hl
        exact ⟨k + 1, .inl ⟨hlj, phase_set_self ..⟩⟩
  | @spawnDone k hi hk =>
    obtain ⟨rfl, -, -⟩ := h.spawning i k hi
    have hm : Moves s (s.set 0 (.exchange [])) 0 (.exchange []) := moves_set _ _
    have h1 := hm.sum Phase.isBusy rfl
    have h2 := hm.sum Phase.isIdle rfl
    rw [hi] at h1 h2
    have hne : ∀ {j l}, ((s.set 0 (.exchange [])).phase j = .spawning l ∨ (s.set 0 (.exchange [])).phase j = .spawnFailed l ∨
        (s.set 0 (.exchange [])).phase j = .unspawned) → False := by
      intro j l hj
      by_cases hj0 : j = 0
      · subst hj0
        rw [phase_set_self] at hj
        rcases hj with hj | hj | hj <;> cases hj
      · rw [phase_set_of_ne hj0] at hj
        rcases hj with hj | hj | hj
        · exact hj0 (h.spawning j l hj).1
        · exact hj0 (h.spawnFailed j l hj).1
        · -- everyone has been tried
          have := j.isLt
          obtain ⟨m, ⟨hmj, hm⟩ | ⟨-, hm⟩⟩ := h.unspawned j hj
          · rw [hi] at hm; cases hm; omega
          · rw [hi] at hm; cases hm
    refine ⟨?_, ?_, fun j l hj => (hne (.inl hj)).elim, fun j l hj => (hne (.inr (.inl hj))).elim,
      fun j hj => (hne (l := 0) (.inr (.inr hj))).elim⟩
    · show s.busy = _
      have := h.busy
      change _ + 1 = _ + 1 at h1
      omega
    · show s.idle = _
      have := h.idle
      change _ + 0 = _ + 0 at h2
      omega
  | keep hi => exact h.moves (moves_set i _) (by rw [hi]; rfl) rfl (by rw [hi]; rfl) (by rw [hi]; rfl)
  | publish hi hr hw hc =>
    exact h.moves (moves_wakeSome _ i _) (by rw [hi]; rfl) rfl (by rw [hi]; rfl) (by rw [hi]; rfl)
  | retire hi =>
    rw [hi] at hpos
    refine h.look rfl (by rw [hi]; rfl) ?_ (by rw [hi]; rfl)
    rw [hi]
    exact Nat.sub_add_cancel hpos
  | rouse hi =>
    rw [hi] at hidle
    refine h.look rfl (by rw [hi]; rfl) (by rw [hi]; rfl) ?_
    rw [hi]
    exact Nat.sub_add_cancel hidle
  | more hi ht => exact h.moves (moves_set i _) (by rw [hi]; rfl) rfl (by rw [hi]; rfl) (by rw [hi]; rfl)
  | done hi ht => exact h.moves (moves_set i _) (by rw [hi]; rfl) rfl (by rw [hi]; rfl) (by rw [hi]; rfl)
  | failed hi ht => exact h.moves (moves_set i _) (by rw [hi]; rfl) rfl (by rw [hi]; rfl) (by rw [hi]; rfl)
  | cancelled hi ht => exact h.moves (moves_set i _) (by rw [hi]; rfl) rfl (by rw [hi]; rfl) (by rw [hi]; rfl)
  | panic hi => exact h.moves (moves_set i _) (by rw [hi]; rfl) rfl (by rw [hi]; rfl) (by rw [hi]; rfl)
  | haltRecord hi => exact h.moves (moves_set i _) (by rw [hi]; rfl) rfl (by rw [hi]; rfl) (by rw [hi]; rfl)
  | haltRaise hi => exact h.moves (moves_set i _) (by rw [hi]; rfl) rfl (by rw [hi]; rfl) (by rw [hi]; rfl)
  | haltStop hi => exact h.moves (moves_set i _) (by rw [hi]; rfl) rfl (by rw [hi]; rfl) (by rw [hi]; rfl)
  | haltNotify hi => exact h.moves (moves_wakeAll i _) (by rw [hi]; rfl) rfl (by rw [hi]; rfl) (by rw [hi]; rfl)

end Counts

end StorageHarvester.WorkPool
