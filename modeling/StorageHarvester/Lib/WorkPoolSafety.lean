/-
What holds of a work pool in every reachable state: it never deadlocks, it stops by itself only
when no job is queued or held, every job handed to it is in exactly one place, and it succeeds only
when no worker gave up, so that then every job was done exactly once.
-/
import StorageHarvester.Lib.WorkPool

namespace StorageHarvester.WorkPool

variable {n : Nat} {J P D S E : Type*}

open State

/-! ## Stopping -/

/-- While the pool runs some worker is busy. -/
def Running (s : State n J P D S E) : Prop := s.stopped = false → 0 < s.busy

theorem Counts.running {s : State n J P D S E} {i : Fin (n + 1)} (h : Counts s) (hi : (s.phase i).isBusy = 1) : Running s :=
  fun _ => by
    have := le_sum Phase.isBusy s i
    rw [hi, ← h.busy] at this
    exact this

theorem running_look {task : Task J P D S E} {s : State n J P D S E} {i : Fin (n + 1)} (h : Counts (s.look task i)) :
    Running (s.look task i) := by
  rcases look_cases task s i with ⟨hs, he⟩ | ⟨-, js, job, -, he⟩ | ⟨-, -, -, he⟩ | ⟨-, -, hb, he⟩
  · rw [he]
    intro hf
    change s.stopped = false at hf
    rw [hs] at hf; cases hf
  · rw [he] at h ⊢
    exact h.running (i := i) (by rw [phase_set_self]; rfl)
  · rw [he]
    intro hf
    cases hf
  · rw [he]
    exact fun _ => Nat.pos_of_ne_zero hb

theorem running_step {task : Task J P D S E} {s s' : State n J P D S E} {i : Fin (n + 1)} (h : Counts s')
    (hs : WorkerStep task i s s') : Running s' := by
  cases hs with
  | retire hi => exact running_look h
  | rouse hi => exact running_look h
  | _ => exact h.running (i := i) (by rw [phase_set_self]; rfl)

/-- What holds of a pool that has stopped, and of the workers that halt it. -/
structure Stops (s : State n J P D S E) : Prop where
  /-- A worker left waiting is about to be woken. -/
  waiting : s.stopped = true → ∀ i, s.phase i = .waiting → ∃ j, s.phase j = .halting .notify
  /-- A pool that stopped by itself has no job left, queued or held. -/
  quiet : s.stopped = true → s.halted = false → s.jobs = [] ∧ ∀ i, (s.phase i).isBusy = 0
  raised : ∀ i, (s.phase i).raised = true → s.halted = true
  closed : ∀ i, (s.phase i).closed = true → s.stopped = true

namespace Stops

variable {s s' : State n J P D S E} {i : Fin (n + 1)} {b : Phase J P E}

theorem moves (h : Stops s) (hm : Moves s s' i b) (hstop : s'.stopped = s.stopped)
    (hhalt : s.halted = true → s'.halted = true) (hn : s.phase i ≠ .halting .notify)
    (hw : b = .waiting → s'.stopped = false)
    (hq : (s.phase i).isBusy = 1 ∨ (s'.jobs = s.jobs ∧ (s'.stopped = true → b.isBusy = 0)))
    (hr : b.raised = true → s'.halted = true) (hc : b.closed = true → s'.stopped = true) : Stops s' where
  waiting := fun hs' j hj => by
    have hji : j ≠ i := by
      rintro rfl
      rw [hm.self] at hj
      rw [hw hj] at hs'; cases hs'
    obtain ⟨l, hl⟩ := h.waiting (hstop ▸ hs') j (hm.waiting hji hj)
    have hli : l ≠ i := by rintro rfl; exact hn hl
    refine ⟨l, ?_⟩
    rcases hm.others l hli with he | he <;> rw [he, hl]
    rfl
  quiet := fun hs' hh' => by
    have hh : s.halted = false := by
      by_contra hc
      rw [hhalt (by simpa using hc)] at hh'; cases hh'
    obtain ⟨hjobs, hbusy⟩ := h.quiet (hstop ▸ hs') hh
    rcases hq with hq | ⟨hj, hb⟩
    · rw [hbusy i] at hq; cases hq
    · refine ⟨hj.trans hjobs, fun j => ?_⟩
      by_cases hji : j = i
      · rw [hji, hm.self, hb hs']
      · rw [hm.apply (f := Phase.isBusy) rfl hji, hbusy]
  raised := fun j hj => by
    by_cases hji : j = i
    · rw [hji, hm.self] at hj; exact hr hj
    · rw [hm.apply (f := Phase.raised) rfl hji] at hj; exact hhalt (h.raised j hj)
  closed := fun j hj => by
    by_cases hji : j = i
    · rw [hji, hm.self] at hj; exact hc hj
    · rw [hm.apply (f := Phase.closed) rfl hji] at hj; rw [hstop]; exact h.closed j hj

/-- A pool in which everyone has just been woken waits for no one. -/
theorem woken (h : Stops s) {t : State n J P D S E} (ht : t.phase = s.phase) (hb : b ≠ .waiting)
    (hhalt : t.halted = s.halted) (hstop : t.stopped = true)
    (hq : t.halted = false → t.jobs = [] ∧ b.isBusy = 0 ∧ ∀ j, j ≠ i → (s.phase j).isBusy = 0)
    (hr : b.raised = true → t.halted = true) : Stops (t.wakeAll.set i b) := by
  have hm : Moves s (t.wakeAll.set i b) i b := moves_wakeAll i b ht
  refine ⟨fun _ j hj => ?_, fun _ hh => ?_, fun j hj => ?_, fun _ _ => hstop⟩
  · by_cases hji : j = i
    · rw [hji, hm.self] at hj; exact absurd hj hb
    · rw [phase_set_of_ne hji] at hj
      exact absurd hj (Phase.wake_ne_waiting (t.phase j))
  · obtain ⟨hjobs, hbusy, hrest⟩ := hq hh
    refine ⟨hjobs, fun j => ?_⟩
    by_cases hji : j = i
    · rw [hji, hm.self, hbusy]
    · rw [hm.apply (f := Phase.isBusy) rfl hji, hrest j hji]
  · show t.halted = true
    by_cases hji : j = i
    · rw [hji, hm.self] at hj; exact hr hj
    · rw [hm.apply (f := Phase.raised) rfl hji] at hj
      rw [hhalt]; exact h.raised j hj

theorem initial (root : J) (data : Fin (n + 1) → D) (shared : S) (cancel : Bool) :
    Stops (.initial root data shared cancel : State n J P D S E) := by
  have hphase : ∀ i, (State.initial root data shared cancel : State n J P D S E).phase i =
      if i = 0 then .spawning 1 else .unspawned := fun _ => rfl
  refine ⟨fun hs => (by cases hs), fun hs => (by cases hs), fun i hi => ?_, fun i hi => ?_⟩
  · rw [hphase] at hi
    split at hi <;> cases hi
  · rw [hphase] at hi
    split at hi <;> cases hi

/-- Nothing is asked of a pool that has not stopped but that no worker has closed it. -/
theorem unstopped (h : Stops s) (hm : Moves s s' i b) (hs : s.stopped = false) (hs' : s'.stopped = false)
    (hhalt : s'.halted = s.halted) (hr : b.raised = false) (hc : b.closed = false) : Stops s' := by
  refine ⟨fun hf => ?_, fun hf => ?_, fun j hj => ?_, fun j hj => ?_⟩
  · rw [hs'] at hf; cases hf
  · rw [hs'] at hf; cases hf
  · by_cases hji : j = i
    · rw [hji, hm.self, hr] at hj; cases hj
    · rw [hm.apply (f := Phase.raised) rfl hji] at hj
      exact hhalt.trans (h.raised j hj)
  · by_cases hji : j = i
    · rw [hji, hm.self, hc] at hj; cases hj
    · rw [hm.apply (f := Phase.closed) rfl hji] at hj
      have := h.closed j hj
      rw [hs] at this; cases this

/-- Looking for a job, by a worker that is no longer counted busy or idle. -/
theorem look (h : Stops s) (hc : Counts s) {task : Task J P D S E} {t : State n J P D S E} (ht : t.phase = s.phase)
    (hstop : t.stopped = s.stopped) (hhalt : t.halted = s.halted) (hjobs : t.jobs = s.jobs)
    (hbusy : t.busy + (s.phase i).isBusy = s.busy) (hn : s.phase i ≠ .halting .notify) : Stops (t.look task i) := by
  rcases look_cases task t i with ⟨hs, he⟩ | ⟨hs, js, job, -, he⟩ | ⟨hs, hj, hb, he⟩ | ⟨hs, -, -, he⟩
  · rw [he]
    exact h.moves (moves_set i _ ht) hstop (fun hh => hhalt.trans hh) hn (by simp) (.inr ⟨hjobs, fun _ => rfl⟩) (by simp [Phase.raised])
      fun _ => hs
  · rw [he]; exact h.unstopped (moves_set i _ ht) (hstop ▸ hs) hs hhalt rfl rfl
  · rw [he]
    refine h.woken (t := { t with stopped := true }) ht (by simp) hhalt rfl (fun _ => ⟨hj, rfl, fun j hji => ?_⟩) (by simp [Phase.raised])
    -- no one else is busy
    have hsum := hc.busy
    have hmv : Moves s (s.set i .exited) i .exited := moves_set i _
    have h1 := hmv.sum Phase.isBusy rfl
    have h2 := le_sum Phase.isBusy (s.set i .exited) j
    rw [phase_set_of_ne hji] at h2
    change _ + _ = _ + 0 at h1
    omega
  · rw [he]; exact h.unstopped (moves_set i _ ht) (hstop ▸ hs) hs hhalt rfl rfl

/-- A busy worker goes on being busy. -/
theorem busy (h : Stops s) (hm : Moves s s' i b) (hstop : s'.stopped = s.stopped) (hhalt : s'.halted = s.halted)
    (ha : (s.phase i).isBusy = 1) (hn : s.phase i ≠ .halting .notify) (hb : b.isBusy = 1) (hr : b.raised = true → s.halted = true)
    (hc : b.closed = true → s.stopped = true) : Stops s' :=
  h.moves hm hstop (fun hh => hhalt.trans hh) hn (by rintro rfl; cases hb) (.inl ha) (fun hh => hhalt.trans (hr hh))
    fun hh => hstop.trans (hc hh)

theorem step (h : Stops s) (hc : Counts s) {task : Task J P D S E} (hs : WorkerStep task i s s') : Stops s' := by
  have hpos := le_sum Phase.isBusy s i
  rw [← hc.busy] at hpos
  have hready : ∀ {a : Phase J P E}, s.phase i = a → a ≠ .halting .notify → s.phase i ≠ .halting .notify :=
    fun ha hne => by rw [ha]; exact hne
  cases hs with
  | @spawn k hi hk =>
    have hu := (hc.spawning i k hi).2.2 ⟨k, hk⟩ (Nat.le_refl k)
    have hki : i ≠ ⟨k, hk⟩ := fun he => by rw [he, hu] at hi; cases hi
    have h1 : Stops (s.set ⟨k, hk⟩ (.exchange [])) :=
      h.busy (moves_set _ _) rfl rfl (by rw [hu]; rfl) (by rw [hu]; simp) rfl (by simp [Phase.raised]) (by simp [Phase.closed])
    have hi' : (s.set ⟨k, hk⟩ (.exchange [])).phase i = .spawning k := by rw [phase_set_of_ne hki, hi]
    exact h1.busy (moves_set _ _) rfl rfl (by rw [hi']; rfl) (by rw [hi']; simp) rfl (by simp [Phase.raised]) (by simp [Phase.closed])
  | @spawnFail k hi hk =>
    have hu := (hc.spawning i k hi).2.2 ⟨k, hk⟩ (Nat.le_refl k)
    have hki : i ≠ ⟨k, hk⟩ := fun he => by rw [he, hu] at hi; cases hi
    have h1 : Stops ({ s with busy := s.busy - 1 }.set ⟨k, hk⟩ .notSpawned) :=
      h.moves (moves_set _ _) rfl id (by rw [hu]; simp) (by simp) (.inl (by rw [hu]; rfl)) (by simp [Phase.raised]) (by simp [Phase.closed])
    have hi' : ({ s with busy := s.busy - 1 }.set ⟨k, hk⟩ .notSpawned).phase i = .spawning k := by
      rw [phase_set_of_ne hki, hi]
    exact h1.busy (moves_set _ _) rfl rfl (by rw [hi']; rfl) (by rw [hi']; simp) rfl (by simp [Phase.raised]) (by simp [Phase.closed])
  | spawnWake hi =>
    exact h.busy (moves_wakeAll _ _) rfl rfl (by rw [hi]; rfl) (hready hi (by simp)) rfl (by simp [Phase.raised]) (by simp [Phase.closed])
  | spawnDone hi hk =>
    exact h.busy (moves_set _ _) rfl rfl (by rw [hi]; rfl) (hready hi (by simp)) rfl (by simp [Phase.raised]) (by simp [Phase.closed])
  | keep hi =>
    exact h.busy (moves_set _ _) rfl rfl (by rw [hi]; rfl) (hready hi (by simp)) rfl (by simp [Phase.raised]) (by simp [Phase.closed])
  | publish hi hr hw hcard =>
    exact h.busy (moves_wakeSome _ _ _) rfl rfl (by rw [hi]; rfl) (hready hi (by simp)) rfl (by simp [Phase.raised])
      (by simp [Phase.closed])
  | retire hi =>
    rw [hi] at hpos
    refine h.look hc rfl rfl rfl rfl ?_ (hready hi (by simp))
    rw [hi]
    exact Nat.sub_add_cancel hpos
  | rouse hi => exact h.look hc rfl rfl rfl rfl (by rw [hi]; rfl) (hready hi (by simp))
  | more hi ht =>
    exact h.busy (moves_set _ _) rfl rfl (by rw [hi]; rfl) (hready hi (by simp)) rfl (by simp [Phase.raised]) (by simp [Phase.closed])
  | done hi ht =>
    exact h.busy (moves_set _ _) rfl rfl (by rw [hi]; rfl) (hready hi (by simp)) rfl (by simp [Phase.raised]) (by simp [Phase.closed])
  | failed hi ht =>
    exact h.busy (moves_set _ _) rfl rfl (by rw [hi]; rfl) (hready hi (by simp)) rfl (by simp [Phase.raised]) (by simp [Phase.closed])
  | cancelled hi ht =>
    exact h.busy (moves_set _ _) rfl rfl (by rw [hi]; rfl) (hready hi (by simp)) rfl (by simp [Phase.raised]) (by simp [Phase.closed])
  | panic hi =>
    exact h.busy (moves_set _ _) rfl rfl (by rw [hi]; rfl) (hready hi (by simp)) rfl (by simp [Phase.raised]) (by simp [Phase.closed])
  | haltRecord hi =>
    exact h.busy (moves_set _ _) rfl rfl (by rw [hi]; rfl) (hready hi (by simp)) rfl (by simp [Phase.raised]) (by simp [Phase.closed])
  | haltRaise hi =>
    exact h.moves (moves_set _ _) rfl (fun _ => rfl) (hready hi (by simp)) (by simp) (.inl (by rw [hi]; rfl)) (fun _ => rfl)
      (by simp [Phase.closed])
  | haltStop hi =>
    have hh : s.halted = true := h.raised i (by rw [hi]; rfl)
    have hm : Moves s ({ s with stopped := true }.set i (.halting .notify)) i (.halting .notify) := moves_set _ _
    refine ⟨fun _ j _ => ⟨i, hm.self⟩, fun _ hf => ?_, fun _ _ => hh, fun _ _ => rfl⟩
    change s.halted = false at hf
    rw [hh] at hf; cases hf
  | haltNotify hi =>
    have hh : s.halted = true := h.raised i (by rw [hi]; rfl)
    refine h.woken (t := s) rfl (by simp) rfl (h.closed i (by rw [hi]; rfl)) (fun hf => ?_) fun _ => hh
    rw [hh] at hf; cases hf

end Stops

/-! ## The ledger of jobs -/

/-- Why a worker may give up: some error, cancellation or panic is on record, or about to be. -/
def Cause (s : State n J P D S E) : Prop :=
  s.failure.isSome = true ∨ s.cancel = true ∨ s.panicked = true ∨ ∃ i e, s.phase i = .halting (.record (some e))

/-- Every job handed to the pool is in one place: queued, held by a worker, finished, or given up. -/
structure Ledger (s : State n J P D S E) : Prop where
  conserved : (s.pushed : Multiset J) = (s.jobs : Multiset J) + ∑ i, (s.phase i).held + (s.finished : Multiset J) + (s.abandoned : Multiset J)
  gave : s.abandoned = [] ↔ ∀ i, (s.phase i).isHalt = false
  raised : s.halted = true → s.abandoned ≠ []
  cause : s.abandoned ≠ [] → Cause s

namespace Ledger

variable {s s' : State n J P D S E} {i : Fin (n + 1)} {b : Phase J P E}

/-- What a move does to the ledger. -/
theorem conserved_moves (h : Ledger s) (hm : Moves s s' i b)
    (hc : (s'.pushed : Multiset J) + ((s.jobs : Multiset J) + (s.phase i).held + (s.finished : Multiset J) + (s.abandoned : Multiset J)) =
      (s.pushed : Multiset J) + ((s'.jobs : Multiset J) + b.held + (s'.finished : Multiset J) + (s'.abandoned : Multiset J))) :
    (s'.pushed : Multiset J) = (s'.jobs : Multiset J) + ∑ j, (s'.phase j).held + (s'.finished : Multiset J) + (s'.abandoned : Multiset J) := by
  have hsum := hm.sum Phase.held rfl
  rw [h.conserved] at hc
  refine add_right_cancel (b := (s.jobs : Multiset J) + (s.phase i).held + (s.finished : Multiset J) + (s.abandoned : Multiset J)) (hc.trans ?_)
  generalize (s.jobs : Multiset J) = q at *
  generalize (s.finished : Multiset J) = f at *
  generalize (s.abandoned : Multiset J) = a at *
  generalize (s'.jobs : Multiset J) = q' at *
  generalize (s'.finished : Multiset J) = f' at *
  generalize (s'.abandoned : Multiset J) = a' at *
  calc q + ∑ j, (s.phase j).held + f + a + (q' + b.held + f' + a')
      = q + f + a + (q' + f' + a') + (∑ j, (s.phase j).held + b.held) := by ac_rfl
    _ = q + f + a + (q' + f' + a') + (∑ j, (s'.phase j).held + (s.phase i).held) := by rw [hsum]
    _ = q' + ∑ j, (s'.phase j).held + f' + a' + (q + (s.phase i).held + f + a) := by ac_rfl

/-- A move that gives up no job. -/
theorem moves (h : Ledger s) (hm : Moves s s' i b) (ha : s'.abandoned = s.abandoned)
    (hc : (s'.pushed : Multiset J) + ((s.jobs : Multiset J) + (s.phase i).held + (s.finished : Multiset J)) =
      (s.pushed : Multiset J) + ((s'.jobs : Multiset J) + b.held + (s'.finished : Multiset J)))
    (hb : b.isHalt = (s.phase i).isHalt) (hhalt : s'.halted = true → s.halted = true ∨ (s.phase i).isHalt = true)
    (hf : s.failure.isSome = true → s'.failure.isSome = true) (hcancel : s'.cancel = s.cancel) (hp : s'.panicked = s.panicked)
    (hrec : ∀ e, s.phase i = .halting (.record (some e)) → s'.failure.isSome = true) : Ledger s' where
  conserved := by
    refine h.conserved_moves hm ?_
    have := congrArg (· + (s.abandoned : Multiset J)) hc
    simp only [add_assoc] at this ⊢
    rw [ha]; exact this
  gave := by
    have hsame : ∀ j, (s'.phase j).isHalt = (s.phase j).isHalt := fun j => by
      by_cases hji : j = i
      · rw [hji, hm.self, hb]
      · exact hm.apply (f := Phase.isHalt) rfl hji
    rw [ha, h.gave]
    simp only [hsame]
  raised := fun hs => by
    rw [ha]
    rcases hhalt hs with hs | hs
    · exact h.raised hs
    · intro he
      have := h.gave.1 he i
      rw [hs] at this; cases this
  cause := fun hs => by
    rcases h.cause (ha ▸ hs) with hs | hs | hs | ⟨j, e, hj⟩
    · exact .inl (hf hs)
    · exact .inr (.inl (hcancel.trans hs))
    · exact .inr (.inr (.inl (hp.trans hs)))
    · by_cases hji : j = i
      · exact .inl (hrec e (hji ▸ hj))
      · refine .inr (.inr (.inr ⟨j, e, ?_⟩))
        rcases hm.others j hji with he | he <;> rw [he, hj]
        rfl

/-- Looking for a job. -/
theorem look (h : Ledger s) {task : Task J P D S E} {t : State n J P D S E} (ht : t.phase = s.phase) (hjobs : t.jobs = s.jobs)
    (hpushed : t.pushed = s.pushed) (hfin : t.finished = s.finished) (ha : t.abandoned = s.abandoned)
    (hhalt : t.halted = s.halted) (hf : t.failure = s.failure) (hcancel : t.cancel = s.cancel) (hp : t.panicked = s.panicked)
    (hheld : (s.phase i).held = 0) (hnot : (s.phase i).isHalt = false) : Ledger (t.look task i) := by
  have hrec : ∀ e, s.phase i ≠ .halting (.record (some e)) := fun e he => by rw [he] at hnot; cases hnot
  rcases look_cases task t i with ⟨-, he⟩ | ⟨-, js, job, hj, he⟩ | ⟨-, -, -, he⟩ | ⟨-, -, -, he⟩
  · rw [he]
    refine h.moves (moves_set i _ ht) ha ?_ (by rw [hnot]; rfl) (fun hh => .inl (hhalt ▸ hh)) (fun hh => by rw [← hf] at hh; exact hh)
      hcancel hp fun e he => absurd he (hrec e)
    show (t.pushed : Multiset J) + _ = _ + ((t.jobs : Multiset J) + 0 + (t.finished : Multiset J))
    rw [hjobs, hpushed, hfin, hheld]
  · rw [he]
    refine h.moves (moves_set i _ ht) ha ?_ (by rw [hnot]; rfl) (fun hh => .inl (hhalt ▸ hh)) (fun hh => by rw [← hf] at hh; exact hh)
      hcancel hp fun e he => absurd he (hrec e)
    show (t.pushed : Multiset J) + _ = _ + ((js : Multiset J) + {job} + (t.finished : Multiset J))
    rw [hpushed, hfin, hheld, ← hjobs, hj, ← Multiset.coe_add, Multiset.coe_singleton, add_zero]
  · rw [he]
    refine h.moves (moves_wakeAll i _ ht) ha ?_ (by rw [hnot]; rfl) (fun hh => .inl (hhalt ▸ hh)) (fun hh => by rw [← hf] at hh; exact hh)
      hcancel hp fun e he => absurd he (hrec e)
    show (t.pushed : Multiset J) + _ = _ + ((t.jobs : Multiset J) + 0 + (t.finished : Multiset J))
    rw [hjobs, hpushed, hfin, hheld]
  · rw [he]
    refine h.moves (moves_set i _ ht) ha ?_ (by rw [hnot]; rfl) (fun hh => .inl (hhalt ▸ hh)) (fun hh => by rw [← hf] at hh; exact hh)
      hcancel hp fun e he => absurd he (hrec e)
    show (t.pushed : Multiset J) + _ = _ + ((t.jobs : Multiset J) + 0 + (t.finished : Multiset J))
    rw [hjobs, hpushed, hfin, hheld]

/-- A worker gives its job up, for a cause. -/
theorem giveUp (h : Ledger s) (hm : Moves s s' i b) {job : J} (hheld : (s.phase i).held = {job}) (hb : b.held = 0)
    (hh : b.isHalt = true) (ha : s'.abandoned = s.abandoned ++ [job]) (hjobs : s'.jobs = s.jobs) (hpushed : s'.pushed = s.pushed)
    (hfin : s'.finished = s.finished) (hcause : Cause s') : Ledger s' where
  conserved := by
    refine h.conserved_moves hm ?_
    rw [ha, hjobs, hpushed, hfin, hheld, hb, ← Multiset.coe_add, Multiset.coe_singleton]
    ac_rfl
  gave := by
    refine ⟨fun hs => ?_, fun hs => ?_⟩
    · rw [ha] at hs; simp at hs
    · have := hs i
      rw [hm.self, hh] at this; cases this
  raised := fun _ => by rw [ha]; simp
  cause := fun _ => hcause

theorem cause_of_interrupted (h : Ledger s) (hi : (s.cancel || s.halted) = true) : Cause s := by
  rcases Bool.or_eq_true_iff.1 hi with hc | hh
  · exact .inr (.inl hc)
  · exact h.cause (h.raised hh)

/-- A cause stays when a working worker moves. -/
theorem cause_working (hm : Moves s s' i b) {job : J} {p : P} (hi : s.phase i = .working job p)
    (hf : s'.failure = s.failure) (hcancel : s'.cancel = s.cancel) (hp : s'.panicked = s.panicked) (hc : Cause s) : Cause s' := by
  rcases hc with hs | hs | hs | ⟨j, e, hj⟩
  · exact .inl (by rw [hf]; exact hs)
  · exact .inr (.inl (hcancel.trans hs))
  · exact .inr (.inr (.inl (hp.trans hs)))
  · have hji : j ≠ i := by rintro rfl; rw [hi] at hj; cases hj
    refine .inr (.inr (.inr ⟨j, e, ?_⟩))
    rcases hm.others j hji with he | he <;> rw [he, hj]
    rfl

theorem initial (root : J) (data : Fin (n + 1) → D) (shared : S) (cancel : Bool) :
    Ledger (.initial root data shared cancel : State n J P D S E) := by
  have hphase : ∀ i, (State.initial root data shared cancel : State n J P D S E).phase i =
      if i = 0 then .spawning 1 else .unspawned := fun _ => rfl
  refine ⟨?_, ⟨fun _ i => ?_, fun _ => rfl⟩, fun hs => (by cases hs), fun hs => absurd rfl hs⟩
  · have hzero : ∀ i, ((State.initial root data shared cancel : State n J P D S E).phase i).held = 0 := by
      intro i
      rw [hphase]; split <;> rfl
    rw [Finset.sum_congr rfl fun i _ => hzero i, Finset.sum_const_zero]
    simp [State.initial]
  · rw [hphase]; split <;> rfl

/-- A move that touches neither jobs nor causes. -/
theorem quiet (h : Ledger s) (hm : Moves s s' i b) (hheld : b.held = (s.phase i).held) (hb : b.isHalt = (s.phase i).isHalt)
    (hrec : ∀ e, s.phase i ≠ .halting (.record (some e))) (ha : s'.abandoned = s.abandoned := by rfl)
    (hpushed : s'.pushed = s.pushed := by rfl) (hjobs : s'.jobs = s.jobs := by rfl) (hfin : s'.finished = s.finished := by rfl)
    (hhalt : s'.halted = s.halted := by rfl) (hf : s'.failure = s.failure := by rfl) (hcancel : s'.cancel = s.cancel := by rfl)
    (hp : s'.panicked = s.panicked := by rfl) : Ledger s' :=
  h.moves hm ha (by rw [hpushed, hjobs, hfin, hheld]) hb (fun hh => .inl (hhalt ▸ hh)) (fun hh => by rw [hf]; exact hh) hcancel hp
    fun e he => absurd he (hrec e)

theorem step (h : Ledger s) (hc : Counts s) {task : Task J P D S E} (hs : WorkerStep task i s s') : Ledger s' := by
  cases hs with
  | @spawn k hi hk =>
    have hu := (hc.spawning i k hi).2.2 ⟨k, hk⟩ (Nat.le_refl k)
    have hki : i ≠ ⟨k, hk⟩ := fun he => by rw [he, hu] at hi; cases hi
    have h1 : Ledger (s.set ⟨k, hk⟩ (.exchange [])) :=
      h.quiet (moves_set _ _) (by rw [hu]; rfl) (by rw [hu]; rfl) (by rw [hu]; simp)
    have hi' : (s.set ⟨k, hk⟩ (.exchange [])).phase i = .spawning k := by rw [phase_set_of_ne hki, hi]
    exact h1.quiet (moves_set _ _) (by rw [hi']; rfl) (by rw [hi']; rfl) (by rw [hi']; simp)
  | @spawnFail k hi hk =>
    have hu := (hc.spawning i k hi).2.2 ⟨k, hk⟩ (Nat.le_refl k)
    have hki : i ≠ ⟨k, hk⟩ := fun he => by rw [he, hu] at hi; cases hi
    have h1 : Ledger ({ s with busy := s.busy - 1 }.set ⟨k, hk⟩ .notSpawned) :=
      h.quiet (moves_set _ _) (by rw [hu]; rfl) (by rw [hu]; rfl) (by rw [hu]; simp)
    have hi' : ({ s with busy := s.busy - 1 }.set ⟨k, hk⟩ .notSpawned).phase i = .spawning k := by
      rw [phase_set_of_ne hki, hi]
    exact h1.quiet (moves_set _ _) (by rw [hi']; rfl) (by rw [hi']; rfl) (by rw [hi']; simp)
  | spawnWake hi => exact h.quiet (moves_wakeAll _ _) (by rw [hi]; rfl) (by rw [hi]; rfl) (by rw [hi]; simp)
  | spawnDone hi hk => exact h.quiet (moves_set _ _) (by rw [hi]; rfl) (by rw [hi]; rfl) (by rw [hi]; simp)
  | keep hi => exact h.quiet (moves_set _ _) (by rw [hi]; rfl) (by rw [hi]; rfl) (by rw [hi]; simp)
  | @publish rest own w hi hr hw hcard =>
    refine h.moves (moves_wakeSome _ _ _) rfl ?_ (by rw [hi]; rfl) .inl id rfl rfl (by rw [hi]; simp)
    rw [hi]
    show (s.pushed : Multiset J) + (_ + ((rest ++ [own] : List J) : Multiset J) + _) =
      (s.pushed : Multiset J) + (((s.jobs ++ rest : List J) : Multiset J) + {own} + (s.finished : Multiset J))
    rw [← Multiset.coe_add, ← Multiset.coe_add, Multiset.coe_singleton]
    ac_rfl
  | retire hi => exact h.look rfl rfl rfl rfl rfl rfl rfl rfl rfl (by rw [hi]; rfl) (by rw [hi]; rfl)
  | rouse hi => exact h.look rfl rfl rfl rfl rfl rfl rfl rfl rfl (by rw [hi]; rfl) (by rw [hi]; rfl)
  | more hi ht => exact h.quiet (moves_set _ _) (by rw [hi]; rfl) (by rw [hi]; rfl) (by rw [hi]; simp)
  | @done job p children d' s'' hi ht =>
    refine h.moves (moves_set _ _) rfl ?_ (by rw [hi]; rfl) .inl id rfl rfl (by rw [hi]; simp)
    rw [hi]
    show ((s.pushed ++ children : List J) : Multiset J) + (_ + {job} + _) =
      (s.pushed : Multiset J) + (_ + (children : Multiset J) + ((s.finished ++ [job] : List J) : Multiset J))
    rw [← Multiset.coe_add, ← Multiset.coe_add, Multiset.coe_singleton]
    ac_rfl
  | failed hi ht =>
    exact h.giveUp (moves_set _ _) (by rw [hi]; rfl) rfl rfl rfl rfl rfl rfl (.inr (.inr (.inr ⟨i, _, phase_set_self ..⟩)))
  | cancelled hi ht =>
    exact h.giveUp (moves_set _ _) (by rw [hi]; rfl) rfl rfl rfl rfl rfl rfl
      (cause_working (moves_set _ _) hi rfl rfl rfl (h.cause_of_interrupted (task.cancelled _ _ _ _ _ _ ht)))
  | panic hi => exact h.giveUp (moves_set _ _) (by rw [hi]; rfl) rfl rfl rfl rfl rfl rfl (.inr (.inr (.inl rfl)))
  | @haltRecord stop hi =>
    refine h.moves (moves_set _ _) rfl (by rw [hi]; rfl) (by rw [hi]; rfl) .inl (fun hf => ?_) rfl rfl (fun e he => ?_)
    · show (s.failure.or stop).isSome = true
      simp [hf]
    · rw [hi] at he
      cases he
      show (s.failure.or (some e)).isSome = true
      simp
  | haltRaise hi =>
    exact h.moves (moves_set _ _) rfl (by rw [hi]; rfl) (by rw [hi]; rfl) (fun _ => .inr (by rw [hi]; rfl)) id rfl rfl
      (by rw [hi]; simp)
  | haltStop hi => exact h.quiet (moves_set _ _) (by rw [hi]; rfl) (by rw [hi]; rfl) (by rw [hi]; simp)
  | haltNotify hi => exact h.quiet (moves_wakeAll _ _) (by rw [hi]; rfl) (by rw [hi]; rfl) (by rw [hi]; simp)

end Ledger

/-! ## Every reachable state -/

structure Inv (s : State n J P D S E) : Prop where
  counts : Counts s
  running : Running s
  stops : Stops s
  ledger : Ledger s

theorem Inv.step {task : Task J P D S E} {s s' : State n J P D S E} (h : Inv s) (hs : Step task s s') : Inv s' := by
  cases hs with
  | worker hw =>
    have hc := h.counts.step hw
    exact ⟨hc, running_step hc hw, h.stops.step h.counts hw, h.ledger.step h.counts hw⟩
  | @spurious i hi =>
    have hm : Moves s (s.set i .woken) i .woken := moves_set _ _
    exact ⟨h.counts.moves hm (by rw [hi]; rfl) rfl (by rw [hi]; rfl) (by rw [hi]; rfl), h.running,
      h.stops.moves hm rfl id (by rw [hi]; simp) (by simp) (.inr ⟨rfl, fun _ => rfl⟩) (by simp [Phase.raised]) (by simp [Phase.closed]),
      h.ledger.quiet hm (by rw [hi]; rfl) (by rw [hi]; rfl) (by rw [hi]; simp)⟩
  | cancel =>
    exact ⟨⟨h.counts.busy, h.counts.idle, h.counts.spawning, h.counts.spawnFailed, h.counts.unspawned⟩, h.running,
      ⟨h.stops.waiting, h.stops.quiet, h.stops.raised, h.stops.closed⟩,
      ⟨h.ledger.conserved, h.ledger.gave, h.ledger.raised, fun _ => .inr (.inl rfl)⟩⟩

variable {task : Task J P D S E} {root : J} {data : Fin (n + 1) → D} {shared : S} {s : State n J P D S E}

theorem Reachable.inv (h : Reachable task root data shared s) : Inv s := by
  induction h with
  | initial cancel => exact ⟨.initial _ _ _ _, fun _ => Nat.succ_pos n, .initial _ _ _ _, .initial _ _ _ _⟩
  | step _ hs ih => exact ih.step hs

/-- A worker that is running, and neither waiting nor at its end, can take a step. -/
theorem exists_step {i : Fin (n + 1)} (hu : s.phase i ≠ .unspawned) (hw : s.phase i ≠ .waiting)
    (ho : (s.phase i).isOver = false) : ∃ s', WorkerStep task i s s' := by
  cases hi : s.phase i with
  | unspawned => exact absurd hi hu
  | spawning k =>
    by_cases hk : k < n + 1
    · exact ⟨_, .spawn hi hk⟩
    · exact ⟨_, .spawnDone hi (Nat.le_of_not_lt hk)⟩
  | spawnFailed k => exact ⟨_, .spawnWake hi⟩
  | exchange children =>
    rcases List.eq_nil_or_concat children with rfl | ⟨rest, own, rfl⟩
    · exact ⟨_, .retire hi⟩
    · rw [List.concat_eq_append] at hi
      by_cases hr : rest = []
      · subst hr; exact ⟨_, .keep hi⟩
      · obtain ⟨w, hsub, hcard⟩ := Finset.exists_subset_card_eq
          (Nat.min_le_right (min rest.length s.idle) (Finset.univ.filter fun j => (s.phase j).isWaiting).card)
        refine ⟨_, .publish hi hr (fun j hj => ?_) hcard⟩
        have := (Finset.mem_filter.1 (hsub hj)).2
        cases hp : s.phase j <;> rw [hp] at this <;> first | rfl | cases this
  | working job p =>
    obtain ⟨o, ho⟩ := task.total (s.cancel || s.halted) p (s.data i) s.shared
    cases o with
    | more p' d' s' => exact ⟨_, .more hi ho⟩
    | done children d' s' => exact ⟨_, .done hi ho⟩
    | failed e d' s' => exact ⟨_, .failed hi ho⟩
    | cancelled d' s' => exact ⟨_, .cancelled hi ho⟩
  | waiting => exact absurd hi hw
  | woken => exact ⟨_, .rouse hi⟩
  | halting stage =>
    cases stage with
    | record stop => exact ⟨_, .haltRecord hi⟩
    | raise => exact ⟨_, .haltRaise hi⟩
    | stop => exact ⟨_, .haltStop hi⟩
    | notify => exact ⟨_, .haltNotify hi⟩
  | exited => rw [hi] at ho; cases ho
  | gaveUp => rw [hi] at ho; cases ho
  | notSpawned => rw [hi] at ho; cases ho

/-- The pool never deadlocks: when no worker can take a step, all have returned. -/
theorem Inv.all_over (h : Inv s) (hstuck : ∀ i s', ¬WorkerStep task i s s') (i : Fin (n + 1)) : (s.phase i).isOver = true := by
  have hpark : ∀ j, (s.phase j).isOver = false → s.phase j = .unspawned ∨ s.phase j = .waiting := by
    intro j hj
    by_contra hc
    rw [not_or] at hc
    obtain ⟨s', hs'⟩ : ∃ s', WorkerStep task j s s' := exists_step hc.1 hc.2 hj
    exact hstuck j s' hs'
  -- a thread not started yet means the first worker is still starting threads
  have hspawned : ∀ j, s.phase j ≠ .unspawned := by
    intro j hj
    obtain ⟨k, ⟨-, hk⟩ | ⟨-, hk⟩⟩ := h.counts.unspawned j hj
    · rcases hpark 0 (by rw [hk]; rfl) with h0 | h0 <;> rw [hk] at h0 <;> cases h0
    · rcases hpark 0 (by rw [hk]; rfl) with h0 | h0 <;> rw [hk] at h0 <;> cases h0
  by_contra hi
  rw [Bool.not_eq_true] at hi
  have hwait : s.phase i = .waiting := (hpark i hi).resolve_left (hspawned i)
  cases hs : s.stopped with
  | true =>
    -- a stopped pool leaves no one waiting, or is about to wake them
    obtain ⟨j, hj⟩ := h.stops.waiting hs i hwait
    rcases hpark j (by rw [hj]; rfl) with h0 | h0 <;> rw [hj] at h0 <;> cases h0
  | false =>
    -- a running pool has a busy worker, and busy workers do not wait
    have hpos := h.running hs
    rw [h.counts.busy] at hpos
    obtain ⟨j, -, hj⟩ := Finset.exists_ne_zero_of_sum_ne_zero (Nat.pos_iff_ne_zero.1 hpos)
    by_cases hover : (s.phase j).isOver = true
    · cases hp : s.phase j <;> rw [hp] at hover hj <;> simp [Phase.isOver, Phase.isBusy] at hover hj
      have := h.stops.closed j (by rw [hp]; rfl)
      rw [hs] at this; cases this
    · rcases hpark j (by simpa using hover) with h0 | h0
      · exact hspawned j h0
      · rw [h0] at hj; exact hj rfl

/-- A worker that is not busy holds no job. -/
theorem held_eq_zero {p : Phase J P E} (h : p.isBusy = 0) : p.held = 0 := by
  cases p <;> first | rfl | cases h

/-- A pool that stopped without being halted has no job queued and none held. -/
theorem Inv.stopped_done (h : Inv s) (hs : s.stopped = true) (hh : s.halted = false) :
    s.jobs = [] ∧ ∀ i, (s.phase i).held = 0 :=
  ⟨(h.stops.quiet hs hh).1, fun i => held_eq_zero ((h.stops.quiet hs hh).2 i)⟩

/-- Once all workers have returned the pool has stopped. -/
theorem Inv.stopped_of_over (h : Inv s) (ho : ∀ i, (s.phase i).isOver = true) : s.stopped = true := by
  by_contra hs
  rw [Bool.not_eq_true] at hs
  have hpos := h.running hs
  rw [h.counts.busy] at hpos
  obtain ⟨j, -, hj⟩ := Finset.exists_ne_zero_of_sum_ne_zero (Nat.pos_iff_ne_zero.1 hpos)
  have hover := ho j
  cases hp : s.phase j <;> rw [hp] at hover hj <;> simp [Phase.isOver, Phase.isBusy] at hover hj
  have := h.stops.closed j (by rw [hp]; rfl)
  rw [hs] at this; cases this

/-- When all workers have returned and none gave up, every job was done exactly once. -/
theorem Inv.all_finished (h : Inv s) (ho : ∀ i, (s.phase i).isOver = true) (ha : s.abandoned = []) :
    s.jobs = [] ∧ s.finished.Perm s.pushed := by
  have hh : s.halted = false := by
    by_contra hc
    exact h.ledger.raised (by simpa using hc) ha
  obtain ⟨hj, hheld⟩ := h.stopped_done (h.stopped_of_over ho) hh
  have hc := h.ledger.conserved
  rw [hj, ha, Finset.sum_congr rfl fun i _ => hheld i, Finset.sum_const_zero] at hc
  exact ⟨hj, Multiset.coe_eq_coe.1 (by simpa using hc.symm)⟩

/-- When all workers have returned and none halted the pool, none gave up. -/
theorem Inv.none_abandoned (h : Inv s) (ho : ∀ i, (s.phase i).isOver = true) (hh : s.halted = false) : s.abandoned = [] := by
  refine h.ledger.gave.2 fun i => ?_
  have hi := ho i
  cases hp : s.phase i <;> rw [hp] at hi <;> first | rfl | cases hi
  have := h.stops.raised i (by rw [hp]; rfl)
  rw [hh] at this; cases this

/-- What running the pool comes to, once all workers have returned. -/
inductive Verdict (E : Type*) where
  | panicked
  | failed (error : E)
  | cancelled
  | ok

/-- The panic of a scoped thread goes on in the caller; then the recorded error and the
cancellation are looked at. -/
def State.verdict (s : State n J P D S E) : Verdict E :=
  if s.panicked then .panicked
  else match s.failure with
    | some e => .failed e
    | none => if s.cancel then .cancelled else .ok

/-- The pool succeeds only if no worker gave up, whether it saw a cancellation, failed or panicked. -/
theorem Inv.ok (h : Inv s) (ho : ∀ i, (s.phase i).isOver = true) (hv : s.verdict = .ok) : s.abandoned = [] := by
  by_contra ha
  unfold verdict at hv
  rcases h.ledger.cause ha with hf | hc | hp | ⟨i, e, hi⟩
  · obtain ⟨e, he⟩ := Option.isSome_iff_exists.1 hf
    rw [he] at hv
    split at hv <;> cases hv
  · cases hfail : s.failure with
    | some e => rw [hfail] at hv; split at hv <;> cases hv
    | none => rw [hfail, hc] at hv; split at hv <;> cases hv
  · rw [hp] at hv; cases hv
  · have := ho i
    rw [hi] at this; cases this

end StorageHarvester.WorkPool
