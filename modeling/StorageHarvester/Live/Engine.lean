/-
The engine of the live trees (`LiveStore::enqueue`, `run`, `next_due` and `relist_all` in
`src/live.rs`): any thread queues a directory at any time; one thread takes those whose cooldown is
over, re-reads each under its target's lock, and sets when it may be read again. The clock never
goes back; a thread may have read it some time before it gets the queue's lock.

What a re-read does to the tree, and how long the thread waits when nothing is due, have no part
here: it looks again at any time.
-/
import StorageHarvester.Lib.Table
import Mathlib.Logic.Relation

namespace StorageHarvester.Engine

variable {Lookup : Type}

/-- How long a quiet directory's first change waits (50 ms, in nanoseconds). -/
def settle : Nat := 50000000

/-- Past this many cooldowns, those that are over are dropped. -/
def cooldownMax : Nat := 100000

/-- A target and a node of its tree. -/
abbrev Key := Nat × Nat

/-- A directory waiting to be re-read. -/
structure Pending (Lookup : Type) where
  /-- The tree generation it was queued for. -/
  generation : Nat := 0
  /-- The last process named as changing it. -/
  who : Option Lookup := none

/-! ## The queue -/

structure Queue (Lookup : Type) where
  pending : Table Key (Pending Lookup)
  /-- Not before: when each directory may be re-read again. -/
  cooldown : Table Key Nat

namespace Queue

def empty : Queue Lookup := ⟨Table.empty, Table.empty⟩

/-- `LiveStore::enqueue`. -/
def enqueue (q : Queue Lookup) (key : Key) (now generation : Nat) (who : Option Lookup) : Queue Lookup :=
  let settles := (q.pending.get key).isNone && (q.cooldown.get key).all fun till => decide (till ≤ now)
  let held := (q.pending.get key).getD {}
  let held := if held.generation ≠ generation then { generation := generation, who := none } else held
  let held := if who.isSome then { held with who := who } else held
  { pending := q.pending.put key held
    cooldown := if settles then q.cooldown.put key (now + settle) else q.cooldown }

/-- No cooldown of this directory runs. -/
def isDue (q : Queue Lookup) (now : Nat) (key : Key) : Bool := (q.cooldown.get key).all fun till => decide (till ≤ now)

/-- The queued directories `next_due` takes. -/
def due (q : Queue Lookup) (now : Nat) : List (Key × Pending Lookup) := q.pending.entries.filter fun e => q.isDue now e.1

/-- The queue as a look of `next_due` leaves it. -/
def look (q : Queue Lookup) (now : Nat) : Queue Lookup where
  pending := q.pending.retain fun key queued => if q.isDue now key then none else some queued
  cooldown :=
    if cooldownMax < q.cooldown.entries.length then q.cooldown.retain fun _ till => if now < till then some till else none
    else q.cooldown

/-- When the cooldown of a directory is over: at once if it has none. -/
def dueAt (q : Queue Lookup) (key : Key) : Nat := (q.cooldown.get key).getD 0

end Queue

/-! ## The engine -/

/-- `relist_all` with a target's lock held. -/
structure Batch (Lookup : Type) where
  target : Nat
  /-- The tree's generation. -/
  generation : Nat
  /-- The directories to come. -/
  nodes : List (Nat × Pending Lookup)
  /-- The one being re-read, and when that started. -/
  reading : Option (Nat × Nat)
  /-- The directories to queue next. -/
  requeue : List Nat

/-- What the engine's thread does. -/
inductive Phase (Lookup : Type) where
  /-- In `next_due`, looking or waiting. -/
  | waiting
  /-- Between two targets of those `next_due` returned directories of. -/
  | between (due : List (Key × Pending Lookup))
  | relisting (due : List (Key × Pending Lookup)) (batch : Batch Lookup)
  /-- Queuing what the re-reads of a target asked for, its lock released. -/
  | requeuing (due : List (Key × Pending Lookup)) (target generation : Nat) (dirs : List Nat)

/-- A re-read: of which directory in which tree, when it started, and what it cost. -/
structure Reread where
  key : Key
  generation : Nat
  started : Nat
  cost : Nat

/-- The engine at one moment; `rereads` records those that are over. -/
structure State (Lookup : Type) where
  clock : Nat
  queue : Queue Lookup
  phase : Phase Lookup
  /-- The generation of each target's tree, once it has one. -/
  generations : Nat → Option Nat
  rereads : List Reread

/-- The target whose lock the engine holds. -/
def Phase.lock : Phase Lookup → Option Nat
  | .relisting _ batch => some batch.target
  | _ => none

/-- The directories of a target, in the order they were returned. -/
def nodesOf (due : List (Key × Pending Lookup)) (target : Nat) : List (Nat × Pending Lookup) :=
  (due.filter fun e => e.1.1 = target).map fun e => (e.1.2, e.2)

/-- Those of the other targets. -/
def others (due : List (Key × Pending Lookup)) (target : Nat) : List (Key × Pending Lookup) :=
  due.filter fun e => e.1.1 ≠ target

/-- What the threads do next, the engine's one or another. -/
inductive Step (minRelist : Nat) (s : State Lookup) : State Lookup → Prop
  | tick {now : Nat} (hnow : s.clock ≤ now) : Step minRelist s { s with clock := now }
  /-- Any thread, the clock read at `now`. -/
  | enqueue {now : Nat} (key : Key) (generation : Nat) (who : Option Lookup) (hnow : now ≤ s.clock) :
      Step minRelist s { s with queue := s.queue.enqueue key now generation who }
  /-- A scan's tree taken, unless the target's lock is held. -/
  | replace (target : Nat) (hlock : s.phase.lock ≠ some target) :
      Step minRelist s { s with
        generations := Function.update s.generations target (some ((s.generations target).elim 1 (· + 1))) }
  /-- `next_due`: what is due is returned, in the order the table happens to have. -/
  | look {due : List (Key × Pending Lookup)} (hphase : s.phase = .waiting) (hdue : due.Perm (s.queue.due s.clock)) :
      Step minRelist s { s with
        queue := s.queue.look s.clock
        phase := if due.isEmpty then .waiting else .between due }
  /-- A target without a tree: its directories are let go. -/
  | absent {due : List (Key × Pending Lookup)} (target : Nat) (hphase : s.phase = .between due)
      (hnone : s.generations target = none) : Step minRelist s { s with phase := .between (others due target) }
  | lock {due : List (Key × Pending Lookup)} {generation : Nat} (target : Nat) (hphase : s.phase = .between due)
      (hsome : s.generations target = some generation) :
      Step minRelist s { s with
        phase := .relisting (others due target) ⟨target, generation, nodesOf due target, none, []⟩ }
  /-- A directory queued for another tree. -/
  | skip {due : List (Key × Pending Lookup)} {batch : Batch Lookup} {node : Nat} {queued : Pending Lookup}
      {rest : List (Nat × Pending Lookup)} (hphase : s.phase = .relisting due batch) (hidle : batch.reading = none)
      (hnodes : batch.nodes = (node, queued) :: rest) (hother : queued.generation ≠ batch.generation) :
      Step minRelist s { s with phase := .relisting due { batch with nodes := rest } }
  | start {due : List (Key × Pending Lookup)} {batch : Batch Lookup} {node : Nat} {queued : Pending Lookup}
      {rest : List (Nat × Pending Lookup)} (hphase : s.phase = .relisting due batch) (hidle : batch.reading = none)
      (hnodes : batch.nodes = (node, queued) :: rest) (hsame : queued.generation = batch.generation) :
      Step minRelist s { s with
        phase := .relisting due { batch with nodes := rest, reading := some (node, s.clock) } }
  /-- A re-read is over: its cost, taken before now, sets the cooldown. -/
  | finish {due : List (Key × Pending Lookup)} {batch : Batch Lookup} {node started cost : Nat} (requeue : List Nat)
      (hphase : s.phase = .relisting due batch) (hreading : batch.reading = some (node, started))
      (hcost : started + cost ≤ s.clock) :
      Step minRelist s { s with
        queue := { s.queue with
          cooldown := s.queue.cooldown.put (batch.target, node) (s.clock + max minRelist (cost * 100)) }
        phase := .relisting due { batch with reading := none, requeue := batch.requeue ++ requeue }
        rereads := s.rereads ++ [⟨(batch.target, node), batch.generation, started, cost⟩] }
  | unlock {due : List (Key × Pending Lookup)} {batch : Batch Lookup} (hphase : s.phase = .relisting due batch)
      (hidle : batch.reading = none) (hnodes : batch.nodes = []) :
      Step minRelist s { s with phase := .requeuing due batch.target batch.generation batch.requeue }
  | requeue {due : List (Key × Pending Lookup)} {target generation dir now : Nat} {dirs : List Nat}
      (hphase : s.phase = .requeuing due target generation (dir :: dirs)) (hnow : now ≤ s.clock) :
      Step minRelist s { s with
        queue := s.queue.enqueue (target, dir) now generation none
        phase := .requeuing due target generation dirs }
  | requeued {due : List (Key × Pending Lookup)} {target generation : Nat}
      (hphase : s.phase = .requeuing due target generation []) : Step minRelist s { s with phase := .between due }
  | done (hphase : s.phase = .between []) : Step minRelist s { s with phase := .waiting }

/-- Before the engine's thread starts: nothing is queued. -/
structure Initial (s : State Lookup) : Prop where
  queue : s.queue = .empty
  phase : s.phase = .waiting
  rereads : s.rereads = []

/-- Any number of steps. -/
abbrev Steps (minRelist : Nat) : State Lookup → State Lookup → Prop := Relation.ReflTransGen (Step minRelist)

/-- The re-read going on, its cost not known yet. -/
def Phase.current : Phase Lookup → Option Reread
  | .relisting _ batch => batch.reading.map fun r => ⟨(batch.target, r.1), batch.generation, r.2, 0⟩
  | _ => none

/-- All re-reads started, in order. -/
def State.started (s : State Lookup) : List Reread := s.rereads ++ s.phase.current.toList

/-- The directories `next_due` returned whose turn has not come. -/
def Phase.hand : Phase Lookup → List Key
  | .waiting => []
  | .between due | .requeuing due _ _ _ => due.map Prod.fst
  | .relisting due batch => due.map Prod.fst ++ batch.nodes.map fun e => (batch.target, e.1)

/-! ## What the queue's operations do to it -/

namespace Queue

/-- No cooldown of the directory runs past `now`. -/
def Over (q : Queue Lookup) (now : Nat) (key : Key) : Prop := ∀ till, q.cooldown.get key = some till → till ≤ now

theorem isDue_iff {q : Queue Lookup} {now : Nat} {key : Key} : q.isDue now key = true ↔ q.Over now key := by
  unfold isDue Over
  cases q.cooldown.get key <;> simp

/-- An operation that changes only cooldowns that are over. -/
def Keeps (q q' : Queue Lookup) (now : Nat) : Prop :=
  ∀ key, q'.cooldown.get key = q.cooldown.get key ∨ q.Over now key

theorem keeps_enqueue (q : Queue Lookup) (key : Key) (now generation : Nat) (who : Option Lookup) :
    q.Keeps (q.enqueue key now generation who) now := by
  rintro key'
  unfold enqueue
  dsimp only
  split
  case isFalse => exact .inl rfl
  case isTrue h =>
    by_cases heq : key' = key
    · right
      rw [Bool.and_eq_true] at h
      rw [heq]
      exact isDue_iff.1 h.2
    · left
      rw [Table.get_put, if_neg heq]

theorem keeps_look (q : Queue Lookup) (now : Nat) : q.Keeps (q.look now) now := by
  rintro key
  unfold look
  dsimp only
  split
  case isFalse => exact .inl rfl
  case isTrue =>
    rw [Table.get_retain]
    cases hget : q.cooldown.get key with
    | none => exact .inl rfl
    | some till =>
      by_cases hruns : now < till
      · left
        simp [hruns]
      · right
        rintro till' htill'
        rw [hget] at htill'
        obtain rfl := Option.some.inj htill'
        exact not_lt.1 hruns

/-- A directory queued stays so, whatever is queued. -/
theorem pending_enqueue (q : Queue Lookup) (key' : Key) (now generation : Nat) (who : Option Lookup) {key : Key}
    (h : (q.pending.get key).isSome) : ((q.enqueue key' now generation who).pending.get key).isSome := by
  unfold enqueue
  dsimp only
  rw [Table.get_put]
  split
  · rfl
  · exact h

/-- A directory queued is due when it was, whatever is queued. -/
theorem dueAt_enqueue (q : Queue Lookup) (key' : Key) (now generation : Nat) (who : Option Lookup) {key : Key}
    (h : (q.pending.get key).isSome) : (q.enqueue key' now generation who).dueAt key = q.dueAt key := by
  unfold dueAt enqueue
  dsimp only
  split
  case isFalse => rfl
  case isTrue hsettles =>
    rw [Bool.and_eq_true, Option.isNone_iff_eq_none] at hsettles
    have hne : key ≠ key' := by
      rintro rfl
      rw [hsettles.1] at h
      exact absurd h Bool.false_ne_true
    rw [Table.get_put, if_neg hne]

/-- A look leaves every directory queued that it does not return. -/
theorem pending_look (q : Queue Lookup) (now : Nat) {key : Key} (h : (q.pending.get key).isSome) :
    ((q.look now).pending.get key).isSome ∨ key ∈ (q.due now).map Prod.fst := by
  obtain ⟨queued, hqueued⟩ := Option.isSome_iff_exists.1 h
  by_cases hdue : q.isDue now key
  · right
    exact List.mem_map.2 ⟨(key, queued), List.mem_filter.2 ⟨Table.get_eq_some.1 hqueued, hdue⟩, rfl⟩
  · left
    unfold look
    dsimp only
    rw [Table.get_retain, hqueued]
    simp [hdue]

theorem nodup_due (q : Queue Lookup) (now : Nat) : ((q.due now).map Prod.fst).Nodup :=
  q.pending.nodup.sublist (List.filter_sublist.map _)

theorem over_of_due {q : Queue Lookup} {now : Nat} {key : Key} (h : key ∈ (q.due now).map Prod.fst) :
    q.Over now key := by
  obtain ⟨e, he, rfl⟩ := List.mem_map.1 h
  exact isDue_iff.1 (List.mem_filter.1 he).2

end Queue

/-! ## The invariant -/

/-- The earliest its directory may be re-read again. -/
def Reread.again (minRelist : Nat) (r : Reread) : Nat := r.started + max minRelist (r.cost * 100)

/-- Two re-reads, in this order: one of the same directory starts late enough. -/
def Apart (minRelist : Nat) (r r' : Reread) : Prop := r.key = r'.key → r.again minRelist ≤ r'.started

structure Inv (minRelist : Nat) (s : State Lookup) : Prop where
  /-- No directory's turn comes twice. -/
  nodup : s.phase.hand.Nodup
  /-- A directory just re-read is on cooldown. -/
  cooled : ∀ r ∈ s.rereads, r.again minRelist ≤ s.clock ∨
    ∃ till, s.queue.cooldown.get r.key = some till ∧ r.again minRelist ≤ till
  /-- Those whose turn comes are not. -/
  ready : ∀ key ∈ s.phase.hand, ∀ r ∈ s.rereads, r.key = key → r.again minRelist ≤ s.clock
  current : ∀ c, s.phase.current = some c → c.started ≤ s.clock ∧ c.key ∉ s.phase.hand ∧
    ∀ r ∈ s.rereads, Apart minRelist r c
  apart : s.rereads.Pairwise (Apart minRelist)

namespace Inv

variable {minRelist : Nat} {s : State Lookup}

theorem tick (h : Inv minRelist s) {now : Nat} (hnow : s.clock ≤ now) : Inv minRelist { s with clock := now } where
  nodup := h.nodup
  cooled r hr := (h.cooled r hr).imp_left fun hle => hle.trans hnow
  ready key hkey r hr heq := (h.ready key hkey r hr heq).trans hnow
  current c hc := ⟨(h.current c hc).1.trans hnow, (h.current c hc).2⟩
  apart := h.apart

/-- A directory whose cooldown is over may be re-read. -/
theorem again_le (h : Inv minRelist s) {now : Nat} (hnow : now ≤ s.clock) {r : Reread} (hr : r ∈ s.rereads)
    (hover : s.queue.Over now r.key) : r.again minRelist ≤ s.clock := by
  rcases h.cooled r hr with hle | ⟨till, htill, hle⟩
  · exact hle
  · exact hle.trans ((hover till htill).trans hnow)

theorem queued (h : Inv minRelist s) {q : Queue Lookup} {now : Nat} (hnow : now ≤ s.clock) (hkeeps : s.queue.Keeps q now) :
    Inv minRelist { s with queue := q } where
  nodup := h.nodup
  cooled r hr := by
    rcases hkeeps r.key with heq | hover
    · show _ ∨ ∃ till, q.cooldown.get r.key = some till ∧ _
      rw [heq]
      exact h.cooled r hr
    · exact .inl (h.again_le hnow hr hover)
  ready := h.ready
  current := h.current
  apart := h.apart

/-- The engine's thread moves on, with no more directories in hand, and no re-read going on. -/
theorem moved (h : Inv minRelist s) {phase : Phase Lookup} (hsub : phase.hand.Sublist s.phase.hand)
    (hidle : phase.current = none) : Inv minRelist { s with phase := phase } where
  nodup := h.nodup.sublist hsub
  cooled := h.cooled
  ready key hkey := h.ready key (hsub.subset hkey)
  current c hc := by
    rw [show phase.current = some c from hc] at hidle
    cases hidle
  apart := h.apart

/-- `next_due` returns directories whose cooldowns are over. -/
theorem look (h : Inv minRelist s) {due : List (Key × Pending Lookup)} (hdue : due.Perm (s.queue.due s.clock)) :
    Inv minRelist { s with
      queue := s.queue.look s.clock
      phase := if due.isEmpty then .waiting else .between due } := by
  have hkeys : (due.map Prod.fst).Perm ((s.queue.due s.clock).map Prod.fst) := hdue.map _
  have hqueued := h.queued le_rfl (s.queue.keeps_look s.clock)
  split
  case isTrue => exact hqueued.moved (List.nil_sublist _) rfl
  case isFalse =>
    exact {
      nodup := hkeys.nodup_iff.2 (s.queue.nodup_due s.clock)
      cooled := hqueued.cooled
      ready := by
        rintro key hkey r hr rfl
        exact h.again_le le_rfl hr (Queue.over_of_due (hkeys.mem_iff.1 hkey))
      current := fun c hc => nomatch hc
      apart := h.apart }

/-- A target's directories and the others' are those in hand. -/
theorem locked {due : List (Key × Pending Lookup)} (h : Inv minRelist s) (hphase : s.phase = .between due)
    (target generation : Nat) :
    Inv minRelist { s with phase := .relisting (others due target) ⟨target, generation, nodesOf due target, none, []⟩ } := by
  have hnodes : (nodesOf due target).map (fun e => (target, e.1)) = (due.filter fun e => e.1.1 = target).map Prod.fst := by
    unfold nodesOf
    rw [List.map_map]
    refine List.map_congr_left fun e he => ?_
    have htarget := (List.mem_filter.1 he).2
    simp only [decide_eq_true_eq] at htarget
    simp [← htarget]
  have hperm : ((others due target).map Prod.fst ++ (nodesOf due target).map fun e => (target, e.1)).Perm
      (due.map Prod.fst) := by
    rw [hnodes, ← List.map_append]
    refine List.Perm.map _ (List.perm_append_comm.trans ?_)
    have hsplit := List.filter_append_perm (fun e : Key × Pending Lookup => decide (e.1.1 = target)) due
    simpa [others] using hsplit
  have hhand : s.phase.hand = due.map Prod.fst := by rw [hphase]; rfl
  exact {
    nodup := hperm.nodup_iff.2 (hhand ▸ h.nodup)
    cooled := h.cooled
    ready := fun key hkey => h.ready key (hhand ▸ hperm.mem_iff.1 hkey)
    current := fun c hc => nomatch hc
    apart := h.apart }

theorem started {due : List (Key × Pending Lookup)} {batch : Batch Lookup} {node : Nat} {queued : Pending Lookup}
    {rest : List (Nat × Pending Lookup)} (h : Inv minRelist s) (hphase : s.phase = .relisting due batch)
    (hnodes : batch.nodes = (node, queued) :: rest) :
    Inv minRelist { s with phase := .relisting due { batch with nodes := rest, reading := some (node, s.clock) } } := by
  have hhand : s.phase.hand = due.map Prod.fst ++ (batch.target, node) :: rest.map fun e => (batch.target, e.1) := by
    rw [hphase, Phase.hand, hnodes, List.map_cons]
  have hnodup := h.nodup
  rw [hhand] at hnodup
  obtain ⟨hleft, hnot⟩ := List.nodup_cons.1 (List.nodup_middle.1 hnodup) |>.symm
  exact {
    nodup := hleft
    cooled := h.cooled
    ready := by
      rintro key hkey
      refine h.ready key ?_
      rw [hhand]
      exact (List.sublist_append_right [_] _ |>.append_left _).subset hkey
    current := by
      rintro c hc
      obtain rfl := Option.some.inj hc
      refine ⟨le_rfl, hnot, fun r hr heq => ?_⟩
      exact h.ready _ (by rw [hhand]; simp) r hr heq
    apart := h.apart }

/-- The re-read that is over leaves its directory on cooldown, from now on. -/
theorem finished {due : List (Key × Pending Lookup)} {batch : Batch Lookup} {node started cost : Nat} (h : Inv minRelist s)
    (requeue : List Nat) (hphase : s.phase = .relisting due batch) (hreading : batch.reading = some (node, started))
    (hcost : started + cost ≤ s.clock) :
    Inv minRelist { s with
      queue := { s.queue with
        cooldown := s.queue.cooldown.put (batch.target, node) (s.clock + max minRelist (cost * 100)) }
      phase := .relisting due { batch with reading := none, requeue := batch.requeue ++ requeue }
      rereads := s.rereads ++ [⟨(batch.target, node), batch.generation, started, cost⟩] } := by
  have hcurrent : s.phase.current = some ⟨(batch.target, node), batch.generation, started, 0⟩ := by
    rw [hphase, Phase.current, hreading, Option.map_some]
  obtain ⟨_, hnot, hbefore⟩ := h.current _ hcurrent
  rw [hphase] at hnot
  have hhand : s.phase.hand = due.map Prod.fst ++ batch.nodes.map fun e => (batch.target, e.1) := by rw [hphase]; rfl
  have hstarted : ∀ r ∈ s.rereads, r.key = (batch.target, node) → r.again minRelist ≤ started := hbefore
  exact {
    nodup := by
      have hnodup := h.nodup
      rw [hhand] at hnodup
      exact hnodup
    cooled := by
      rintro r hr
      rcases List.mem_append.1 hr with hold | hnew
      · by_cases hkey : r.key = (batch.target, node)
        · have := hstarted r hold hkey
          exact .inl (by simp only; omega)
        · simp only [Table.get_put, if_neg hkey]
          exact h.cooled r hold
      · obtain rfl := List.mem_singleton.1 hnew
        refine .inr ⟨_, Table.get_put_self _ _ _, ?_⟩
        simp only [Reread.again]
        omega
    ready := by
      rintro key hkey r hr rfl
      rcases List.mem_append.1 hr with hold | hnew
      · exact h.ready _ (by rw [hhand]; exact hkey) r hold rfl
      · obtain rfl := List.mem_singleton.1 hnew
        exact absurd hkey hnot
    current := fun c hc => nomatch hc
    apart := by
      refine List.pairwise_append.2 ⟨h.apart, List.pairwise_singleton _ _, ?_⟩
      rintro r hr r' hr' heq
      obtain rfl := List.mem_singleton.1 hr'
      exact hstarted r hr heq }

end Inv

theorem Initial.inv {minRelist : Nat} {s : State Lookup} (h : Initial s) : Inv minRelist s where
  nodup := by rw [h.phase]; exact List.nodup_nil
  cooled := by simp [h.rereads]
  ready := by simp [h.rereads]
  current c hc := by
    rw [h.phase] at hc
    cases hc
  apart := by rw [h.rereads]; exact List.Pairwise.nil

variable {minRelist : Nat} {s s' : State Lookup}

theorem Step.inv (h : Step minRelist s s') (hinv : Inv minRelist s) : Inv minRelist s' := by
  cases h with
  | tick hnow => exact hinv.tick hnow
  | enqueue key generation who hnow => exact hinv.queued hnow (s.queue.keeps_enqueue _ _ _ _)
  | replace => exact ⟨hinv.nodup, hinv.cooled, hinv.ready, hinv.current, hinv.apart⟩
  | look _ hdue => exact hinv.look hdue
  | absent target hphase =>
    refine hinv.moved ?_ rfl
    rw [hphase]
    exact List.filter_sublist.map _
  | lock target hphase => exact hinv.locked hphase target _
  | skip hphase hidle hnodes =>
    refine hinv.moved ?_ (by rw [Phase.current, hidle]; rfl)
    rw [hphase, Phase.hand, Phase.hand, hnodes]
    exact (List.sublist_cons_self _ _).append_left _
  | start hphase _ hnodes => exact hinv.started hphase hnodes
  | finish requeue hphase hreading hcost => exact hinv.finished requeue hphase hreading hcost
  | unlock hphase =>
    refine hinv.moved ?_ rfl
    rw [hphase]
    exact List.sublist_append_left _ _
  | requeue hphase hnow =>
    refine (hinv.queued hnow (s.queue.keeps_enqueue _ _ _ _)).moved ?_ rfl
    show List.Sublist _ s.phase.hand
    rw [hphase]
    exact List.Sublist.refl _
  | requeued hphase =>
    refine hinv.moved ?_ rfl
    rw [hphase]
    exact List.Sublist.refl _
  | done => exact hinv.moved (List.nil_sublist _) rfl

theorem Steps.inv (h : Steps minRelist s s') (hinv : Inv minRelist s) : Inv minRelist s' := by
  induction h with
  | refl => exact hinv
  | tail _ hstep ih => exact hstep.inv ih

theorem Inv.apart_started (h : Inv minRelist s) : s.started.Pairwise (Apart minRelist) := by
  refine List.pairwise_append.2 ⟨h.apart, ?_, ?_⟩
  · cases s.phase.current <;> simp
  · rintro r hr c hc
    exact (h.current c (by simpa using hc)).2.2 r hr

/-! ## Nothing queued is lost -/

/-- A step in which `next_due` returns this directory. -/
def Returns (minRelist : Nat) (s : State Lookup) (key : Key) (s' : State Lookup) : Prop :=
  s.phase = .waiting ∧ Step minRelist s s' ∧ key ∈ s'.phase.hand

theorem Step.pending {key : Key} (h : Step minRelist s s') (hqueued : (s.queue.pending.get key).isSome) :
    (s'.queue.pending.get key).isSome ∨ Returns minRelist s key s' := by
  have hstep := h
  cases h with
  | enqueue key' generation who => exact .inl (s.queue.pending_enqueue _ _ _ _ hqueued)
  | requeue => exact .inl (s.queue.pending_enqueue _ _ _ _ hqueued)
  | @look due hphase hdue =>
    refine (s.queue.pending_look s.clock hqueued).imp_right fun hreturned => ⟨hphase, hstep, ?_⟩
    have hmem : key ∈ due.map Prod.fst := (hdue.map _).mem_iff.2 hreturned
    have hsome : due.isEmpty = false := by
      cases due with
      | nil => cases hmem
      | cons _ _ => rfl
    rw [hsome]
    exact hmem
  | tick | replace | absent | lock | skip | start | finish | unlock | requeued | done => exact .inl hqueued

/-- A directory queued is still so, or `next_due` returned it. -/
theorem Steps.pending {key : Key} (h : Steps minRelist s s') (hqueued : (s.queue.pending.get key).isSome) :
    (s'.queue.pending.get key).isSome ∨
      ∃ a b, Steps minRelist s a ∧ Returns minRelist a key b ∧ Steps minRelist b s' := by
  induction h with
  | refl => exact .inl hqueued
  | @tail b c hrun hstep ih =>
    rcases ih with hb | ⟨a, a', hbefore, hreturns, hafter⟩
    · rcases hstep.pending hb with hc | hreturns
      · exact .inl hc
      · exact .inr ⟨b, c, hrun, hreturns, .refl⟩
    · exact .inr ⟨a, a', hbefore, hreturns, hafter.tail hstep⟩

/-- In every run: two re-reads of a directory start the least interval and a hundred times the cost
of the first apart; a directory queued stays so until `next_due` returns it; and queuing moves no
due time later. -/
theorem rate_limited {s₀ : State Lookup} (hinit : Initial s₀) (hrun : Steps minRelist s₀ s) :
    (s.started.Pairwise fun r r' => r.key = r'.key →
      r.started + minRelist ≤ r'.started ∧ r.started + 100 * r.cost ≤ r'.started) ∧
    (∀ key, (s.queue.pending.get key).isSome → ∀ s', Steps minRelist s s' →
      (s'.queue.pending.get key).isSome ∨
        ∃ a b, Steps minRelist s a ∧ Returns minRelist a key b ∧ Steps minRelist b s') ∧
    ∀ key, (s.queue.pending.get key).isSome → ∀ key' now generation who,
      (s.queue.enqueue key' now generation who).dueAt key ≤ s.queue.dueAt key := by
  refine ⟨?_, fun key hqueued s' h => h.pending hqueued, ?_⟩
  · refine (hrun.inv hinit.inv).apart_started.imp ?_
    rintro r r' hapart heq
    have hlate := hapart heq
    unfold Reread.again at hlate
    omega
  · rintro key hqueued key' now generation who
    exact (s.queue.dueAt_enqueue key' now generation who hqueued).le

/-! ## A directory that changes while it is re-read -/

/-- The engine at the start, with one tree. -/
def idle : State Nat where
  clock := 0
  queue := .empty
  phase := .waiting
  generations _ := some 1
  rereads := []

/-- Queued again during its re-read, a directory waits for its cooldown. -/
theorem rate_limited_twice : ∃ s : State Nat, Steps 2000000000 idle s ∧
    s.started.map Reread.started = [settle, settle + 2000000007] ∧
    s.started.Pairwise fun r r' => r.key = r'.key →
      r.started + 2000000000 ≤ r'.started ∧ r.started + 100 * r.cost ≤ r'.started := by
  have h1 : Steps 2000000000 idle _ := .single (.enqueue (0, 5) 1 none (Nat.le_refl 0))
  have h2 := h1.tail (.tick (Nat.zero_le settle))
  have h3 := h2.tail (.look rfl (List.Perm.refl _))
  have h4 := h3.tail (.lock 0 rfl rfl)
  have h5 := h4.tail (.start rfl rfl rfl rfl)
  have h6 := h5.tail (.enqueue (0, 5) 1 (some 3) (Nat.le_refl settle))
  have h7 := h6.tail (.tick (Nat.le_add_right settle 7))
  have h8 := h7.tail (.finish [] rfl rfl (Nat.le_refl (settle + 7)))
  have h9 := h8.tail (.unlock rfl rfl rfl)
  have h10 := h9.tail (.requeued rfl)
  have h11 := h10.tail (.done rfl)
  have h12 := h11.tail (.tick (Nat.le_add_right (settle + 7) 2000000000))
  have h13 := h12.tail (.look rfl (List.Perm.refl _))
  have h14 := h13.tail (.lock 0 rfl rfl)
  have h15 := h14.tail (.start rfl rfl rfl rfl)
  exact ⟨_, h15, rfl, (rate_limited ⟨rfl, rfl, rfl⟩ h15).1⟩

end StorageHarvester.Engine
