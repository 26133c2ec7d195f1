/-
A broadcast channel: values in one order for every receiver, each receiver at a place of its own.
The channel retains the last `capacity` values. A receiver further behind is moved to the oldest
value retained; what it was moved past is lost to it. The channel itself is a parameter with what is
documented of it; an account of what became of the values says what a receiver gets from that.

A window of the last values sent to somebody else, `keepLast`, is what a receiver that subscribes
late is given of what it missed.
-/
import Mathlib.Data.List.DropRight
import Mathlib.Data.List.Basic
import Mathlib.Tactic.Common

namespace StorageHarvester.Channel

variable {α : Type}

/-! ## Channels -/

/-- What a receiver is answered: the next value, or how many values it was moved past. -/
inductive Received (α : Type) where
  | value (a : α)
  | lagged (n : Nat)

/-- The operations of a channel. -/
structure Broadcast (α : Type) where
  /-- What the sender and the receivers share. -/
  Shared : Type
  Receiver : Type
  channel : Shared
  send : Shared → α → Shared
  subscribe : Shared → Receiver
  /-- `none` while there is nothing to receive. -/
  recv : Shared → Receiver → Option (Received α × Receiver)

/-- What is documented of a channel that retains `capacity` values. -/
structure Broadcast.Documented (b : Broadcast α) (capacity : Nat) where
  /-- The values sent that a receiver is not past. -/
  Ahead : b.Shared → b.Receiver → List α → Prop
  /-- A receiver gets the values sent after the call that made it. -/
  subscribed : ∀ c, Ahead c (b.subscribe c) []
  /-- All of them, in the order they were sent. -/
  order : ∀ c r ahead a, Ahead c r ahead → Ahead (b.send c a) r (ahead ++ [a])
  waits : ∀ c r, Ahead c r [] → b.recv c r = none
  /-- The last `capacity` values are retained. -/
  retained : ∀ c r a rest, Ahead c r (a :: rest) → (a :: rest).length ≤ capacity →
    ∃ r', b.recv c r = some (.value a, r') ∧ Ahead c r' rest
  /-- A receiver further behind is told how many it missed, and is moved to the oldest value retained. -/
  lagged : ∀ c r ahead, Ahead c r ahead → capacity < ahead.length →
    ∃ r', b.recv c r = some (.lagged (ahead.length - capacity), r') ∧ Ahead c r' (ahead.drop (ahead.length - capacity))

/-! ## A receiver's account -/

/-- What became of the values sent since a receiver subscribed. -/
structure Account (α : Type) where
  /-- The values sent before it subscribed. -/
  start : Nat
  /-- The place of the next value to receive. -/
  next : Nat
  received : List α
  /-- Values dropped before they were received. -/
  lost : List α

namespace Account

/-- Receives what is sent from now on. -/
def subscribe (sent : List α) : Account α := ⟨sent.length, sent.length, [], []⟩

/-- More values wait than the channel retains. -/
def Lags (capacity : Nat) (sent : List α) (r : Account α) : Prop := r.next + capacity < sent.length

instance (capacity : Nat) (sent : List α) (r : Account α) : Decidable (r.Lags capacity sent) :=
  inferInstanceAs (Decidable (_ < _))

/-- Moved past `n` values. -/
def skip (n : Nat) (sent : List α) (r : Account α) : Account α where
  start := r.start
  next := r.next + n
  received := r.received
  lost := r.lost ++ (sent.drop r.next).take n

/-- The value at its place received. -/
def take (value : α) (r : Account α) : Account α where
  start := r.start
  next := r.next + 1
  received := r.received ++ [value]
  lost := r.lost

/-- The values sent since it subscribed. -/
def since (r : Account α) (sent : List α) : List α := sent.drop r.start

/-- Those it has not come to. -/
def ahead (r : Account α) (sent : List α) : List α := sent.drop r.next

/-- Every value sent since it subscribed is received, in order, or lost, or ahead. -/
structure Sound (sent : List α) (r : Account α) : Prop where
  start : r.start ≤ r.next
  next : r.next ≤ sent.length
  passed : ((sent.take r.next).drop r.start).Perm (r.received ++ r.lost)
  inOrder : r.received.Sublist ((sent.take r.next).drop r.start)

variable {capacity n : Nat} {sent : List α} {r : Account α}

@[simp] theorem skip_start : (r.skip n sent).start = r.start := rfl

@[simp] theorem skip_received : (r.skip n sent).received = r.received := rfl

theorem sound_subscribe (sent : List α) : Sound sent (subscribe sent) where
  start := Nat.le_refl _
  next := Nat.le_refl _
  passed := by simp [subscribe]
  inOrder := by simp [subscribe]

theorem Sound.send (h : Sound sent r) (value : α) : Sound (sent ++ [value]) r where
  start := h.start
  next := by
    have := h.next
    rw [List.length_append]
    omega
  passed := by
    rw [List.take_append_of_le_length h.next]
    exact h.passed
  inOrder := by
    rw [List.take_append_of_le_length h.next]
    exact h.inOrder

/-- Moving on past `n` values lengthens what is behind by those. -/
theorem passed_add (h : r.start ≤ r.next) (n : Nat) (hn : r.next ≤ sent.length) :
    (sent.take (r.next + n)).drop r.start = (sent.take r.next).drop r.start ++ (sent.drop r.next).take n := by
  rw [List.take_add, List.drop_append_of_le_length]
  rw [List.length_take]
  omega

theorem Sound.skip (h : Sound sent r) (hn : r.next + n ≤ sent.length) : Sound sent (r.skip n sent) := by
  have hpast := passed_add h.start n h.next
  constructor
  · exact Nat.le_trans h.start (Nat.le_add_right _ _)
  · exact hn
  · rw [Account.skip, hpast, ← List.append_assoc]
    exact h.passed.append_right _
  · rw [Account.skip, hpast]
    exact h.inOrder.trans (List.sublist_append_left _ _)

theorem Sound.take (h : Sound sent r) {value : α} (hvalue : sent[r.next]? = some value) : Sound sent (r.take value) := by
  obtain ⟨hlt, rfl⟩ := List.getElem?_eq_some_iff.1 hvalue
  have hpast := passed_add h.start 1 h.next
  have hone : (sent.drop r.next).take 1 = [sent[r.next]] := by
    rw [List.drop_eq_getElem_cons hlt, List.take_succ_cons, List.take_zero]
  rw [hone] at hpast
  -- the value goes before those lost
  have hmoved : (r.received ++ r.lost ++ [sent[r.next]]).Perm (r.received ++ [sent[r.next]] ++ r.lost) := by
    rw [List.append_assoc, List.append_assoc]
    exact List.perm_append_comm.append_left _
  constructor
  · exact Nat.le_succ_of_le h.start
  · exact hlt
  · rw [Account.take, hpast]
    exact (h.passed.append_right _).trans hmoved
  · rw [Account.take, hpast]
    exact h.inOrder.append (List.Sublist.refl _)

/-- Without losses, the values since it subscribed are those received and those ahead. -/
theorem Sound.since_eq (h : Sound sent r) (hlost : r.lost = []) : r.since sent = r.received ++ r.ahead sent := by
  have hpassed := h.passed
  rw [hlost, List.append_nil] at hpassed
  have heq : r.received = (sent.take r.next).drop r.start := h.inOrder.eq_of_length hpassed.length_eq.symm
  have hle : r.start ≤ (sent.take r.next).length := by
    rw [List.length_take]
    have := h.start
    have := h.next
    omega
  rw [heq, ahead, since, ← List.drop_append_of_le_length hle, List.take_append_drop]

end Account

namespace Broadcast.Documented

variable {b : Broadcast α} {capacity : Nat} {c : b.Shared} {sent : List α} {r r' : b.Receiver} {account : Account α}

/-- What a receiver is answered is the next value, unless it lags; then the account moves on past what it lost. -/
theorem recv_cases (d : b.Documented capacity) (hahead : d.Ahead c r (account.ahead sent)) {answer : Received α}
    (h : b.recv c r = some (answer, r')) :
    (∃ a, answer = .value a ∧ sent[account.next]? = some a ∧ d.Ahead c r' ((account.take a).ahead sent)) ∨
      ∃ n, answer = .lagged n ∧ account.Lags capacity sent ∧ account.next + n ≤ sent.length ∧
        d.Ahead c r' ((account.skip n sent).ahead sent) := by
  have hlen : (account.ahead sent).length = sent.length - account.next := List.length_drop
  by_cases hlags : capacity < (account.ahead sent).length
  · obtain ⟨r'', hrecv, hr⟩ := d.lagged c r _ hahead hlags
    rw [hrecv] at h
    cases h
    refine .inr ⟨_, rfl, ?_, by omega, ?_⟩
    · unfold Account.Lags
      omega
    · rw [Account.ahead, List.drop_drop] at hr
      exact hr
  · by_cases hlt : account.next < sent.length
    · have hcons : account.ahead sent = sent[account.next] :: sent.drop (account.next + 1) := List.drop_eq_getElem_cons hlt
      rw [hcons] at hahead hlags
      obtain ⟨r'', hrecv, hr⟩ := d.retained c r _ _ hahead (Nat.le_of_not_lt hlags)
      rw [hrecv] at h
      cases h
      exact .inl ⟨_, rfl, List.getElem?_eq_getElem hlt, hr⟩
    · have hnil : account.ahead sent = [] := List.drop_eq_nil_of_le (Nat.le_of_not_lt hlt)
      rw [hnil] at hahead
      rw [d.waits c r hahead] at h
      cases h

/-- The first value sent after a receiver subscribed is the one it receives. -/
theorem recv_sent (d : b.Documented capacity) (hpos : 0 < capacity) (c : b.Shared) (a : α) :
    ∃ r, b.recv (b.send c a) (b.subscribe c) = some (.value a, r) := by
  obtain ⟨r, hrecv, -⟩ := d.retained _ _ a [] (d.order c _ [] a (d.subscribed c)) hpos
  exact ⟨r, hrecv⟩

end Broadcast.Documented

/-! ## The last values -/

/-- One more value kept, at most `capacity` in all: the oldest goes. -/
def keepLast (capacity : Nat) (kept : List α) (value : α) : List α :=
  (if kept.length = capacity then kept.tail else kept) ++ [value]

/-- Kept one after the other, the values left are the last ones. -/
theorem keepLast_rtake (capacity : Nat) (values : List α) (value : α) (h : 0 < capacity) :
    keepLast capacity (values.rtake capacity) value = (values ++ [value]).rtake capacity := by
  obtain ⟨n, rfl⟩ := Nat.exists_eq_succ_of_ne_zero (Nat.ne_of_gt h)
  rw [List.rtake_concat_succ, keepLast]
  congr 1
  simp only [List.rtake, List.length_drop]
  split
  · rw [List.tail_drop]
    congr 1
    omega
  · congr 1
    omega

/-! ## A channel that keeps its values in order -/

/-- The last values sent, and how many were sent in all. -/
structure Ring (α : Type) (capacity : Nat) where
  count : Nat
  kept : List α
  lasts : ∃ sent : List α, count = sent.length ∧ kept = sent.rtake capacity

namespace Ring

variable {capacity place : Nat}

def send (h : 0 < capacity) (c : Ring α capacity) (a : α) : Ring α capacity where
  count := c.count + 1
  kept := keepLast capacity c.kept a
  lasts := by
    obtain ⟨sent, hcount, hkept⟩ := c.lasts
    refine ⟨sent ++ [a], ?_, ?_⟩
    · rw [hcount, List.length_append]
      rfl
    · rw [hkept, keepLast_rtake capacity sent a h]

def recv (c : Ring α capacity) (place : Nat) : Option (Received α × Nat) :=
  if place + capacity < c.count then some (.lagged (c.count - capacity - place), c.count - capacity)
  else (c.kept[place - (c.count - capacity)]?).map fun a => (.value a, place + 1)

/-- What a receiver at a place has before it. -/
def Ahead (c : Ring α capacity) (place : Nat) (ahead : List α) : Prop :=
  ∃ sent : List α, c.count = sent.length ∧ c.kept = sent.rtake capacity ∧ place ≤ sent.length ∧ ahead = sent.drop place

/-- The oldest value retained is the first one kept. -/
theorem getElem?_rtake (sent : List α) (h : sent.length ≤ place + capacity) :
    (sent.rtake capacity)[place - (sent.length - capacity)]? = sent[place]? := by
  rw [List.rtake, List.getElem?_drop]
  congr 1
  omega

variable {c : Ring α capacity} {ahead : List α}

theorem Ahead.recv_kept (h : c.Ahead place ahead) (hle : ahead.length ≤ capacity) :
    c.recv place = ahead.head?.map fun a => (.value a, place + 1) := by
  obtain ⟨sent, hcount, hkept, hplace, rfl⟩ := h
  rw [List.length_drop] at hle
  unfold Ring.recv
  rw [if_neg (by omega), hcount, hkept, getElem?_rtake sent (by omega), List.head?_drop]

theorem Ahead.recv_behind (h : c.Ahead place ahead) (hlt : capacity < ahead.length) :
    c.recv place = some (.lagged (ahead.length - capacity), place + (ahead.length - capacity)) := by
  obtain ⟨sent, hcount, hkept, hplace, rfl⟩ := h
  rw [List.length_drop] at hlt ⊢
  unfold Ring.recv
  rw [if_pos (by omega), hcount]
  congr 2
  · congr 1
    omega
  · omega

/-- Past `n` of the values before it. -/
theorem Ahead.move (h : c.Ahead place ahead) {n : Nat} (hn : n ≤ ahead.length) : c.Ahead (place + n) (ahead.drop n) := by
  obtain ⟨sent, hcount, hkept, hplace, rfl⟩ := h
  rw [List.length_drop] at hn
  exact ⟨sent, hcount, hkept, by omega, List.drop_drop⟩

end Ring

def ring (α : Type) (capacity : Nat) (h : 0 < capacity) : Broadcast α where
  Shared := Ring α capacity
  Receiver := Nat
  channel := ⟨0, [], [], rfl, by simp⟩
  send := Ring.send h
  subscribe c := c.count
  recv := Ring.recv

/-- It does what is documented. -/
def documented_ring (α : Type) (capacity : Nat) (h : 0 < capacity) : (ring α capacity h).Documented capacity where
  Ahead := Ring.Ahead
  subscribed c := by
    obtain ⟨sent, hcount, hkept⟩ := c.lasts
    exact ⟨sent, hcount, hkept, Nat.le_of_eq hcount, (List.drop_eq_nil_of_le (Nat.le_of_eq hcount.symm)).symm⟩
  order := by
    rintro c place ahead a ⟨sent, hcount, hkept, hplace, rfl⟩
    refine ⟨sent ++ [a], ?_, ?_, ?_, (List.drop_append_of_le_length hplace).symm⟩
    · rw [List.length_append]
      exact congrArg (· + 1) hcount
    · rw [← keepLast_rtake capacity sent a h, ← hkept]
      rfl
    · rw [List.length_append]
      exact Nat.le_add_right_of_le hplace
  waits _ _ h := h.recv_kept (Nat.zero_le _)
  retained _ _ _ _ h hle := ⟨_, h.recv_kept hle, h.move (Nat.le_add_left 1 _)⟩
  lagged _ _ _ h hlt := ⟨_, h.recv_behind hlt, h.move (Nat.sub_le _ _)⟩

end StorageHarvester.Channel
