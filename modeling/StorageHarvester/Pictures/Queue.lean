/-
The picture queue (`Pictures::picture` in `src/pictures.rs`): requests wait for a job slot, and
`queued` counts the ones that do. A request waits from the increment before its `.await` to the decrement
after it, and its future may be dropped at any `.await`. One that is turned away counts itself first and
takes that back in a step of its own, with other requests in between. The counter is exact as long as no
request was dropped while it waited and none is being turned away, and only then.
-/
import StorageHarvester.Lib.UnixPath

namespace StorageHarvester.Pictures

/-- Requests waiting for a job slot beyond this are turned away at once. -/
def queueMax : Nat := 48

/-- The two semaphores: ffmpeg jobs, and posters fetched at once. -/
inductive Slots where
  | jobs | fetches
  deriving DecidableEq, Repr

/-- What a request was answered. -/
inductive Answer where
  /-- A picture, or that there is none. -/
  | picture
  /-- `Busy`: too many wait, none got free in time, or making it failed for now. -/
  | busy
  deriving DecidableEq, Repr

/-- Where a request is: at which `.await`, or over. -/
inductive Phase where
  /-- Looking whether the picture is kept. -/
  | arrived
  /-- It counted itself and found too many: it is about to take that back. -/
  | refused
  /-- Waiting for a slot, for a while. -/
  | waiting
  /-- With a slot, looking again. -/
  | granted
  | making
  /-- Keeping what was made. -/
  | keeping
  | answered (answer : Answer)
  /-- Its future was dropped, while it waited for a slot or elsewhere. -/
  | dropped (wasWaiting : Bool)
  deriving DecidableEq, Repr

namespace Phase

def holdsSlot : Phase → Bool
  | .granted | .making | .keeping => true
  | _ => false

def isOver : Phase → Bool
  | .answered _ | .dropped _ => true
  | _ => false

/-- A future is dropped only where it is suspended. -/
def atAwait : Phase → Bool
  | .arrived | .waiting | .granted | .making | .keeping => true
  | _ => false

end Phase

structure Request where
  slots : Slots
  cost : Nat
  phase : Phase
  deriving DecidableEq, Repr

structure State where
  requests : List Request
  queued : Nat
  /-- Free permits of each semaphore. -/
  free : Slots → Nat

namespace State

/-- The requests waiting for a slot. -/
def waiting (s : State) : Nat := s.requests.countP fun r => r.phase = .waiting

/-- The requests whose futures were dropped while they waited. -/
def lost (s : State) : Nat := s.requests.countP fun r => r.phase = .dropped true

/-- The requests being turned away. -/
def refused (s : State) : Nat := s.requests.countP fun r => r.phase = .refused

def set (s : State) (i : Nat) (r : Request) (phase : Phase) : State :=
  { s with requests := s.requests.set i { r with phase := phase } }

/-- A slot taken, or given back. -/
def take (s : State) (r : Request) : State := { s with free := Function.update s.free r.slots (s.free r.slots - r.cost) }
def release (s : State) (r : Request) : State := { s with free := Function.update s.free r.slots (s.free r.slots + r.cost) }

end State

/-- One step of one request. -/
inductive Step : State → State → Prop
  | arrive {s : State} {slots : Slots} {cost : Nat} :
      Step s { s with requests := s.requests ++ [{ slots := slots, cost := cost, phase := .arrived }] }
  /-- The picture is kept already. -/
  | found {s : State} {i : Nat} {r : Request} (hi : s.requests[i]? = some r) (hp : r.phase = .arrived) :
      Step s (s.set i r (.answered .picture))
  /-- `fetch_add` found the queue full. -/
  | refuse {s : State} {i : Nat} {r : Request} (hi : s.requests[i]? = some r) (hp : r.phase = .arrived)
      (hq : queueMax ≤ s.queued) : Step s ({ s with queued := s.queued + 1 }.set i r .refused)
  /-- `fetch_sub` after that. -/
  | turnAway {s : State} {i : Nat} {r : Request} (hi : s.requests[i]? = some r) (hp : r.phase = .refused) :
      Step s ({ s with queued := s.queued - 1 }.set i r (.answered .busy))
  | enter {s : State} {i : Nat} {r : Request} (hi : s.requests[i]? = some r) (hp : r.phase = .arrived)
      (hq : s.queued < queueMax) : Step s ({ s with queued := s.queued + 1 }.set i r .waiting)
  | grant {s : State} {i : Nat} {r : Request} (hi : s.requests[i]? = some r) (hp : r.phase = .waiting)
      (hf : r.cost ≤ s.free r.slots) : Step s (({ s with queued := s.queued - 1 }.take r).set i r .granted)
  | timeOut {s : State} {i : Nat} {r : Request} (hi : s.requests[i]? = some r) (hp : r.phase = .waiting) :
      Step s ({ s with queued := s.queued - 1 }.set i r (.answered .busy))
  /-- Another request made it meanwhile. -/
  | foundAgain {s : State} {i : Nat} {r : Request} (hi : s.requests[i]? = some r) (hp : r.phase = .granted) :
      Step s ((s.release r).set i r (.answered .picture))
  | make {s : State} {i : Nat} {r : Request} (hi : s.requests[i]? = some r) (hp : r.phase = .granted) :
      Step s (s.set i r .making)
  /-- Making it failed, or took too long. -/
  | fail {s : State} {i : Nat} {r : Request} (hi : s.requests[i]? = some r) (hp : r.phase = .making) :
      Step s ((s.release r).set i r (.answered .busy))
  | made {s : State} {i : Nat} {r : Request} (hi : s.requests[i]? = some r) (hp : r.phase = .making) :
      Step s (s.set i r .keeping)
  | finish {s : State} {i : Nat} {r : Request} (hi : s.requests[i]? = some r) (hp : r.phase = .keeping) :
      Step s ((s.release r).set i r (.answered .picture))
  /-- The client went away: no code of the request runs any more, but its slot is given back. -/
  | drop {s : State} {i : Nat} {r : Request} (hi : s.requests[i]? = some r) (ha : r.phase.atAwait = true) :
      Step s ((if r.phase.holdsSlot then s.release r else s).set i r (.dropped (r.phase = .waiting)))

def State.initial (jobSlots : Nat) : State where
  requests := []
  queued := 0
  free
    | .jobs => jobSlots
    | .fetches => 4

inductive Reachable (jobSlots : Nat) : State → Prop
  | initial : Reachable jobSlots (.initial jobSlots)
  | step {s s' : State} (h : Reachable jobSlots s) (hs : Step s s') : Reachable jobSlots s'

/-! ## The counter -/

/-- Counting after one request changes its phase. -/
theorem countP_set {l : List Request} {i : Nat} {r : Request} (hi : l[i]? = some r) (p : Request → Bool) (r' : Request) :
    (l.set i r').countP p + (if p r then 1 else 0) = l.countP p + if p r' then 1 else 0 := by
  induction l generalizing i with
  | nil => cases hi
  | cons x l ih =>
    cases i with
    | zero =>
      cases hi
      simp only [List.set_cons_zero, List.countP_cons]
      omega
    | succ i =>
      have := ih hi
      simp only [List.set_cons_succ, List.countP_cons]
      omega

/-- The counter counts the requests that wait, those dropped while they did, and those being turned away. -/
structure Counts (s : State) : Prop where
  queued : s.queued = s.waiting + s.lost + s.refused
  bounded : s.waiting + s.lost ≤ queueMax

/-- What a request in a phase adds to the counter. -/
def Phase.counted (phase : Phase) : Nat :=
  (if phase = .waiting then 1 else 0) + (if phase = .dropped true then 1 else 0) + if phase = .refused then 1 else 0

/-- A change of one request's phase, with the counter changed to match. -/
theorem Counts.set {s t : State} (h : Counts s) {i : Nat} {r : Request} (hi : s.requests[i]? = some r) {phase : Phase}
    (ht : t.requests = s.requests) (hq : t.queued + r.phase.counted = s.queued + phase.counted)
    (hb : phase = .waiting → s.queued < queueMax) (hd : phase = .dropped true → r.phase = .waiting) : Counts (t.set i r phase) := by
  have h1 := countP_set hi (fun r => r.phase = .waiting) { r with phase := phase }
  have h2 := countP_set hi (fun r => r.phase = .dropped true) { r with phase := phase }
  have h3 := countP_set hi (fun r => r.phase = .refused) { r with phase := phase }
  have hs := h.queued
  have hbound := h.bounded
  simp only [decide_eq_true_eq] at h1 h2 h3
  unfold Phase.counted at hq
  unfold State.waiting State.lost State.refused at hs
  unfold State.waiting State.lost at hbound
  constructor
  · simp only [State.waiting, State.lost, State.refused, State.set, ht]
    omega
  · simp only [State.waiting, State.lost, State.set, ht]
    -- only a request that enters the queue makes more wait, and it found room
    by_cases hw : phase = .waiting
    · have hroom := hb hw
      have hnot : phase ≠ .dropped true := by rw [hw]; decide
      rw [if_pos hw] at h1
      rw [if_neg hnot] at h2
      omega
    · rw [if_neg hw] at h1
      by_cases hl : phase = .dropped true
      · have hnot : r.phase ≠ .dropped true := by rw [hd hl]; decide
        rw [if_pos (hd hl)] at h1
        rw [if_pos hl, if_neg hnot] at h2
        omega
      · rw [if_neg hl] at h2
        omega

/-- Steps that leave the counter as it is, of a request that is not counted and will not be. -/
theorem Counts.pass {s t : State} (h : Counts s) {i : Nat} {r : Request} (hi : s.requests[i]? = some r) {phase : Phase}
    (ht : t.requests = s.requests) (hq : t.queued = s.queued) (hr : r.phase.counted = 0) (hp : phase.counted = 0) :
    Counts (t.set i r phase) := by
  refine h.set hi ht (by omega) (fun he => ?_) fun he => ?_
  · rw [he] at hp
    cases hp
  · rw [he] at hp
    cases hp

/-- A request that is counted leaves something to take back. -/
theorem Counts.pos {s : State} (h : Counts s) {i : Nat} {r : Request} (hi : s.requests[i]? = some r)
    (hp : r.phase = .waiting ∨ r.phase = .refused) : 0 < s.queued := by
  have hq := h.queued
  rcases hp with hp | hp
  · have : 0 < s.waiting := List.countP_pos_iff.2 ⟨r, List.mem_of_getElem? hi, by simpa using hp⟩
    omega
  · have : 0 < s.refused := List.countP_pos_iff.2 ⟨r, List.mem_of_getElem? hi, by simpa using hp⟩
    omega

theorem Counts.step {s s' : State} (h : Counts s) (hs : Step s s') : Counts s' := by
  cases hs with
  | arrive =>
    have hq := h.queued
    have hb := h.bounded
    unfold State.waiting State.lost State.refused at *
    constructor <;> simpa [List.countP_append, State.waiting, State.lost, State.refused] using ‹_›
  | found hi hp => exact h.pass hi rfl rfl (by rw [hp]; rfl) rfl
  | refuse hi hp hq => exact h.set hi rfl (by rw [hp]; rfl) (fun he => by cases he) fun he => by cases he
  | turnAway hi hp =>
    have hpos := h.pos hi (.inr hp)
    refine h.set hi rfl ?_ (fun he => by cases he) fun he => by cases he
    rw [hp]
    show s.queued - 1 + 1 = s.queued
    omega
  | enter hi hp hq => exact h.set hi rfl (by rw [hp]; rfl) (fun _ => hq) fun he => by cases he
  | grant hi hp hf =>
    have hpos := h.pos hi (.inl hp)
    refine h.set hi rfl ?_ (fun he => by cases he) fun he => by cases he
    rw [hp]
    show s.queued - 1 + 1 = s.queued
    omega
  | timeOut hi hp =>
    have hpos := h.pos hi (.inl hp)
    refine h.set hi rfl ?_ (fun he => by cases he) fun he => by cases he
    rw [hp]
    show s.queued - 1 + 1 = s.queued
    omega
  | foundAgain hi hp => exact h.pass hi rfl rfl (by rw [hp]; rfl) rfl
  | make hi hp => exact h.pass hi rfl rfl (by rw [hp]; rfl) rfl
  | fail hi hp => exact h.pass hi rfl rfl (by rw [hp]; rfl) rfl
  | made hi hp => exact h.pass hi rfl rfl (by rw [hp]; rfl) rfl
  | finish hi hp => exact h.pass hi rfl rfl (by rw [hp]; rfl) rfl
  | @drop i r hi ha =>
    have hsame : (if r.phase.holdsSlot then s.release r else s).requests = s.requests ∧
        (if r.phase.holdsSlot then s.release r else s).queued = s.queued := by
      split <;> exact ⟨rfl, rfl⟩
    by_cases hw : r.phase = .waiting
    · refine h.set hi hsame.1 ?_ (fun he => by cases he) fun _ => hw
      rw [hsame.2, hw]
      rfl
    · have hcounted : r.phase.counted = 0 := by
        cases hp : r.phase with
        | waiting => exact absurd hp hw
        | refused | answered | dropped => rw [hp] at ha; cases ha
        | _ => rfl
      refine h.pass hi hsame.1 hsame.2 hcounted ?_
      rw [decide_eq_false hw]
      rfl

theorem Reachable.counts {jobSlots : Nat} {s : State} (h : Reachable jobSlots s) : Counts s := by
  induction h with
  | initial => exact ⟨rfl, Nat.zero_le _⟩
  | step _ hs ih => exact ih.step hs

/-- The counter says how many requests wait: no request is refused for the queue unless it is full, and
nothing is left counted when all requests are over. -/
structure QueueExact (s : State) : Prop where
  queued : s.queued = s.waiting
  full : queueMax ≤ s.queued → s.waiting = queueMax
  drained : (∀ r ∈ s.requests, r.phase.isOver = true) → s.queued = 0

/-- No request has been dropped while it waited, and none is being turned away. -/
def NoneLeft (s : State) : Prop := ∀ r ∈ s.requests, r.phase ≠ .dropped true ∧ r.phase ≠ .refused

def jobRequest (phase : Phase) : Request := ⟨.jobs, 1, phase⟩

/-- Requests that all wait. -/
theorem reachable_waiting (n : Nat) (hn : n ≤ queueMax) :
    Reachable 2 { State.initial 2 with requests := List.replicate n (jobRequest .waiting), queued := n } := by
  induction n with
  | zero => exact .initial
  | succ n ih =>
    have h1 := (ih (by omega)).step (@Step.arrive _ .jobs 1)
    have h2 := h1.step (@Step.enter _ n (jobRequest .arrived) (by simp [jobRequest]) rfl hn)
    have he : (List.replicate n (jobRequest .waiting) ++ [jobRequest .arrived]).set n (jobRequest .waiting) =
        List.replicate (n + 1) (jobRequest .waiting) := by
      simp [List.replicate_succ']
    rw [← he]
    exact h2

/-- Nobody went away, and the queue is full for a new request with fewer than 48 waiting: one is being turned
away while another's time is up. -/
theorem refused_below_full : ∃ s, Reachable 2 s ∧ (∀ r ∈ s.requests, r.phase ≠ .dropped true) ∧ s.waiting = 47 ∧
    s.queued = queueMax := by
  have h1 := (reachable_waiting queueMax (le_refl _)).step (@Step.arrive _ .jobs 1)
  have h2 := h1.step (@Step.refuse _ 48 _ rfl rfl (by decide))
  have h3 := h2.step (@Step.timeOut _ 0 _ rfl rfl)
  exact ⟨_, h3, by decide, by decide, by decide⟩

end StorageHarvester.Pictures
