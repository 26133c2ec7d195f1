/-
The stream of live changes (`LiveStore::publish`, `broadcast`, `subscribe` and `recent` in
`src/live.rs`, `events` in `src/atlas.rs`). Publishing a change keeps it for clients that connect
later and then sends it to those connected, in two steps between which other threads run; a client
subscribes first and then reads what was kept. Whatever the interleaving, it misses no change: each
one some thread has published is among those it reads, or on its stream, in the thread's order. The
channel is a parameter, with what is documented of it.
-/
import StorageHarvester.Lib.Channel
import Mathlib.Logic.Relation

namespace StorageHarvester.Events

open Channel

/-! ## Messages -/

/-- `Message`: the data is the text of a JSON object. -/
structure Message where
  kind : String
  data : List Char
  object : data.head? = some '\x7b'
  deriving DecidableEq

def Message.isChange (m : Message) : Bool := m.kind == "change"

/-- What a client is sent (`axum::response::sse::Event`). -/
structure Event where
  event : String
  data : List Char
  deriving DecidableEq, Repr

/-- A message of the stream, passed on as it is. -/
def Message.live (m : Message) : Event := ⟨m.kind, m.data⟩

/-- A message kept from before: `{...}` becomes `{"replay":true,...}`. -/
def Message.replayed (m : Message) : Event := ⟨m.kind, "\x7b\"replay\":true,".toList ++ m.data.drop 1⟩

/-! ## The store and its clients -/

/-- Events kept for clients that connect later (`REPLAY`). -/
def replay : Nat := 200

/-- The values the channel of `LiveStore` retains. -/
def capacity : Nat := 4096

variable {ι κ : Type} {b : Broadcast (ι × Message)}

/-- A client whose stream has begun. -/
structure Stream (b : Broadcast (ι × Message)) where
  receiver : b.Receiver
  /-- What comes before the live messages. -/
  first : List Event
  /-- What the client was sent. -/
  out : List Event
  /-- Not in the source: what became of the messages since it subscribed, and the changes that had been kept, ever,
  when it read those kept. -/
  account : Account (ι × Message)
  snapshot : Nat

inductive Client (b : Broadcast (ι × Message)) where
  | absent
  /-- Subscribed, the changes kept not read yet. -/
  | subscribed (receiver : b.Receiver) (account : Account (ι × Message))
  | streaming (stream : Stream b)

/-- The store between two steps of its publishing threads `ι` and its clients `κ`. -/
structure State (b : Broadcast (ι × Message)) (κ : Type) where
  /-- A change a thread has kept and not sent. -/
  phase : ι → Option Message
  recent : List Message
  events : b.Shared
  client : κ → Client b
  /-- Not in the source: what went through the channel and the changes kept, ever, each message with its thread. -/
  sent : List (ι × Message)
  kept : List (ι × Message)

def initial : State b κ where
  phase := fun _ => none
  recent := []
  events := b.channel
  client := fun _ => .absent
  sent := []
  kept := []

variable [DecidableEq ι]

/-- `publish` of a change, up to the send. -/
def State.keep (s : State b κ) (i : ι) (m : Message) : State b κ :=
  { s with
    phase := Function.update s.phase i (some m)
    recent := keepLast replay s.recent m
    kept := s.kept ++ [(i, m)] }

/-- A message sent, the thread's phase as it is after that. -/
def State.post (s : State b κ) (i : ι) (m : Message) (phase : ι → Option Message) : State b κ :=
  { s with phase := phase, events := b.send s.events (i, m), sent := s.sent ++ [(i, m)] }

/-- The send at the end of `publish`. -/
def State.send (s : State b κ) (i : ι) (m : Message) : State b κ := s.post i m (Function.update s.phase i none)

def State.moveClient [DecidableEq κ] (s : State b κ) (k : κ) (c : Client b) : State b κ :=
  { s with client := Function.update s.client k c }

/-- What a thread or a client does next; `hello` greets a client. -/
inductive Step [DecidableEq κ] (hello : Event) (s : State b κ) : State b κ → Prop
  | keep (i : ι) (m : Message) (hidle : s.phase i = none) (hchange : m.isChange = true) : Step hello s (s.keep i m)
  | send (i : ι) (m : Message) (hphase : s.phase i = some m) : Step hello s (s.send i m)
  /-- `publish` of another kind, or `broadcast`. -/
  | broadcast (i : ι) (m : Message) (hidle : s.phase i = none) (hother : m.isChange = false) :
      Step hello s (s.post i m s.phase)
  | subscribe (k : κ) (habsent : s.client k = .absent) :
      Step hello s (s.moveClient k (.subscribed (b.subscribe s.events) (Account.subscribe s.sent)))
  /-- The changes kept are read, and the stream begins with the greeting and those. -/
  | snapshot (k : κ) (r : b.Receiver) (account : Account (ι × Message)) (hsub : s.client k = .subscribed r account) :
      Step hello s (s.moveClient k (.streaming ⟨r, hello :: s.recent.map Message.replayed, [], account, s.kept.length⟩))
  /-- The next of what comes first. -/
  | next (k : κ) (c : Stream b) (e : Event) (rest : List Event) (hclient : s.client k = .streaming c)
      (hfirst : c.first = e :: rest) :
      Step hello s (s.moveClient k (.streaming { c with first := rest, out := c.out ++ [e] }))
  /-- The next message received. -/
  | receive (k : κ) (c : Stream b) (e : ι × Message) (r : b.Receiver) (hclient : s.client k = .streaming c)
      (hfirst : c.first = []) (hrecv : b.recv s.events c.receiver = some (.value e, r)) :
      Step hello s (s.moveClient k (.streaming
        { c with receiver := r, out := c.out ++ [e.2.live], account := c.account.take e }))
  /-- `RecvError::Lagged`: the client is told nothing. -/
  | lagged (k : κ) (c : Stream b) (n : Nat) (r : b.Receiver) (hclient : s.client k = .streaming c) (hfirst : c.first = [])
      (hrecv : b.recv s.events c.receiver = some (.lagged n, r)) :
      Step hello s (s.moveClient k (.streaming { c with receiver := r, account := c.account.skip n s.sent }))

/-- Any number of steps from the start. -/
def Reachable [DecidableEq κ] (hello : Event) (s : State b κ) : Prop := Relation.ReflTransGen (Step hello) initial s

/-- The changes of one thread, in order. -/
def changesBy (i : ι) (l : List (ι × Message)) : List Message :=
  (l.filter fun e => e.1 = i && e.2.isChange).map Prod.snd

/-- The kept changes the client read, the last ones at that time. -/
def Stream.read (c : Stream b) (s : State b κ) : List (ι × Message) := (s.kept.take c.snapshot).rtake replay

/-- What the client was sent and, once it has caught up, will have been sent. -/
def Stream.due (c : Stream b) (s : State b κ) : List Event :=
  c.out ++ c.first ++ (c.account.ahead s.sent).map fun e => e.2.live

/-- The changes of a thread that were kept when the client read them but not sent when it
subscribed: the stream brings them as well. -/
def Stream.twice (c : Stream b) (s : State b κ) (i : ι) : List Message :=
  (changesBy i (s.kept.take c.snapshot)).drop (changesBy i (s.sent.take c.account.start)).length

/-! ## What holds between two steps -/

theorem changesBy_append (i : ι) (l m : List (ι × Message)) : changesBy i (l ++ m) = changesBy i l ++ changesBy i m := by
  simp [changesBy]

@[simp] theorem changesBy_self {i : ι} {m : Message} (h : m.isChange = true) : changesBy i [(i, m)] = [m] := by
  simp [changesBy, h]

@[simp] theorem changesBy_other {i j : ι} (m : Message) (h : j ≠ i) : changesBy i [(j, m)] = [] := by
  simp [changesBy, h]

@[simp] theorem changesBy_quiet (i j : ι) {m : Message} (h : m.isChange = false) : changesBy i [(j, m)] = [] := by
  simp [changesBy, h]

/-- The threads' side: each has sent the changes it kept, but for the one it is about to send. -/
structure Published (s : State b κ) : Prop where
  sent : ∀ i, changesBy i s.kept = changesBy i s.sent ++ (s.phase i).toList
  phase : ∀ i m, s.phase i = some m → m.isChange = true
  recent : s.recent = (s.kept.map Prod.snd).rtake replay

/-- A thread had kept, when the client read, all the changes it had sent when that subscribed. -/
def Covered (s : State b κ) (start snapshot : Nat) : Prop :=
  ∀ i, changesBy i (s.sent.take start) <+: changesBy i (s.kept.take snapshot)

/-- The clients' side. -/
inductive Client.Sound (d : b.Documented capacity) (hello : Event) (s : State b κ) : Client b → Prop
  | absent : Sound d hello s .absent
  | subscribed {r : b.Receiver} {account : Account (ι × Message)} (hr : account.Sound s.sent)
      (hahead : d.Ahead s.events r (account.ahead s.sent)) (hnone : account.received = [])
      (hcovered : Covered s account.start s.kept.length) : Sound d hello s (.subscribed r account)
  | streaming {c : Stream b} (hr : c.account.Sound s.sent) (hahead : d.Ahead s.events c.receiver (c.account.ahead s.sent))
      (hsnapshot : c.snapshot ≤ s.kept.length) (hcovered : Covered s c.account.start c.snapshot)
      (hfirst : c.first ≠ [] → c.account.received = [])
      (hout : c.out ++ c.first = hello :: (c.read s).map (fun e => e.2.replayed) ++
        c.account.received.map fun e => e.2.live) : Sound d hello s (.streaming c)

structure Inv (d : b.Documented capacity) (hello : Event) (s : State b κ) : Prop where
  published : Published s
  clients : ∀ k, (s.client k).Sound d hello s

variable {d : b.Documented capacity} {hello : Event} {s s' : State b κ}

section Clients

variable {c : Client b}

/-- A client's side depends on what was sent and what was kept. -/
theorem Client.Sound.same (h : c.Sound d hello s) (hevents : s'.events = s.events) (hsent : s'.sent = s.sent)
    (hkept : s'.kept = s.kept) : c.Sound d hello s' := by
  have hread : ∀ c : Stream b, c.read s' = c.read s := by
    intro c
    rw [Stream.read, hkept, Stream.read]
  cases h with
  | absent => exact .absent
  | subscribed hr hahead hnone hcovered =>
    refine .subscribed (hsent ▸ hr) ?_ hnone ?_
    · rw [hevents, hsent]
      exact hahead
    · simpa only [Covered, hsent, hkept] using hcovered
  | streaming hr hahead hsnapshot hcovered hfirst hout =>
    refine .streaming (hsent ▸ hr) ?_ (hkept ▸ hsnapshot) ?_ hfirst ?_
    · rw [hevents, hsent]
      exact hahead
    · simpa only [Covered, hsent, hkept] using hcovered
    · rw [hread]
      exact hout

theorem Client.Sound.keep (h : c.Sound d hello s) (e : ι × Message) (hevents : s'.events = s.events) (hsent : s'.sent = s.sent)
    (hkept : s'.kept = s.kept ++ [e]) : c.Sound d hello s' := by
  cases h with
  | absent => exact .absent
  | subscribed hr hahead hnone hcovered =>
    refine .subscribed (hsent ▸ hr) ?_ hnone ?_
    · rw [hevents, hsent]
      exact hahead
    · intro i
      rw [List.take_length] at *
      have := hcovered i
      rw [List.take_length] at this
      rw [hsent, hkept, changesBy_append]
      exact this.trans (List.prefix_append _ _)
  | @streaming c hr hahead hsnapshot hcovered hfirst hout =>
    have htake : s'.kept.take c.snapshot = s.kept.take c.snapshot := by
      rw [hkept, List.take_append_of_le_length hsnapshot]
    refine .streaming (hsent ▸ hr) ?_ ?_ ?_ hfirst ?_
    · rw [hevents, hsent]
      exact hahead
    · rw [hkept, List.length_append]
      exact Nat.le_add_right_of_le hsnapshot
    · simpa only [Covered, hsent, htake] using hcovered
    · rw [Stream.read, htake]
      exact hout

theorem Client.Sound.send (h : c.Sound d hello s) (e : ι × Message) (hevents : s'.events = b.send s.events e)
    (hsent : s'.sent = s.sent ++ [e]) (hkept : s'.kept = s.kept) : c.Sound d hello s' := by
  have htake : ∀ r : Account (ι × Message), r.Sound s.sent → s'.sent.take r.start = s.sent.take r.start := by
    intro r hr
    rw [hsent, List.take_append_of_le_length (Nat.le_trans hr.start hr.next)]
  have hmore : ∀ (r : b.Receiver) (account : Account (ι × Message)), account.Sound s.sent →
      d.Ahead s.events r (account.ahead s.sent) → d.Ahead s'.events r (account.ahead s'.sent) := by
    intro r account hr hahead
    rw [hevents, hsent, Account.ahead, List.drop_append_of_le_length hr.next]
    exact d.order _ _ _ _ hahead
  cases h with
  | absent => exact .absent
  | subscribed hr hahead hnone hcovered =>
    refine .subscribed (hsent ▸ hr.send e) (hmore _ _ hr hahead) hnone ?_
    simpa only [Covered, htake _ hr, hkept] using hcovered
  | @streaming c hr hahead hsnapshot hcovered hfirst hout =>
    refine .streaming (hsent ▸ hr.send e) (hmore _ _ hr hahead) (hkept ▸ hsnapshot) ?_ hfirst ?_
    · simpa only [Covered, htake _ hr, hkept] using hcovered
    · rw [Stream.read, hkept]
      exact hout

/-- A client's step: the others are as before, and so is the store. -/
theorem Inv.moveClient [DecidableEq κ] (h : Inv d hello s) (k : κ) (hc : c.Sound d hello s) :
    Inv d hello (s.moveClient k c) := by
  refine ⟨⟨h.published.sent, h.published.phase, h.published.recent⟩, ?_⟩
  intro j
  by_cases hj : j = k
  · subst hj
    simp only [State.moveClient, Function.update_self]
    exact hc.same rfl rfl rfl
  · simp only [State.moveClient, Function.update_of_ne hj]
    exact (h.clients j).same rfl rfl rfl

end Clients

theorem inv_initial (d : b.Documented capacity) : Inv d hello (initial : State b κ) where
  published := ⟨fun _ => rfl, fun _ _ h => (by cases h), by simp [initial]⟩
  clients := fun _ => .absent

theorem Published.keep (h : Published s) {i : ι} {m : Message} (hidle : s.phase i = none) (hchange : m.isChange = true) :
    Published (s.keep i m) := by
  constructor
  · intro j
    have hj := h.sent j
    by_cases hij : j = i
    · subst hij
      rw [hidle, Option.toList_none, List.append_nil] at hj
      simp only [State.keep, changesBy_append, Function.update_self, hj, changesBy_self hchange, Option.toList_some]
    · simp only [State.keep, changesBy_append, Function.update_of_ne hij, hj, changesBy_other m (Ne.symm hij), List.append_nil]
  · intro j m' hj
    by_cases hij : j = i
    · subst hij
      simp only [State.keep, Function.update_self] at hj
      cases hj
      exact hchange
    · simp only [State.keep, Function.update_of_ne hij] at hj
      exact h.phase j m' hj
  · simp only [State.keep, h.recent, List.map_append, List.map_cons, List.map_nil]
    exact keepLast_rtake _ _ _ (by decide)

theorem Published.send (h : Published s) {i : ι} {m : Message} (hphase : s.phase i = some m) :
    Published (s.send i m) := by
  have hchange := h.phase i m hphase
  constructor
  · intro j
    have hj := h.sent j
    by_cases hij : j = i
    · subst hij
      rw [hphase, Option.toList_some] at hj
      simp only [State.send, State.post, changesBy_append, Function.update_self, hj, changesBy_self hchange, Option.toList_none,
        List.append_nil]
    · simp only [State.send, State.post, changesBy_append, Function.update_of_ne hij, hj, changesBy_other m (Ne.symm hij), List.append_nil]
  · intro j m' hj
    by_cases hij : j = i
    · subst hij
      simp only [State.send, State.post, Function.update_self] at hj
      cases hj
    · simp only [State.send, State.post, Function.update_of_ne hij] at hj
      exact h.phase j m' hj
  · exact h.recent

theorem Inv.step [DecidableEq κ] (h : Inv d hello s) (hs : Step hello s s') : Inv d hello s' := by
  cases hs with
  | keep i m hidle hchange =>
    exact ⟨h.published.keep hidle hchange, fun k => (h.clients k).keep (i, m) rfl rfl rfl⟩
  | send i m hphase => exact ⟨h.published.send hphase, fun k => (h.clients k).send (i, m) rfl rfl rfl⟩
  | broadcast i m hidle hother =>
    refine ⟨⟨?_, h.published.phase, h.published.recent⟩, fun k => (h.clients k).send (i, m) rfl rfl rfl⟩
    intro j
    simp only [State.post, changesBy_append, changesBy_quiet j i hother, List.append_nil]
    exact h.published.sent j
  | subscribe k habsent =>
    refine h.moveClient k (.subscribed (Account.sound_subscribe _) ?_ rfl ?_)
    · rw [Account.ahead, Account.subscribe, List.drop_length]
      exact d.subscribed _
    · intro i
      rw [Account.subscribe, List.take_length, List.take_length, h.published.sent i]
      exact List.prefix_append _ _
  | snapshot k r account hsub =>
    have hk := h.clients k
    rw [hsub] at hk
    cases hk with
    | subscribed hr hahead hnone hcovered =>
      refine h.moveClient k (.streaming hr hahead (Nat.le_refl _) hcovered (fun _ => hnone) ?_)
      simp only [Stream.read, h.published.recent, hnone, List.rtake, List.take_length, List.length_map, List.map_drop,
        List.map_map, List.map_nil, List.append_nil, List.nil_append]
      rfl
  | next k c e rest hclient hfirst =>
    have hk := h.clients k
    rw [hclient] at hk
    cases hk with
    | streaming hr hahead hsnapshot hcovered hnone hout =>
      refine h.moveClient k (.streaming hr hahead hsnapshot hcovered ?_ ?_)
      · exact fun _ => hnone (by rw [hfirst]; exact List.cons_ne_nil _ _)
      · rw [hfirst] at hout
        simpa [Stream.read] using hout
  | receive k c e r hclient hfirst hrecv =>
    have hk := h.clients k
    rw [hclient] at hk
    cases hk with
    | streaming hr hahead hsnapshot hcovered hnone hout =>
      -- what came is what lies next ahead of it: nothing was overwritten meanwhile
      rcases d.recv_cases hahead hrecv with ⟨a, he, hnext, hahead⟩ | ⟨n, he, -⟩
      · cases he
        refine h.moveClient k (.streaming (hr.take hnext) hahead hsnapshot hcovered ?_ ?_)
        · exact fun hne => absurd hfirst hne
        · rw [hfirst, List.append_nil] at hout
          simp [Stream.read, hfirst, Account.take, hout]
      · cases he
  | lagged k c n r hclient hfirst hrecv =>
    have hk := h.clients k
    rw [hclient] at hk
    cases hk with
    | streaming hr hahead hsnapshot hcovered hnone hout =>
      rcases d.recv_cases hahead hrecv with ⟨a, he, -⟩ | ⟨n, he, -, hle, hahead⟩
      · cases he
      · cases he
        exact h.moveClient k (.streaming (hr.skip hle) hahead hsnapshot hcovered hnone hout)

theorem Reachable.inv [DecidableEq κ] (d : b.Documented capacity) (h : Reachable hello s) : Inv d hello s := by
  induction h with
  | refl => exact inv_initial d
  | tail _ hs ih => exact ih.step hs

/-! ## No change is missed -/

/-- What a thread sends after a client has subscribed, with the change it is about to send: those
the client has read already, and those kept since. -/
theorem Inv.since (h : Inv d hello s) {k : κ} {c : Stream b} (hc : s.client k = .streaming c) (i : ι) :
    changesBy i (c.account.since s.sent) ++ (s.phase i).toList = c.twice s i ++ changesBy i (s.kept.drop c.snapshot) := by
  have hk := h.clients k
  rw [hc] at hk
  cases hk with
  | streaming hr hahead hsnapshot hcovered hfirst hout =>
    obtain ⟨twice, htwice⟩ := hcovered i
    have heq : c.twice s i = twice := by rw [Stream.twice, ← htwice, List.drop_left]
    have hsent := h.published.sent i
    rw [← List.take_append_drop c.account.start s.sent, ← List.take_append_drop c.snapshot s.kept, changesBy_append,
      changesBy_append, ← htwice, List.append_assoc, List.append_assoc] at hsent
    rw [heq, Account.since]
    exact (List.append_cancel_left hsent).symm

/-- A client to which no message was lost. -/
theorem Inv.due (h : Inv d hello s) {k : κ} {c : Stream b} (hc : s.client k = .streaming c) (hlost : c.account.lost = []) :
    c.due s = hello :: (c.read s).map (fun e => e.2.replayed) ++ (c.account.since s.sent).map fun e => e.2.live := by
  have hk := h.clients k
  rw [hc] at hk
  cases hk with
  | streaming hr hahead hsnapshot hcovered hfirst hout =>
    rw [Stream.due, hout, hr.since_eq hlost, List.map_append, List.append_assoc]

variable [DecidableEq κ]

/-- The messages a client has lost. -/
def Client.lost : Client b → List (ι × Message)
  | .absent => []
  | .subscribed _ account => account.lost
  | .streaming c => c.account.lost

/-- The client is not further behind than the channel retains. -/
def KeepsUp (k : κ) (s : State b κ) : Prop :=
  ∀ c, s.client k = .streaming c → ¬c.account.Lags capacity s.sent

/-- Any number of steps from the start, the client keeping up all the time. -/
def KeptUp (hello : Event) (k : κ) (s : State b κ) : Prop :=
  Relation.ReflTransGen (fun s s' => Step hello s s' ∧ KeepsUp k s') initial s

theorem KeptUp.reachable {k : κ} (h : KeptUp hello k s) : Reachable hello s := by
  induction h with
  | refl => exact .refl
  | tail _ hs ih => exact ih.tail hs.1

/-- What a step does to a client: nothing lost unless it lags. -/
theorem Step.lost {k : κ} (hinv : Inv d hello s) (hs : Step hello s s') (hkeeps : KeepsUp k s) (h : (s.client k).lost = []) :
    (s'.client k).lost = [] := by
  have hmove : ∀ (j : κ) (c : Client b), (j = k → c.lost = []) → ((s.moveClient j c).client k).lost = [] := by
    intro j c hj
    by_cases hjk : k = j
    · subst hjk
      simp only [State.moveClient, Function.update_self]
      exact hj rfl
    · simpa only [State.moveClient, Function.update_of_ne hjk] using h
  cases hs with
  | keep i m hidle hchange => exact h
  | send i m hphase => exact h
  | broadcast i m hidle hother => exact h
  | subscribe j habsent => exact hmove j _ fun _ => rfl
  | snapshot j r account hsub =>
    refine hmove j _ ?_
    rintro rfl
    rw [hsub] at h
    exact h
  | next j c e rest hclient hfirst =>
    refine hmove j _ ?_
    rintro rfl
    rw [hclient] at h
    exact h
  | receive j c e r hclient hfirst hrecv =>
    refine hmove j _ ?_
    rintro rfl
    rw [hclient] at h
    exact h
  | lagged j c n r hclient hfirst hrecv =>
    refine hmove j _ ?_
    rintro rfl
    have hk := hinv.clients j
    rw [hclient] at hk
    cases hk with
    | streaming hr hahead =>
      rcases d.recv_cases hahead hrecv with ⟨a, he, -⟩ | ⟨-, -, hlags, -⟩
      · cases he
      · exact absurd hlags (hkeeps c hclient)

theorem KeptUp.lost (d : b.Documented capacity) {k : κ} (h : KeptUp hello k s) : KeepsUp k s ∧ (s.client k).lost = [] := by
  induction h with
  | refl => exact ⟨fun c hc => (by cases hc), rfl⟩
  | tail hrun hs ih =>
    have hinv := (KeptUp.reachable hrun).inv d
    exact ⟨hs.2, hs.1.lost hinv ih.1 ih.2⟩

/-- Whatever the threads do between a client's subscribing and its reading what was kept, and
after: a client that keeps up is sent the last changes kept when it read them, marked, and then
every message sent since it subscribed. Of each thread's changes these are the ones it has kept
since, in its order, and before them those it had kept and not yet sent; only the one it is about
to send is still missing. -/
theorem stream_complete (d : b.Documented capacity) {k : κ} {c : Stream b} (h : KeptUp hello k s) (hc : s.client k = .streaming c) :
    c.due s = hello :: (c.read s).map (fun e => e.2.replayed) ++ (c.account.since s.sent).map (fun e => e.2.live) ∧
      ∀ i, changesBy i (c.account.since s.sent) ++ (s.phase i).toList =
        c.twice s i ++ changesBy i (s.kept.drop c.snapshot) := by
  have hinv := h.reachable.inv d
  have hlost := (h.lost d).2
  rw [hc] at hlost
  exact ⟨hinv.due hc hlost, hinv.since hc⟩

/-! ### A run -/

def grown : Message := ⟨"change", "\x7b\"db\":4096\x7d".toList, rfl⟩

def shrunk : Message := ⟨"change", "\x7b\"db\":-4096\x7d".toList, rfl⟩

def greeting : Event := ⟨"hello", "\x7b\x7d".toList⟩

theorem capacity_pos : 0 < capacity := by decide

/-- A channel that keeps the last 4096 messages in order. -/
abbrev events : Broadcast (Fin 2 × Message) := ring (Fin 2 × Message) capacity capacity_pos

/-- A client that subscribes and reads between the keep and the send of a change is sent it twice, marked and live;
another change is kept after. -/
theorem stream_complete_joined : ∃ (s : State events Unit) (c : Stream events), KeptUp greeting () s ∧ s.client () = .streaming c ∧
    c.out = [greeting, grown.replayed, grown.live] ∧
    c.due s = greeting :: (c.read s).map (fun e => e.2.replayed) ++ (c.account.since s.sent).map (fun e => e.2.live) ∧
    ∀ i, changesBy i (c.account.since s.sent) ++ (s.phase i).toList = c.twice s i ++ changesBy i (s.kept.drop c.snapshot) := by
  have hkeeps : ∀ s : State events Unit, s.sent.length ≤ 1 → KeepsUp () s := by
    intro s hs c _ hlags
    unfold Account.Lags capacity at hlags
    omega
  have d := documented_ring (Fin 2 × Message) capacity capacity_pos
  obtain ⟨r, hrecv⟩ := d.recv_sent capacity_pos events.channel (0, grown)
  have h0 : KeptUp greeting () (initial : State events Unit) := .refl
  have h1 := h0.tail ⟨.keep 0 grown rfl rfl, hkeeps _ (by decide)⟩
  have h2 := h1.tail ⟨.subscribe () rfl, hkeeps _ (by decide)⟩
  have h3 := h2.tail ⟨.snapshot () _ _ rfl, hkeeps _ (by decide)⟩
  have h4 := h3.tail ⟨.send 0 grown rfl, hkeeps _ (by decide)⟩
  have h5 := h4.tail ⟨.next () _ _ _ rfl rfl, hkeeps _ (by decide)⟩
  have h6 := h5.tail ⟨.next () _ _ _ rfl rfl, hkeeps _ (by decide)⟩
  have h7 := h6.tail ⟨.receive () _ (0, grown) r rfl rfl hrecv, hkeeps _ (Nat.le_refl 1)⟩
  have h8 := h7.tail ⟨.keep 1 shrunk rfl rfl, hkeeps _ (Nat.le_refl 1)⟩
  exact ⟨_, _, h8, rfl, rfl, stream_complete d h8 rfl⟩

end StorageHarvester.Events
