/-
The process behind a change (`src/who.rs`): the event reader asks for a PID's lookup, which it keeps
for two seconds and which another thread answers from `/proc`. Whatever the two threads do, every
lookup handed out is answered once, in turn, with the process that has the PID, not the one that had
it two seconds before; neither the queue nor the cache grows past its bound; and no PID is looked up
twice in two seconds unless the cache was started over.
-/
import StorageHarvester.Config.Resolve
import StorageHarvester.Lib.Table
import Mathlib.Logic.Relation

namespace StorageHarvester.Resolver

/-! ## The event reader and the lookup thread -/

/-- A process, as an event names it. -/
structure Who where
  comm : Bytes
  container : Option Bytes
  deriving DecidableEq

/-- `TTL`, in nanoseconds. -/
def ttl : Nat := 2 * 1000000000

/-- `CACHED`. -/
def cached : Nat := 256

/-- `QUEUED`. -/
def queued : Nat := 64

/-- A lookup that was made: of which PID, and when. -/
structure Lookup where
  pid : Nat
  made : Nat
  deriving DecidableEq

/-- An answer: to which lookup, and what `/proc` said when. -/
structure Fill where
  lookup : Nat
  time : Nat
  who : Option Who

/-- A lookup goes by its number in `lookups`. -/
structure State where
  clock : Nat
  /-- Each PID's last lookup, with when it was made. -/
  cache : Table Nat (Nat × Nat)
  /-- What the lookup thread is to read, the PID with its lookup. -/
  queue : List (Nat × Nat)
  /-- What it reads. -/
  reading : Option (Nat × Nat)
  lookups : List Lookup
  filled : List Fill
  /-- When the cache was started over. -/
  cleared : List Nat

def initial (clock : Nat) : State := ⟨clock, .empty, [], none, [], [], []⟩

/-- Made less than `ttl` ago. -/
def fresh (now made : Nat) : Bool := now < made + ttl

/-- The entries less than `ttl` old. -/
def dropStale (now : Nat) (cache : Table Nat (Nat × Nat)) : Table Nat (Nat × Nat) :=
  cache.retain fun _ entry => if fresh now entry.1 then some entry else none

/-- Room for one more entry: those too old go, and if that is not enough, all. -/
def makeRoom (now : Nat) (cache : Table Nat (Nat × Nat)) : Table Nat (Nat × Nat) :=
  if cache.entries.length < cached then cache
  else if (dropStale now cache).entries.length < cached then dropStale now cache
  else .empty

/-- A new lookup, sent and kept. -/
def State.ask (s : State) (pid : Nat) : State :=
  { s with
    queue := s.queue ++ [(pid, s.lookups.length)]
    lookups := s.lookups ++ [⟨pid, s.clock⟩]
    cache := (makeRoom s.clock s.cache).put pid (s.clock, s.lookups.length)
    cleared := if cached ≤ (dropStale s.clock s.cache).entries.length then s.cleared ++ [s.clock] else s.cleared }

/-- `Resolver::lookup`, in the process `own`; `started` says whether there is a lookup thread. -/
def State.lookup (own : Nat) (started : Bool) (s : State) (pid : Int) : Option Nat × State :=
  if pid ≤ 0 ∨ pid = own then (none, s)
  else match s.cache.get pid.toNat with
    | some (made, lookup) =>
      if fresh s.clock made then (some lookup, s)
      else if started && s.queue.length < queued then (some s.lookups.length, s.ask pid.toNat) else (none, s)
    | none => if started && s.queue.length < queued then (some s.lookups.length, s.ask pid.toNat) else (none, s)

/-- What happens next; `world` is what `/proc` has of a PID at a time. -/
inductive Step (own : Nat) (started : Bool) (world : Nat → Nat → Option Who) (s : State) : State → Prop
  | tick (now : Nat) (hnow : s.clock ≤ now) : Step own started world s { s with clock := now }
  /-- The event reader asks who is behind an event. -/
  | lookup (pid : Int) : Step own started world s (s.lookup own started pid).2
  /-- The lookup thread takes the next lookup. -/
  | take (next : Nat × Nat) (rest : List (Nat × Nat)) (hidle : s.reading = none) (hqueue : s.queue = next :: rest) :
      Step own started world s { s with queue := rest, reading := some next }
  /-- It has read the process. -/
  | fill (pid lookup : Nat) (hreading : s.reading = some (pid, lookup)) :
      Step own started world s { s with
        reading := none
        filled := s.filled ++ [⟨lookup, s.clock, world s.clock pid⟩] }

/-- Any number of steps. -/
abbrev Steps (own : Nat) (started : Bool) (world : Nat → Nat → Option Who) : State → State → Prop :=
  Relation.ReflTransGen (Step own started world)

/-! ## What holds between two steps -/

variable {own : Nat} {started : Bool} {world : Nat → Nat → Option Who} {s s' : State}

/-- The lookups not answered yet, in turn. -/
def State.waiting (s : State) : List (Nat × Nat) := s.reading.toList ++ s.queue

/-- As many PIDs were looked up in the two seconds up to `time` as the cache holds. -/
def Crowded (lookups : List Lookup) (time : Nat) : Prop :=
  ∃ pids : List Nat, pids.Nodup ∧ cached ≤ pids.length ∧
    ∀ pid ∈ pids, ∃ l ∈ lookups, l.pid = pid ∧ l.made ≤ time ∧ time < l.made + ttl

theorem Crowded.append {lookups : List Lookup} {time : Nat} (h : Crowded lookups time) (more : List Lookup) :
    Crowded (lookups ++ more) time := by
  obtain ⟨pids, hnodup, hlength, hall⟩ := h
  refine ⟨pids, hnodup, hlength, ?_⟩
  intro pid hpid
  obtain ⟨l, hl, hrest⟩ := hall pid hpid
  exact ⟨l, List.mem_append_left _ hl, hrest⟩

structure Inv (world : Nat → Nat → Option Who) (s : State) : Prop where
  /-- Answered, being read and waiting, in the order they were made. -/
  inTurn : s.filled.map Fill.lookup ++ s.waiting.map Prod.snd = List.range s.lookups.length
  pids : ∀ e ∈ s.waiting, ∃ made ≤ s.clock, s.lookups[e.2]? = some ⟨e.1, made⟩
  answers : ∀ a ∈ s.filled, ∃ l, s.lookups[a.lookup]? = some l ∧ l.made ≤ a.time ∧ a.who = world a.time l.pid
  cache : ∀ pid made lookup, s.cache.get pid = some (made, lookup) → s.lookups[lookup]? = some ⟨pid, made⟩
  queue : s.queue.length ≤ queued
  bounded : s.cache.entries.length ≤ cached
  past : ∀ l ∈ s.lookups, l.made ≤ s.clock
  clearedPast : ∀ time ∈ s.cleared, time ≤ s.clock
  crowded : ∀ time ∈ s.cleared, Crowded s.lookups time
  /-- A lookup less than `ttl` old is in the cache, unless that was started over since. -/
  remembered : ∀ i l, s.lookups[i]? = some l → s.clock < l.made + ttl →
    s.cache.get l.pid = some (l.made, i) ∨ ∃ time ∈ s.cleared, l.made ≤ time
  /-- No PID is looked up twice within `ttl`, unless the cache was started over between. -/
  once : ∀ (i j : Nat) (a b : Lookup), s.lookups[i]? = some a → s.lookups[j]? = some b → i < j → a.pid = b.pid →
    a.made + ttl ≤ b.made ∨ ∃ time ∈ s.cleared, a.made ≤ time ∧ time ≤ b.made

theorem inv_initial (clock : Nat) : Inv world (initial clock) where
  inTurn := rfl
  pids := fun _ h => absurd h List.not_mem_nil
  answers := fun _ h => absurd h List.not_mem_nil
  cache := fun _ _ _ h => by cases h
  queue := Nat.zero_le _
  bounded := Nat.zero_le _
  past := fun _ h => absurd h List.not_mem_nil
  clearedPast := fun _ h => absurd h List.not_mem_nil
  crowded := fun _ h => absurd h List.not_mem_nil
  remembered := fun _ _ h => by cases h
  once := fun _ _ _ _ h => by cases h

theorem get_dropStale (now pid : Nat) (cache : Table Nat (Nat × Nat)) (entry : Nat × Nat) :
    (dropStale now cache).get pid = some entry ↔ cache.get pid = some entry ∧ fresh now entry.1 = true := by
  rw [dropStale, Table.get_retain, Option.bind_eq_some_iff]
  constructor
  · rintro ⟨e, he, hfresh⟩
    split at hfresh
    · cases hfresh
      exact ⟨he, by assumption⟩
    · cases hfresh
  · rintro ⟨he, hfresh⟩
    exact ⟨entry, he, if_pos hfresh⟩

/-- Room is made from what was there. -/
theorem get_of_get_makeRoom {now pid : Nat} {cache : Table Nat (Nat × Nat)} {entry : Nat × Nat}
    (h : (makeRoom now cache).get pid = some entry) : cache.get pid = some entry := by
  unfold makeRoom at h
  split at h
  · exact h
  · split at h
    · exact ((get_dropStale now pid cache entry).1 h).1
    · cases h

/-- And keeps what is fresh, unless the cache is started over. -/
theorem get_makeRoom {now pid : Nat} {cache : Table Nat (Nat × Nat)} {entry : Nat × Nat} (h : cache.get pid = some entry)
    (hfresh : fresh now entry.1 = true) (hroom : (dropStale now cache).entries.length < cached) :
    (makeRoom now cache).get pid = some entry := by
  unfold makeRoom
  split
  · exact h
  · exact (get_dropStale now pid cache entry).2 ⟨h, hfresh⟩

theorem length_makeRoom (now : Nat) (cache : Table Nat (Nat × Nat)) : (makeRoom now cache).entries.length < cached := by
  unfold makeRoom
  split
  · assumption
  · split
    · assumption
    · exact (by decide : 0 < cached)

theorem length_put (t : Table Nat (Nat × Nat)) (k : Nat) (v : Nat × Nat) : (t.put k v).entries.length ≤ t.entries.length + 1 :=
  Nat.succ_le_succ (List.length_filter_le _ _)

/-- What fills the cache are lookups less than `ttl` old. -/
theorem Inv.crowd (h : Inv world s) (hfull : cached ≤ (dropStale s.clock s.cache).entries.length) :
    Crowded s.lookups s.clock := by
  refine ⟨_, (dropStale s.clock s.cache).nodup, by rwa [List.length_map], ?_⟩
  intro pid hpid
  obtain ⟨⟨k, made, lookup⟩, he, rfl⟩ := List.mem_map.1 hpid
  obtain ⟨hget, hfresh⟩ := (get_dropStale _ _ _ _).1 (Table.get_eq_some.2 he)
  have hl := List.mem_of_getElem? (h.cache _ _ _ hget)
  exact ⟨_, hl, rfl, h.past _ hl, of_decide_eq_true hfresh⟩

/-- A lookup is made: the PID had none that is fresh. -/
theorem Inv.ask (h : Inv world s) {pid : Nat} (hqueue : s.queue.length < queued)
    (hstale : ∀ entry, s.cache.get pid = some entry → fresh s.clock entry.1 = false) : Inv world (s.ask pid) := by
  have hget : ∀ {i l}, s.lookups[i]? = some l → (s.lookups ++ [⟨pid, s.clock⟩])[i]? = some l := fun hi => by
    rw [List.getElem?_append_left (List.getElem?_eq_some_iff.1 hi).1, hi]
  have hnew : (s.lookups ++ [(⟨pid, s.clock⟩ : Lookup)])[s.lookups.length]? = some ⟨pid, s.clock⟩ := by simp
  have hcases : ∀ {i l}, (s.lookups ++ [⟨pid, s.clock⟩])[i]? = some l →
      s.lookups[i]? = some l ∨ i = s.lookups.length ∧ l = ⟨pid, s.clock⟩ := by
    intro i l hi
    rw [List.getElem?_append] at hi
    split at hi
    · exact .inl hi
    · obtain ⟨hlt, hl⟩ := List.getElem?_eq_some_iff.1 hi
      rw [List.length_singleton] at hlt
      refine .inr ⟨by omega, ?_⟩
      rw [← hl]
      simp
  -- no fresh lookup of this PID is left, unless the cache was started over
  have hagain : ∀ (i : Nat) (l : Lookup), s.lookups[i]? = some l → l.pid = pid → l.made + ttl ≤ s.clock ∨ ∃ time ∈ s.cleared, l.made ≤ time := by
    intro i l hi hpid
    by_cases hold : l.made + ttl ≤ s.clock
    · exact .inl hold
    · rcases h.remembered i l hi (by omega) with hcache | hcleared
      · rw [hpid] at hcache
        have := hstale _ hcache
        rw [fresh, decide_eq_false_iff_not] at this
        omega
      · exact .inr hcleared
  have hcleared : ∀ time ∈ s.cleared, time ∈ (s.ask pid).cleared := by
    intro time ht
    rw [State.ask]
    split
    · exact List.mem_append_left _ ht
    · exact ht
  constructor
  · have hturn := h.inTurn
    simp only [State.waiting, State.ask, List.map_append, List.length_append, List.length_singleton, List.range_succ,
      ← hturn, List.append_assoc] at hturn ⊢
    rfl
  · intro e he
    have he : e ∈ s.waiting ∨ e = (pid, s.lookups.length) := by
      simpa only [State.waiting, State.ask, ← List.append_assoc, List.mem_append, List.mem_singleton] using he
    rcases he with he | rfl
    · obtain ⟨made, hmade, hl⟩ := h.pids e he
      exact ⟨made, hmade, hget hl⟩
    · exact ⟨s.clock, Nat.le_refl _, hnew⟩
  · intro a ha
    obtain ⟨l, hl, hrest⟩ := h.answers a ha
    exact ⟨l, hget hl, hrest⟩
  · intro k made lookup hk
    simp only [State.ask, Table.get_put] at hk
    split at hk
    · subst_vars
      cases hk
      exact hnew
    · exact hget (h.cache k made lookup (get_of_get_makeRoom hk))
  · simp only [State.ask, List.length_append, List.length_singleton]
    exact hqueue
  · exact Nat.le_trans (length_put _ _ _) (length_makeRoom _ _)
  · intro l hl
    rcases List.mem_append.1 hl with hl | hl
    · exact h.past l hl
    · obtain rfl := List.mem_singleton.1 hl
      exact Nat.le_refl _
  · intro time ht
    simp only [State.ask] at ht
    split at ht
    · rcases List.mem_append.1 ht with ht | ht
      · exact h.clearedPast time ht
      · exact Nat.le_of_eq (List.mem_singleton.1 ht)
    · exact h.clearedPast time ht
  · intro time ht
    simp only [State.ask] at ht
    split at ht
    · rename_i hfull
      rcases List.mem_append.1 ht with ht | ht
      · exact (h.crowded time ht).append _
      · obtain rfl := List.mem_singleton.1 ht
        exact (h.crowd hfull).append _
    · exact (h.crowded time ht).append _
  · intro i l hi hfresh
    rcases hcases hi with hi | ⟨rfl, rfl⟩
    · by_cases hroom : (dropStale s.clock s.cache).entries.length < cached
      · rcases h.remembered i l hi hfresh with hcache | ⟨time, ht, hle⟩
        · by_cases hpid : l.pid = pid
          · rcases hagain i l hi hpid with hold | ⟨time, ht, hle⟩
            · exact absurd hfresh (Nat.not_lt.2 hold)
            · exact .inr ⟨time, hcleared time ht, hle⟩
          · refine .inl ?_
            simp only [State.ask, Table.get_put, if_neg hpid]
            exact get_makeRoom hcache (decide_eq_true hfresh) hroom
        · exact .inr ⟨time, hcleared time ht, hle⟩
      · refine .inr ⟨s.clock, ?_, h.past l (List.mem_of_getElem? hi)⟩
        rw [State.ask, if_pos (Nat.not_lt.1 hroom)]
        exact List.mem_append_right _ (List.mem_singleton.2 rfl)
    · exact .inl (Table.get_put_self _ _ _)
  · intro i j a b hi hj hij hpid
    have hlt : ∀ {k : Nat} {l : Lookup}, s.lookups[k]? = some l → k < s.lookups.length := fun hk =>
      (List.getElem?_eq_some_iff.1 hk).1
    rcases hcases hj with hj | ⟨rfl, rfl⟩
    · rcases hcases hi with hi | ⟨rfl, rfl⟩
      · rcases h.once i j a b hi hj hij hpid with hold | ⟨time, ht, hle⟩
        · exact .inl hold
        · exact .inr ⟨time, hcleared time ht, hle⟩
      · exact absurd (hlt hj) (Nat.not_lt.2 hij.le)
    · rcases hcases hi with hi | ⟨rfl, rfl⟩
      · rcases hagain i a hi hpid with hold | ⟨time, ht, hle⟩
        · exact .inl hold
        · exact .inr ⟨time, hcleared time ht, hle, h.clearedPast time ht⟩
      · exact absurd hij (Nat.lt_irrefl _)

/-- What asking for a PID's lookup comes to. -/
theorem lookup_cases (own : Nat) (started : Bool) (s : State) (pid : Int) :
    s.lookup own started pid = (none, s) ∨
    (0 < pid ∧ pid ≠ own ∧ ∃ made lookup, s.cache.get pid.toNat = some (made, lookup) ∧ fresh s.clock made = true ∧
      s.lookup own started pid = (some lookup, s)) ∨
    (0 < pid ∧ pid ≠ own ∧ s.queue.length < queued ∧
      (∀ entry, s.cache.get pid.toNat = some entry → fresh s.clock entry.1 = false) ∧
      s.lookup own started pid = (some s.lookups.length, s.ask pid.toNat)) := by
  by_cases hpid : pid ≤ 0 ∨ pid = own
  · exact .inl (if_pos hpid)
  · rw [State.lookup, if_neg hpid]
    push Not at hpid
    cases hget : s.cache.get pid.toNat with
    | none =>
      simp only []
      split
      · rename_i hroom
        rw [Bool.and_eq_true, decide_eq_true_eq] at hroom
        exact .inr (.inr ⟨hpid.1, hpid.2, hroom.2, (fun _ h => by cases h), rfl⟩)
      · exact .inl rfl
    | some entry =>
      obtain ⟨made, lookup⟩ := entry
      simp only []
      split
      · exact .inr (.inl ⟨hpid.1, hpid.2, made, lookup, rfl, ‹_›, rfl⟩)
      · rename_i hstale
        split
        · rename_i hroom
          rw [Bool.and_eq_true, decide_eq_true_eq] at hroom
          refine .inr (.inr ⟨hpid.1, hpid.2, hroom.2, ?_, rfl⟩)
          intro entry hentry
          cases hentry
          exact Bool.eq_false_iff.2 hstale
        · exact .inl rfl

theorem Inv.step (h : Inv world s) (hs : Step own started world s s') : Inv world s' := by
  cases hs with
  | tick now hnow =>
    refine { h with
      pids := ?_
      past := fun l hl => Nat.le_trans (h.past l hl) hnow
      clearedPast := fun time ht => Nat.le_trans (h.clearedPast time ht) hnow
      remembered := fun i l hi hfresh => h.remembered i l hi (Nat.lt_of_le_of_lt hnow hfresh) }
    intro e he
    obtain ⟨made, hmade, hl⟩ := h.pids e he
    exact ⟨made, Nat.le_trans hmade hnow, hl⟩
  | lookup pid =>
    rcases lookup_cases own started s pid with heq | ⟨_, _, made, lookup, _, _, heq⟩ | ⟨_, _, hqueue, hstale, heq⟩
    · rwa [heq]
    · rwa [heq]
    · rw [heq]
      exact h.ask hqueue hstale
  | take next rest hidle hqueue =>
    have hwaiting : ({ s with queue := rest, reading := some next } : State).waiting = s.waiting := by
      simp [State.waiting, hidle, hqueue]
    refine { h with inTurn := ?_, pids := ?_, queue := ?_ }
    · rw [hwaiting]
      exact h.inTurn
    · rw [hwaiting]
      exact h.pids
    · have := h.queue
      rw [hqueue, List.length_cons] at this
      exact Nat.le_of_succ_le this
  | fill pid lookup hreading =>
    have hwaiting : s.waiting = (pid, lookup) :: s.queue := by simp [State.waiting, hreading]
    obtain ⟨made, hmade, hl⟩ := h.pids (pid, lookup) (by rw [hwaiting]; exact List.mem_cons_self)
    refine { h with inTurn := ?_, pids := ?_, answers := ?_ }
    · have := h.inTurn
      rw [hwaiting] at this
      simpa [State.waiting] using this
    · intro e he
      exact h.pids e (by rw [hwaiting]; exact List.mem_cons_of_mem _ he)
    · intro a ha
      rcases List.mem_append.1 ha with ha | ha
      · exact h.answers a ha
      · obtain rfl := List.mem_singleton.1 ha
        exact ⟨_, hl, hmade, rfl⟩

theorem Inv.steps (h : Inv world s) (hs : Steps own started world s s') : Inv world s' := by
  induction hs with
  | refl => exact h
  | tail _ hs ih => exact ih.step hs

/-! ## Every run -/

theorem Step.lookups (hs : Step own started world s s') : s.lookups <+: s'.lookups := by
  cases hs with
  | tick now _ => exact List.prefix_refl _
  | lookup pid =>
    rcases lookup_cases own started s pid with heq | ⟨_, _, _, _, _, _, heq⟩ | ⟨_, _, _, _, heq⟩
    · rw [heq]
    · rw [heq]
    · rw [heq]
      exact List.prefix_append _ _
  | take next rest _ _ => exact List.prefix_refl _
  | fill pid lookup _ => exact List.prefix_refl _

theorem Steps.lookups (hs : Steps own started world s s') : s.lookups <+: s'.lookups := by
  induction hs with
  | refl => exact List.prefix_refl _
  | tail _ hs ih => exact ih.trans hs.lookups

/-- A lookup handed out is of the PID asked for and less than `ttl` old. -/
theorem Inv.handed (h : Inv world s) {pid : Int} {l : Nat} (hl : (s.lookup own started pid).1 = some l) :
    pid ≠ own ∧ ∃ lk, (s.lookup own started pid).2.lookups[l]? = some lk ∧ (lk.pid : Int) = pid ∧ s.clock < lk.made + ttl := by
  rcases lookup_cases own started s pid with heq | ⟨hpos, hown, made, lookup, hget, hfresh, heq⟩ | ⟨hpos, hown, _, _, heq⟩
  · rw [heq] at hl
    cases hl
  · rw [heq] at hl ⊢
    obtain rfl := Option.some.inj hl
    exact ⟨hown, _, h.cache _ _ _ hget, Int.toNat_of_nonneg hpos.le, of_decide_eq_true hfresh⟩
  · rw [heq] at hl ⊢
    obtain rfl := Option.some.inj hl
    refine ⟨hown, ⟨pid.toNat, s.clock⟩, by simp [State.ask], Int.toNat_of_nonneg hpos.le, ?_⟩
    exact Nat.lt_add_of_pos_right (by decide)

/-- The queue and the cache keep to their bounds, and two lookups of one PID are two seconds apart
unless as many PIDs as the cache holds were looked up within two seconds in between. -/
theorem lookups_bounded {clock : Nat} (h : Steps own started world (initial clock) s) :
    s.queue.length ≤ queued ∧ s.cache.entries.length ≤ cached ∧
      ∀ (i j : Nat) (a b : Lookup), s.lookups[i]? = some a → s.lookups[j]? = some b → i < j → a.pid = b.pid →
        a.made + ttl ≤ b.made ∨ ∃ time, a.made ≤ time ∧ time ≤ b.made ∧ Crowded s.lookups time := by
  have hinv := (inv_initial clock).steps h
  refine ⟨hinv.queue, hinv.bounded, ?_⟩
  intro i j a b hi hj hij hpid
  rcases hinv.once i j a b hi hj hij hpid with hold | ⟨time, ht, hafter, hbefore⟩
  · exact .inl hold
  · exact .inr ⟨time, hafter, hbefore, hinv.crowded time ht⟩

/-! ### A run -/

/-- The harvester is process 1; process 7 is `cp` all along. -/
def onlyCp (_ : Nat) (pid : Nat) : Option Who := if pid = 7 then some ⟨ascii "cp", none⟩ else none

/-- Process 7 was looked up at 5, and answered. -/
def answered : State where
  clock := 5
  cache := Table.empty.put 7 (5, 0)
  queue := []
  reading := none
  lookups := [⟨7, 5⟩]
  filled := [⟨0, 5, some ⟨ascii "cp", none⟩⟩]
  cleared := []

theorem steps_answered : Steps 1 true onlyCp (initial 5) answered :=
  ((Relation.ReflTransGen.refl.tail (.lookup 7)).tail (.take (7, 0) [] rfl rfl)).tail (.fill 7 0 rfl)

/-- Two seconds later an event of process 8 and one of process 7 come in, and 7 is looked up again. -/
def askedAgain : State := ((({ answered with clock := 5 + ttl }).lookup 1 true 8).2.lookup 1 true 7).2

theorem steps_askedAgain : Steps 1 true onlyCp (initial 5) askedAgain :=
  ((steps_answered.tail (.tick (5 + ttl) (Nat.le_add_right ..))).tail (.lookup 8)).tail (.lookup 7)

theorem lookups_bounded_askedAgain : askedAgain.lookups = [⟨7, 5⟩, ⟨8, 5 + ttl⟩, ⟨7, 5 + ttl⟩] ∧
    askedAgain.queue.length ≤ queued ∧ askedAgain.cache.entries.length ≤ cached ∧
      ∀ (i j : Nat) (a b : Lookup), askedAgain.lookups[i]? = some a → askedAgain.lookups[j]? = some b → i < j →
        a.pid = b.pid → a.made + ttl ≤ b.made ∨ ∃ time, a.made ≤ time ∧ time ≤ b.made ∧ Crowded askedAgain.lookups time :=
  ⟨by decide, lookups_bounded steps_askedAgain⟩

end StorageHarvester.Resolver
