/-
When the targets are scanned (`src/scheduler.rs`) and what the store of snapshots records of it
(`src/cache.rs`). Each target has a task of its own that scans, waits for the next scan to be due or
asked for, and scans again; the tasks, the requests and the clock go on in any order. A scan asked
for early leaves a minute between two starts and nine times as long as the last one took, no request
is lost, and a target's snapshot says what has become of its scans.
-/
import StorageHarvester.Exporter.Prometheus
import Mathlib.Algebra.BigOperators.Group.List.Basic
import Mathlib.Data.List.Chain
import Mathlib.Logic.Function.Basic
import Mathlib.Logic.Relation

namespace StorageHarvester.Scheduler

/-! ## One target's task -/

/-- Nanoseconds. -/
def second : Nat := 1000000000

/-- `EARLY_RESCAN_GAP`. -/
def earlyRescanGap : Nat := 60 * second

/-- A scan that has begun, early because it was asked for or because it was due. -/
structure Begun where
  started : Nat
  asked : Bool
  deriving DecidableEq

abbrev Outcome := Except Bytes Success

structure Scan extends Begun where
  ended : Nat
  outcome : Outcome

namespace Scan

/-- How long it took. -/
def took (a : Scan) : Nat := a.ended - a.started

/-- When the next one is due. -/
def due (interval : Nat) (a : Scan) : Nat := a.ended + interval

/-- When the next one may begin if it is asked for. -/
def early (interval : Nat) (a : Scan) : Nat :=
  min (max (a.started + earlyRescanGap) (a.ended + a.took * 9)) (a.due interval)

end Scan

/-- How far `run_scan` is. -/
inductive Stage where
  | starting
  /-- The store has the scan as running. -/
  | marked
  /-- The walk, with its timeout set at `since`. -/
  | walking (since : Nat)
  /-- Timed out, the walk told to stop. -/
  | cancelling
  | over (outcome : Outcome)
  /-- The store has the outcome. -/
  | recorded (outcome : Outcome)

inductive Phase where
  | ready (asked : Bool)
  | running (b : Begun) (stage : Stage)
  | waiting (last : Scan)
  /-- Asked for while waiting, and held back. -/
  | early (last : Scan)

/-- A target's task, with the scans it has made and the times a scan was asked for. -/
structure Task where
  phase : Phase
  /-- `LiveTarget::rescan` holds a permit. -/
  permit : Bool
  /-- `LiveTarget::scanning`. -/
  scanning : Bool
  scans : List Scan
  asked : List Nat

def Task.new : Task := ⟨.ready false, false, false, [], []⟩

/-- `baseline_interval`, in nanoseconds. -/
def interval (target : Config.Target) : Nat := target.baselineInterval * 1000000

/-- `timeout`. -/
def timeout (target : Config.Target) : Nat := target.timeout * 1000000

/-- The error of a scan that took too long. -/
def timedOut (target : Config.Target) : Bytes :=
  ascii "scan timed out after " ++ decimal (target.timeout / 1000) ++ ascii "s"

/-- `record_success` or `record_failure`. -/
def recordOutcome : Outcome → TargetSnapshot → TargetSnapshot
  | .ok r => .recordSuccess r
  | .error e => .recordFailure e

/-- A step of a target's task at `now`, or a request for a scan of the target, with what it does to
the target's snapshot. -/
inductive TaskStep (target : Config.Target) (now : Nat) (t : Task) : Task → (TargetSnapshot → TargetSnapshot) → Prop
  | start (asked : Bool) (hphase : t.phase = .ready asked) :
      TaskStep target now t { t with phase := .running ⟨now, asked⟩ .starting } id
  | mark (b : Begun) (hphase : t.phase = .running b .starting) :
      TaskStep target now t { t with phase := .running b .marked } (.recordStart now)
  | walk (b : Begun) (hphase : t.phase = .running b .marked) :
      TaskStep target now t { t with phase := .running b (.walking now), scanning := true } id
  /-- The walk comes back in time; a tree it made is handed to the live store. -/
  | finish (b : Begun) (since : Nat) (outcome : Outcome) (hphase : t.phase = .running b (.walking since)) :
      TaskStep target now t { t with phase := .running b (.over outcome), scanning := false } id
  | timeout (b : Begun) (since : Nat) (hphase : t.phase = .running b (.walking since))
      (hlong : since + Scheduler.timeout target ≤ now) :
      TaskStep target now t { t with phase := .running b .cancelling } id
  /-- The walk told to stop comes back; what it says is dropped. -/
  | stopped (b : Begun) (hphase : t.phase = .running b .cancelling) :
      TaskStep target now t { t with phase := .running b (.over (.error (timedOut target))), scanning := false } id
  | record (b : Begun) (outcome : Outcome) (hphase : t.phase = .running b (.over outcome)) :
      TaskStep target now t { t with phase := .running b (.recorded outcome) } (recordOutcome outcome)
  | done (b : Begun) (outcome : Outcome) (hphase : t.phase = .running b (.recorded outcome)) :
      TaskStep target now t
        { t with phase := .waiting ⟨b, now, outcome⟩, scans := t.scans ++ [⟨b, now, outcome⟩] } id
  | due (last : Scan) (hphase : t.phase = .waiting last) (hdue : last.due (interval target) ≤ now) :
      TaskStep target now t { t with phase := .ready false } id
  | notified (last : Scan) (hphase : t.phase = .waiting last) (hpermit : t.permit = true) :
      TaskStep target now t { t with phase := .early last, permit := false } id
  | wake (last : Scan) (hphase : t.phase = .early last) (hearly : last.early (interval target) ≤ now) :
      TaskStep target now t { t with phase := .ready true } id
  /-- `request_rescan`, from any thread. -/
  | request : TaskStep target now t { t with permit := true, asked := t.asked ++ [now] } id

/-! ## All targets -/

structure State (targets : List Config.Target) where
  clock : Nat
  store : SnapshotStore
  task : Fin targets.length → Task

def initial (targets : List Config.Target) (clock : Nat) : State targets := ⟨clock, .new targets, fun _ => .new⟩

inductive Step {targets : List Config.Target} (s : State targets) : State targets → Prop
  | tick (now : Nat) (hnow : s.clock ≤ now) : Step s { s with clock := now }
  | move (i : Fin targets.length) (t : Task) (f : TargetSnapshot → TargetSnapshot)
      (h : TaskStep (targets.get i) s.clock (s.task i) t f) :
      Step s { s with store := s.store.update (targets.get i).name f, task := Function.update s.task i t }

/-- Any number of steps from the start. -/
def Reachable (targets : List Config.Target) (s : State targets) : Prop :=
  ∃ clock, Relation.ReflTransGen Step (initial targets clock) s

/-! ## The pace -/

/-- The least time from the end of a scan to the start of the next, kept. -/
def Follows (interval : Nat) (a : Scan) (b : Begun) : Prop :=
  if b.asked then a.early interval ≤ b.started else a.due interval ≤ b.started

/-- The scan a task is making. -/
def Phase.current : Phase → Option Begun
  | .running b _ => some b
  | _ => none

/-- A scan is about to begin because it was asked for. -/
def Phase.heeds : Phase → Bool
  | .ready asked => asked
  | .early _ => true
  | _ => false

/-- What a phase says of the last scan. -/
inductive Phase.Fits (interval now : Nat) (scans : List Scan) : Phase → Prop
  | ready {asked : Bool} (h : ∀ a ∈ scans.getLast?, Follows interval a ⟨now, asked⟩) : Fits interval now scans (.ready asked)
  | running {b : Begun} {stage : Stage} (hstarted : b.started ≤ now) (h : ∀ a ∈ scans.getLast?, Follows interval a b) :
      Fits interval now scans (.running b stage)
  | waiting {a : Scan} (h : scans.getLast? = some a) : Fits interval now scans (.waiting a)
  | early {a : Scan} (h : scans.getLast? = some a) : Fits interval now scans (.early a)

/-- The scans so far, one after the other and in time. -/
structure Paced (interval now : Nat) (t : Task) : Prop where
  past : ∀ a ∈ t.scans, a.started ≤ a.ended ∧ a.ended ≤ now
  chain : t.scans.IsChain fun a b => Follows interval a b.toBegun
  phase : t.phase.Fits interval now t.scans

/-- When all scans of a task began. -/
def Task.starts (t : Task) : List Nat := t.scans.map (fun a => a.started) ++ (t.phase.current.map Begun.started).toList

/-- Every request stands, is being heeded, or a scan has begun since; and none is heeded twice. -/
structure Heard (now : Nat) (t : Task) : Prop where
  past : ∀ time ∈ t.asked, time ≤ now
  answered : ∀ time ∈ t.asked, t.permit = true ∨ t.phase.heeds = true ∨ ∃ started ∈ t.starts, time ≤ started
  once : t.scans.countP (fun a => a.asked) + (t.phase.current.toList.countP fun b => b.asked) + t.phase.heeds.toNat +
    t.permit.toNat ≤ t.asked.length

variable {target : Config.Target} {now now' : Nat} {t t' : Task} {f : TargetSnapshot → TargetSnapshot}

theorem Follows.mono {n : Nat} {a : Scan} {asked : Bool} (h : Follows n a ⟨now, asked⟩) (hnow : now ≤ now') :
    Follows n a ⟨now', asked⟩ := by
  unfold Follows at *
  split
  · rw [if_pos (by assumption)] at h
    exact Nat.le_trans h hnow
  · rw [if_neg (by assumption)] at h
    exact Nat.le_trans h hnow

theorem Phase.Fits.mono {n : Nat} {scans : List Scan} {phase : Phase} (h : phase.Fits n now scans) (hnow : now ≤ now') :
    phase.Fits n now' scans := by
  cases h with
  | ready hlast => exact .ready fun a ha => (hlast a ha).mono hnow
  | running hstarted hlast => exact .running (Nat.le_trans hstarted hnow) hlast
  | waiting hlast => exact .waiting hlast
  | early hlast => exact .early hlast

theorem Paced.tick {n : Nat} (h : Paced n now t) (hnow : now ≤ now') : Paced n now' t :=
  ⟨fun a ha => ⟨(h.past a ha).1, Nat.le_trans (h.past a ha).2 hnow⟩, h.chain, h.phase.mono hnow⟩

/-- A step that makes no scan final. -/
theorem Paced.move {n : Nat} (h : Paced n now t) (hscans : t'.scans = t.scans) (hphase : t'.phase.Fits n now t.scans) :
    Paced n now t' := by
  refine ⟨?_, ?_, ?_⟩
  · rw [hscans]
    exact h.past
  · rw [hscans]
    exact h.chain
  · rw [hscans]
    exact hphase

/-- Within a scan. -/
theorem Paced.stage {n : Nat} (h : Paced n now t) {b : Begun} {stage stage' : Stage} (hphase : t.phase = .running b stage)
    (hscans : t'.scans = t.scans) (hphase' : t'.phase = .running b stage') : Paced n now t' := by
  refine h.move hscans ?_
  have hfits := h.phase
  rw [hphase] at hfits
  rw [hphase']
  cases hfits with
  | running hstarted hlast => exact .running hstarted hlast

theorem Paced.step (h : Paced (interval target) now t) (hs : TaskStep target now t t' f) : Paced (interval target) now t' := by
  have hfits := h.phase
  cases hs with
  | start asked hphase =>
    rw [hphase] at hfits
    cases hfits with
    | ready hlast => exact h.move rfl (.running (Nat.le_refl _) hlast)
  | mark b hphase => exact h.stage hphase rfl rfl
  | walk b hphase => exact h.stage hphase rfl rfl
  | finish b since outcome hphase => exact h.stage hphase rfl rfl
  | timeout b since hphase _ => exact h.stage hphase rfl rfl
  | stopped b hphase => exact h.stage hphase rfl rfl
  | record b outcome hphase => exact h.stage hphase rfl rfl
  | done b outcome hphase =>
    rw [hphase] at hfits
    cases hfits with
    | running hstarted hlast =>
      refine ⟨?_, ?_, .waiting (List.getLast?_concat)⟩
      · intro a ha
        rcases List.mem_append.1 ha with ha | ha
        · exact h.past a ha
        · obtain rfl := List.mem_singleton.1 ha
          exact ⟨hstarted, Nat.le_refl _⟩
      · refine List.isChain_append.2 ⟨h.chain, List.isChain_singleton _, ?_⟩
        intro a ha c hc
        obtain rfl := Option.mem_some_iff.1 hc
        exact hlast a ha
  | due last hphase hdue =>
    rw [hphase] at hfits
    cases hfits with
    | waiting hlast =>
      refine h.move rfl (.ready ?_)
      intro a ha
      obtain rfl : last = a := Option.some.inj (hlast.symm.trans ha)
      exact hdue
  | notified last hphase _ =>
    rw [hphase] at hfits
    cases hfits with
    | waiting hlast => exact h.move rfl (.early hlast)
  | wake last hphase hearly =>
    rw [hphase] at hfits
    cases hfits with
    | early hlast =>
      refine h.move rfl (.ready ?_)
      intro a ha
      obtain rfl : last = a := Option.some.inj (hlast.symm.trans ha)
      exact hearly
  | request => exact h.move rfl hfits

/-- What of the time a scan and the pause after it take at least the scan accounts for. -/
def Scan.share (n : Nat) (a : Scan) : Nat := min (10 * a.took) (a.took + n)

theorem Follows.share {n : Nat} {a : Scan} {b : Begun} (h : Follows n a b) (ha : a.started ≤ a.ended) :
    a.started + a.share n ≤ b.started := by
  unfold Follows Scan.early Scan.due at h
  unfold Scan.share
  have htook : a.ended = a.started + a.took := by
    unfold Scan.took
    omega
  split at h <;> omega

/-- From the first start to the last, the shares add up. -/
theorem shares_le {n last : Nat} : ∀ {scans : List Scan}, (∀ a ∈ scans, a.started ≤ a.ended) →
    scans.IsChain (fun a b => Follows n a b.toBegun) → (∀ a ∈ scans.getLast?, a.started + a.share n ≤ last) →
    (scans.head?.elim last fun a => a.started) + (scans.map (Scan.share n)).sum ≤ last
  | [], _, _, _ => by simp
  | [a], _, _, hlast => by simpa using hlast a rfl
  | a :: b :: rest, hpast, hchain, hlast => by
    obtain ⟨hab, hchain⟩ := List.isChain_cons_cons.1 hchain
    have ih := shares_le (fun c hc => hpast c (List.mem_cons_of_mem _ hc)) hchain
      (fun c hc => hlast c (by rwa [List.getLast?_cons_cons]))
    have := hab.share (hpast a List.mem_cons_self)
    simp only [List.head?_cons, Option.elim_some, List.map_cons, List.sum_cons] at ih ⊢
    omega

/-! ## The requests -/

theorem Heard.tick (h : Heard now t) (hnow : now ≤ now') : Heard now' t :=
  ⟨fun time ht => Nat.le_trans (h.past time ht) hnow, h.answered, h.once⟩

/-- Within a scan. -/
theorem Heard.stage (h : Heard now t) {b : Begun} {stage stage' : Stage} (hphase : t.phase = .running b stage)
    (hphase' : t'.phase = .running b stage') (hscans : t'.scans = t.scans) (hpermit : t'.permit = t.permit)
    (hasked : t'.asked = t.asked) : Heard now t' := by
  have hstarts : t'.starts = t.starts := by simp [Task.starts, hscans, hphase, hphase', Phase.current]
  refine ⟨hasked ▸ h.past, ?_, ?_⟩
  · rw [hasked, hpermit, hstarts, hphase']
    have := h.answered
    rw [hphase] at this
    exact this
  · have := h.once
    rw [hphase] at this
    rw [hscans, hphase', hpermit, hasked]
    exact this

theorem Heard.step (h : Heard now t) (hs : TaskStep target now t t' f) : Heard now t' := by
  have honce := h.once
  cases hs with
  | start asked hphase =>
    rw [hphase] at honce
    refine ⟨h.past, ?_, ?_⟩
    · intro time ht
      exact .inr (.inr ⟨now, by simp [Task.starts, Phase.current], h.past time ht⟩)
    · cases asked <;> simp_all [Phase.current, Phase.heeds]
  | mark b hphase => exact h.stage hphase rfl rfl rfl rfl
  | walk b hphase => exact h.stage hphase rfl rfl rfl rfl
  | finish b since outcome hphase => exact h.stage hphase rfl rfl rfl rfl
  | timeout b since hphase _ => exact h.stage hphase rfl rfl rfl rfl
  | stopped b hphase => exact h.stage hphase rfl rfl rfl rfl
  | record b outcome hphase => exact h.stage hphase rfl rfl rfl rfl
  | done b outcome hphase =>
    rw [hphase] at honce
    refine ⟨h.past, ?_, ?_⟩
    · intro time ht
      have := h.answered time ht
      rw [hphase] at this
      simpa [Task.starts, hphase, Phase.current, Phase.heeds] using this
    · simpa [Phase.current, Phase.heeds, List.countP_append, List.countP_singleton] using honce
  | due last hphase _ =>
    rw [hphase] at honce
    refine ⟨h.past, ?_, ?_⟩
    · intro time ht
      simpa [Task.starts, hphase, Phase.current, Phase.heeds] using h.answered time ht
    · simpa [Phase.current, Phase.heeds] using honce
  | notified last hphase hpermit =>
    rw [hphase, hpermit] at honce
    refine ⟨h.past, ?_, ?_⟩
    · exact fun time ht => .inr (.inl rfl)
    · simpa [Phase.current, Phase.heeds] using honce
  | wake last hphase _ =>
    rw [hphase] at honce
    refine ⟨h.past, ?_, ?_⟩
    · exact fun time ht => .inr (.inl rfl)
    · simpa [Phase.current, Phase.heeds] using honce
  | request =>
    refine ⟨?_, fun time ht => .inl rfl, ?_⟩
    · intro time ht
      rcases List.mem_append.1 ht with ht | ht
      · exact h.past time ht
      · exact Nat.le_of_eq (List.mem_singleton.1 ht)
    · simp only [List.length_append, List.length_singleton]
      have : t.permit.toNat ≤ 1 := Bool.toNat_le _
      have : true.toNat = 1 := rfl
      omega

/-! ## The snapshots -/

/-- The outcomes the store was told of. -/
def Task.outcomes (t : Task) : List Outcome :=
  t.scans.map (fun a => a.outcome) ++
    match t.phase with
    | .running _ (.recorded outcome) => [outcome]
    | _ => []

/-- The store has a scan as running from its mark to its outcome. -/
def Phase.marked : Phase → Bool
  | .running _ .starting | .running _ (.recorded _) => false
  | .running _ _ => true
  | _ => false

def Outcome.error? : Outcome → Option Bytes
  | .ok _ => none
  | .error e => some e

/-- What a snapshot says of a target's scans. -/
structure Shows (t : Task) (s : TargetSnapshot) : Prop where
  running : s.scanRunning = t.phase.marked
  started : s.scanStarted.isSome = t.phase.marked
  count : s.scanCount = t.outcomes.length
  failures : s.failureCount = (t.outcomes.filterMap Outcome.error?).length
  success : s.lastSuccess = (t.outcomes.filterMap Except.toOption).getLast?
  error : s.lastError = t.outcomes.getLast?.bind Outcome.error?

/-- `LiveTarget::scanning` holds while the target is walked. -/
def Phase.walks : Phase → Bool
  | .running _ (.walking _) | .running _ .cancelling => true
  | _ => false

variable {snap : TargetSnapshot}

theorem Shows.same (h : Shows t snap) (houtcomes : t'.outcomes = t.outcomes) (hmarked : t'.phase.marked = t.phase.marked) :
    Shows t' snap := by
  constructor
  · rw [hmarked, h.running]
  · rw [hmarked, h.started]
  · rw [houtcomes, h.count]
  · rw [houtcomes, h.failures]
  · rw [houtcomes, h.success]
  · rw [houtcomes, h.error]

theorem Shows.record (h : Shows t snap) (outcome : Outcome) (houtcomes : t'.outcomes = t.outcomes ++ [outcome])
    (hmarked : t'.phase.marked = false) : Shows t' (recordOutcome outcome snap) := by
  obtain ⟨-, -, hcount, hfailures, hsuccess, -⟩ := h
  cases outcome with
  | ok r =>
    constructor
    · rw [hmarked]
      rfl
    · rw [hmarked]
      rfl
    · simp [recordOutcome, TargetSnapshot.recordSuccess, houtcomes, hcount]
    · simp [recordOutcome, TargetSnapshot.recordSuccess, houtcomes, hfailures, Outcome.error?]
    · simp [recordOutcome, TargetSnapshot.recordSuccess, houtcomes, Except.toOption]
    · simp [recordOutcome, TargetSnapshot.recordSuccess, houtcomes, Outcome.error?]
  | error e =>
    constructor
    · rw [hmarked]
      rfl
    · rw [hmarked]
      rfl
    · simp [recordOutcome, TargetSnapshot.recordFailure, houtcomes, hcount]
    · simp [recordOutcome, TargetSnapshot.recordFailure, houtcomes, hfailures, Outcome.error?]
    · simp [recordOutcome, TargetSnapshot.recordFailure, houtcomes, hsuccess, Except.toOption]
    · simp [recordOutcome, TargetSnapshot.recordFailure, houtcomes, Outcome.error?]

theorem Shows.step (h : Shows t snap) (hs : TaskStep target now t t' f) : Shows t' (f snap) := by
  cases hs with
  | start asked hphase => exact h.same (by simp [Task.outcomes, hphase]) (by simp [hphase, Phase.marked])
  | mark b hphase =>
    obtain ⟨-, -, hcount, hfailures, hsuccess, herror⟩ := h
    have houtcomes : ({ t with phase := .running b .marked } : Task).outcomes = t.outcomes := by
      simp [Task.outcomes, hphase]
    refine ⟨rfl, rfl, ?_, ?_, ?_, ?_⟩
    · rw [houtcomes]
      exact hcount
    · rw [houtcomes]
      exact hfailures
    · rw [houtcomes]
      exact hsuccess
    · rw [houtcomes]
      exact herror
  | walk b hphase => exact h.same (by simp [Task.outcomes, hphase]) (by simp [hphase, Phase.marked])
  | finish b since outcome hphase => exact h.same (by simp [Task.outcomes, hphase]) (by simp [hphase, Phase.marked])
  | timeout b since hphase _ => exact h.same (by simp [Task.outcomes, hphase]) (by simp [hphase, Phase.marked])
  | stopped b hphase => exact h.same (by simp [Task.outcomes, hphase]) (by simp [hphase, Phase.marked])
  | record b outcome hphase => exact h.record outcome (by simp [Task.outcomes, hphase]) rfl
  | done b outcome hphase => exact h.same (by simp [Task.outcomes, hphase]) (by simp [hphase, Phase.marked])
  | due last hphase _ => exact h.same (by simp [Task.outcomes, hphase]) (by simp [hphase, Phase.marked])
  | notified last hphase _ => exact h.same (by simp [Task.outcomes, hphase]) (by simp [hphase, Phase.marked])
  | wake last hphase _ => exact h.same (by simp [Task.outcomes, hphase]) (by simp [hphase, Phase.marked])
  | request => exact h.same rfl rfl

/-- A step changes of a target's own snapshot only what is not its identity. -/
theorem TaskStep.identity (hs : TaskStep target now t t' f) (snap : TargetSnapshot) : (f snap).identity = snap.identity := by
  cases hs with
  | record b outcome hphase => cases outcome <;> rfl
  | _ => rfl

theorem TaskStep.walks (hs : TaskStep target now t t' f) (h : t.scanning = t.phase.walks) : t'.scanning = t'.phase.walks := by
  cases hs with
  | walk b hphase | finish b since outcome hphase | stopped b hphase => rfl
  | request => exact h
  | start asked hphase => rw [hphase] at h; exact h
  | mark b hphase => rw [hphase] at h; exact h
  | timeout b since hphase _ => rw [hphase] at h; exact h
  | record b outcome hphase => rw [hphase] at h; exact h
  | done b outcome hphase => rw [hphase] at h; exact h
  | due last hphase _ => rw [hphase] at h; exact h
  | notified last hphase _ => rw [hphase] at h; exact h
  | wake last hphase _ => rw [hphase] at h; exact h

/-- `is_ready`: the target has produced data. -/
def isReady (snap : TargetSnapshot) : Bool := snap.lastSuccess.isSome

/-- `SnapshotStore::ready`. -/
def ready (store : SnapshotStore) : Bool := store.all isReady

/-- A target is ready once a scan of it has succeeded. -/
theorem Shows.isReady_iff (h : Shows t snap) : isReady snap = true ↔ ∃ r, .ok r ∈ t.outcomes := by
  rw [isReady, h.success, List.getLast?_isSome]
  constructor
  · intro hne
    obtain ⟨r, hr⟩ := List.exists_mem_of_ne_nil _ hne
    obtain ⟨outcome, hmem, houtcome⟩ := List.mem_filterMap.1 hr
    cases outcome with
    | ok r' => exact ⟨r', hmem⟩
    | error e => cases houtcome
  · rintro ⟨r, hr⟩
    exact List.ne_nil_of_mem (List.mem_filterMap.2 ⟨.ok r, hr, rfl⟩)

/-! ## Every run -/

section Runs

variable {targets : List Config.Target} {s s' : State targets}

/-- What holds of each target's task, between two steps. -/
structure Inv (s : State targets) : Prop where
  paced : ∀ i, Paced (interval (targets.get i)) s.clock (s.task i)
  heard : ∀ i, Heard s.clock (s.task i)
  walks : ∀ i, (s.task i).scanning = (s.task i).phase.walks
  store : (s.store.map TargetSnapshot.identity).Perm (targets.map fun t => (TargetSnapshot.fromTarget t).identity)
  /-- Where no two targets have one name. -/
  shows : (targets.map Config.Target.name).Nodup →
    ∀ i, ∀ snap ∈ s.store, snap.targetName = (targets.get i).name → Shows (s.task i) snap

theorem inv_initial (targets : List Config.Target) (clock : Nat) : Inv (initial targets clock) where
  paced := fun i => ⟨fun _ h => absurd h List.not_mem_nil, .nil, .ready fun _ h => by cases h⟩
  heard := fun i => ⟨fun _ h => absurd h List.not_mem_nil, fun _ h => absurd h List.not_mem_nil, Nat.le_refl 0⟩
  walks := fun i => rfl
  store := by
    have hperm := (List.perm_insertionSort (fun a b : TargetSnapshot => compare a.targetName b.targetName ≠ .gt)
      (targets.map TargetSnapshot.fromTarget)).map TargetSnapshot.identity
    rwa [List.map_map] at hperm
  shows := by
    intro _ i snap hsnap _
    obtain ⟨target, _, rfl⟩ := List.mem_map.1 ((List.mem_insertionSort _).1 hsnap)
    exact ⟨rfl, rfl, rfl, rfl, rfl, rfl⟩

theorem update_identity {store : SnapshotStore} {name : Bytes} {f : TargetSnapshot → TargetSnapshot}
    (hf : ∀ snap, (f snap).identity = snap.identity) :
    (store.update name f).map TargetSnapshot.identity = store.map TargetSnapshot.identity := by
  rw [SnapshotStore.update, List.map_map]
  refine List.map_congr_left fun snap _ => ?_
  rw [Function.comp_apply]
  split
  · exact hf snap
  · rfl

theorem targetName_of_identity {a b : TargetSnapshot} (h : a.identity = b.identity) : a.targetName = b.targetName :=
  congrArg Prod.fst h

theorem name_injective (h : (targets.map Config.Target.name).Nodup) {i j : Fin targets.length}
    (hname : (targets.get i).name = (targets.get j).name) : j = i := by
  have hpairs := List.pairwise_iff_get.1 (List.pairwise_map.1 h)
  rcases lt_trichotomy i j with hlt | heq | hlt
  · exact absurd hname (hpairs i j hlt)
  · exact heq.symm
  · exact absurd hname.symm (hpairs j i hlt)

theorem Inv.step (h : Inv s) (hs : Step s s') : Inv s' := by
  cases hs with
  | tick now hnow =>
    exact ⟨fun i => (h.paced i).tick hnow, fun i => (h.heard i).tick hnow, h.walks, h.store, h.shows⟩
  | move i t f hmove =>
    -- the property of one task after a step of task `i`
    have hothers : ∀ P : Fin targets.length → Task → Prop, (∀ j, P j (s.task j)) → P i t →
        ∀ j, P j (Function.update s.task i t j) := by
      intro P hall hi j
      by_cases hj : j = i
      · subst hj
        rwa [Function.update_self]
      · rw [Function.update_of_ne hj]
        exact hall j
    refine ⟨?_, ?_, ?_, ?_, ?_⟩
    · exact hothers (fun j => Paced (interval (targets.get j)) s.clock) h.paced ((h.paced i).step hmove)
    · exact hothers (fun _ => Heard s.clock) h.heard ((h.heard i).step hmove)
    · exact hothers (fun _ t => t.scanning = t.phase.walks) h.walks (hmove.walks (h.walks i))
    · rw [update_identity hmove.identity]
      exact h.store
    · intro hnames j snap hsnap hname
      obtain ⟨old, hold, hsnap⟩ := List.mem_map.1 hsnap
      have hshown := h.shows hnames
      by_cases hj : j = i
      · subst hj
        simp only [Function.update_self]
        have holdName : old.targetName = (targets.get j).name := by
          split at hsnap
          · assumption
          · rwa [hsnap]
        rw [if_pos holdName] at hsnap
        subst hsnap
        exact (hshown j old hold holdName).step hmove
      · simp only [Function.update_of_ne hj]
        have holdName : old.targetName ≠ (targets.get i).name := by
          intro he
          rw [if_pos he] at hsnap
          have := targetName_of_identity (hmove.identity old)
          rw [hsnap, hname, he] at this
          exact hj (name_injective hnames this.symm)
        rw [if_neg holdName] at hsnap
        subst hsnap
        exact hshown j old hold hname

theorem Reachable.inv (h : Reachable targets s) : Inv s := by
  obtain ⟨clock, h⟩ := h
  induction h with
  | refl => exact inv_initial targets clock
  | tail _ hs ih => exact ih.step hs

/-! ### A run -/

/-- Scanned every hour. -/
def hourly : Config.Target where
  name := ascii "data"
  targetType := ascii "filesystem"
  scanner := ascii "native"
  displayPath := ascii "/srv"
  scanPath := ascii "/srv"
  baselineInterval := 3600000
  timeout := 600000
  noCrossFilesystem := true
  followSymlinks := false
  reportMode := .tree
  reportDepth := 1
  maxDepth := none
  scanThreads := 1
  sizeModes := [.blocks]
  exclude := []
  treeMaxDirectories := 100
  live := true
  sharingInterval := none
  thumbnails := false
  collectHandles := false
  lvm := none
  labels := []

/-- A lone target's task gets to `t` by `now`. -/
def Runs (target : Config.Target) (now : Nat) (t : Task) : Prop := ∃ store, Reachable [target] ⟨now, store, fun _ => t⟩

theorem Runs.tick (h : Runs target now t) (hnow : now ≤ now') : Runs target now' t := by
  obtain ⟨store, clock, h⟩ := h
  exact ⟨store, clock, h.tail (.tick now' hnow)⟩

theorem Runs.move (h : Runs target now t) (hs : TaskStep target now t t' f) : Runs target now t' := by
  obtain ⟨store, clock, h⟩ := h
  have heq : Function.update (fun _ : Fin [target].length => t) 0 t' = fun _ => t' :=
    funext fun i => by
      obtain rfl : i = 0 := Fin.fin_one_eq_zero i
      rw [Function.update_self]
  exact ⟨_, clock, heq ▸ h.tail (.move 0 t' f hs)⟩

def gone : Outcome := .error (ascii "gone")

/-- A scan that failed after ten seconds, in which another was asked for. -/
def failedScan : Scan := ⟨⟨0, false⟩, 10 * second, gone⟩

/-- The one asked for, begun no sooner than nine times ten seconds later. -/
def secondScan : Task := ⟨.running ⟨100 * second, true⟩ .starting, false, false, [failedScan], [0]⟩

theorem runs_secondScan : Runs hourly (100 * second) secondScan := by
  have h : Runs hourly 0 .new := ⟨_, 0, .refl⟩
  have h := h.move (.start false rfl)
  have h := h.move (.mark ⟨0, false⟩ rfl)
  have h := h.move (.walk ⟨0, false⟩ rfl)
  have h := h.move .request
  have h := h.tick (Nat.zero_le (10 * second))
  have h := h.move (.finish ⟨0, false⟩ 0 gone rfl)
  have h := h.move (.record ⟨0, false⟩ gone rfl)
  have h := h.move (.done ⟨0, false⟩ gone rfl)
  have h := h.move (.notified failedScan rfl rfl)
  have h := h.tick (show 10 * second ≤ 100 * second by decide)
  have h := h.move (.wake failedScan rfl (by decide))
  exact h.move (.start true rfl)

/-- Whatever the requests and the other targets do, a scan of a target begins no earlier after the
last than the interval allows, or, asked for, than a minute after the last began and nine times its
length after it ended; so from the first start to this one scanning has taken at most a tenth of
the time, but for what the interval itself allows. A request makes at most one scan early. -/
theorem scans_paced (h : Reachable targets s) (i : Fin targets.length) {b : Begun}
    (hb : (s.task i).phase.current = some b) :
    ((s.task i).scans.IsChain fun a c => Follows (interval (targets.get i)) a c.toBegun) ∧
      (∀ a ∈ (s.task i).scans.getLast?, Follows (interval (targets.get i)) a b) ∧
      (∀ a ∈ (s.task i).scans.head?,
        a.started + ((s.task i).scans.map (Scan.share (interval (targets.get i)))).sum ≤ b.started) ∧
      (s.task i).scans.countP (fun a => a.asked) + b.asked.toNat ≤ (s.task i).asked.length := by
  have hpaced := h.inv.paced i
  have honce := (h.inv.heard i).once
  have hlast : ∀ a ∈ (s.task i).scans.getLast?, Follows (interval (targets.get i)) a b := by
    have hfits := hpaced.phase
    cases hphase : (s.task i).phase with
    | running b' stage =>
      rw [hphase] at hb hfits
      obtain rfl := Option.some.inj hb
      cases hfits with
      | running hstarted hlast => exact hlast
    | ready asked => rw [hphase] at hb; cases hb
    | waiting last => rw [hphase] at hb; cases hb
    | early last => rw [hphase] at hb; cases hb
  refine ⟨hpaced.chain, hlast, ?_, ?_⟩
  · intro a ha
    have hsum := shares_le (fun c hc => (hpaced.past c hc).1) hpaced.chain
      (fun c hc => (hlast c hc).share (hpaced.past c (List.mem_of_mem_getLast? hc)).1)
    rwa [Option.mem_def.1 ha] at hsum
  · rw [hb] at honce
    have : ([b].countP fun b => b.asked) = b.asked.toNat := by cases hasked : b.asked <;> simp [hasked]
    simp only [Option.toList_some] at honce
    omega

theorem scans_paced_secondScan : ∃ store,
    Reachable [hourly] ⟨100 * second, store, fun _ => secondScan⟩ ∧
      (secondScan.scans.IsChain fun a c => Follows (interval hourly) a c.toBegun) ∧
      (∀ a ∈ secondScan.scans.getLast?, Follows (interval hourly) a ⟨100 * second, true⟩) ∧
      (∀ a ∈ secondScan.scans.head?, a.started + (secondScan.scans.map (Scan.share (interval hourly))).sum ≤ 100 * second) ∧
      secondScan.scans.countP (fun a => a.asked) + true.toNat ≤ secondScan.asked.length := by
  obtain ⟨store, h⟩ := runs_secondScan
  exact ⟨store, h, scans_paced h 0 rfl⟩

/-- A request is never lost, whatever the task was at: it still stands, or is about to be heeded,
or a scan has begun at its time or since. -/
theorem requests_heard (h : Reachable targets s) (i : Fin targets.length) (time : Nat) (ht : time ∈ (s.task i).asked) :
    (s.task i).permit = true ∨ (s.task i).phase.heeds = true ∨ ∃ started ∈ (s.task i).starts, time ≤ started :=
  (h.inv.heard i).answered time ht

theorem requests_heard_secondScan : ∃ store,
    Reachable [hourly] ⟨100 * second, store, fun _ => secondScan⟩ ∧
      (secondScan.permit = true ∨ secondScan.phase.heeds = true ∨ ∃ started ∈ secondScan.starts, 0 ≤ started) := by
  obtain ⟨store, h⟩ := runs_secondScan
  exact ⟨store, h, requests_heard h 0 0 (by simp [secondScan])⟩

/-- Each snapshot is of one target. -/
theorem Inv.target_of_snap (h : Inv s) {snap : TargetSnapshot} (hsnap : snap ∈ s.store) :
    ∃ i : Fin targets.length, snap.targetName = (targets.get i).name := by
  obtain ⟨target, htarget, hidentity⟩ := List.mem_map.1 (h.store.mem_iff.1 (List.mem_map_of_mem hsnap))
  obtain ⟨i, rfl⟩ := List.get_of_mem htarget
  exact ⟨i, (targetName_of_identity hidentity).symm⟩

theorem Inv.snap_of_target (h : Inv s) (i : Fin targets.length) :
    ∃ snap ∈ s.store, snap.identity = (TargetSnapshot.fromTarget (targets.get i)).identity :=
  List.mem_map.1 (h.store.mem_iff.2 (List.mem_map.2 ⟨_, List.get_mem targets i, rfl⟩))

/-- The store has a snapshot of every target, which says whether a scan of it is running, how many
were made and failed, what the last success was and whether the last one failed; and the service is
ready exactly when a scan of every target has succeeded. -/
theorem snapshots_show (hnames : (targets.map Config.Target.name).Nodup) (h : Reachable targets s) :
    (∀ i, ∃ snap ∈ s.store, snap.identity = (TargetSnapshot.fromTarget (targets.get i)).identity ∧ Shows (s.task i) snap) ∧
      (ready s.store = true ↔ ∀ i, ∃ r, .ok r ∈ (s.task i).outcomes) := by
  have hinv := h.inv
  have hshown := hinv.shows hnames
  refine ⟨?_, ?_⟩
  · intro i
    obtain ⟨snap, hsnap, hidentity⟩ := hinv.snap_of_target i
    exact ⟨snap, hsnap, hidentity, hshown i snap hsnap (targetName_of_identity hidentity)⟩
  · rw [ready, List.all_eq_true]
    constructor
    · intro hready i
      obtain ⟨snap, hsnap, hidentity⟩ := hinv.snap_of_target i
      exact (hshown i snap hsnap (targetName_of_identity hidentity)).isReady_iff.1 (hready snap hsnap)
    · intro hall snap hsnap
      obtain ⟨i, hname⟩ := hinv.target_of_snap hsnap
      exact (hshown i snap hsnap hname).isReady_iff.2 (hall i)

theorem snapshots_show_secondScan : ∃ store,
    Reachable [hourly] ⟨100 * second, store, fun _ => secondScan⟩ ∧
      (∃ snap ∈ store, snap.identity = (TargetSnapshot.fromTarget hourly).identity ∧ Shows secondScan snap) ∧
      ready store = false := by
  obtain ⟨store, h⟩ := runs_secondScan
  have hnames : ([hourly].map Config.Target.name).Nodup := List.nodup_singleton _
  have hsnapshots := snapshots_show hnames h
  refine ⟨store, h, hsnapshots.1 0, ?_⟩
  rw [Bool.eq_false_iff, Ne, hsnapshots.2]
  intro hall
  obtain ⟨r, hr⟩ := hall 0
  cases List.mem_singleton.1 hr

end Runs

end StorageHarvester.Scheduler
