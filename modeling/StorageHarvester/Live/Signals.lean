/-
Change signals, re-reads and scans of the live targets (`LiveStore::signal`, `replace`, `next_due` and
`relist_all` in `src/live.rs`, `run_scan` in `src/scheduler.rs`): a signal queues the directory its key
resolves to and, while a scan runs, is kept for the tree that comes of it. Whatever the threads do in
between, a signal stays queued or kept until the directory is read, as long as no directory is queued
for an older tree than it waits for already and none fails to be read that is still there.

One step is what a thread does under one lock: a signal with the entry it queues, a batch that is due,
all re-reads of a target, a tree taken, one directory queued afterwards.
-/
import StorageHarvester.Live.Engine
import StorageHarvester.Live.PastCap
import StorageHarvester.Live.Resolve

namespace StorageHarvester

/-! ## What a re-read leaves keys resolving to -/

/-- A state whose keys resolve to what they did, or to new directories. -/
structure Extends (st st' : TreeState) : Prop where
  generation : st'.generation = st.generation
  drained : st'.tree.handles = []
  length : st.tree.nodes.length ≤ st'.tree.nodes.length
  alive : ∀ i < st.tree.nodes.length, (st'.tree.node i).alive = true → (st.tree.node i).alive = true
  inos : ∀ ino n, st'.inos.get ino = some n → st.inos.get ino = some n ∨ st.tree.nodes.length ≤ n
  handles : ∀ handle n, st'.handles.get handle = some n → st.handles.get handle = some n ∨ st.tree.nodes.length ≤ n

namespace Extends

variable {st st' st'' : TreeState}

theorem refl (hd : st.tree.handles = []) : Extends st st :=
  ⟨rfl, hd, le_rfl, fun _ _ ha => ha, fun _ _ h => .inl h, fun _ _ h => .inl h⟩

theorem trans (h : Extends st st') (h' : Extends st' st'') : Extends st st'' := by
  refine ⟨h'.generation.trans h.generation, h'.drained, h.length.trans h'.length,
    fun i hi ha => h.alive i hi (h'.alive i (hi.trans_le h.length) ha), fun ino n hg => ?_, fun handle n hg => ?_⟩
  · rcases h'.inos ino n hg with hg | hn
    · exact h.inos ino n hg
    · exact .inr (h.length.trans hn)
  · rcases h'.handles handle n hg with hg | hn
    · exact h.handles handle n hg
    · exact .inr (h.length.trans hn)

theorem alive_of_resolve {key : StableKey} {n : Nat} (h : st.resolve key = some n) : (st.tree.node n).alive = true := by
  cases key with
  | handle => exact (Option.filter_eq_some_iff.1 h).2
  | ino => exact (Option.filter_eq_some_iff.1 h).2

theorem resolve (h : Extends st st') {key : StableKey} {n : Nat} (hr : st'.resolve key = some n) :
    st.resolve key = some n ∨ st.tree.nodes.length ≤ n := by
  rcases Nat.lt_or_ge n st.tree.nodes.length with hn | hn
  · left
    cases key with
    | handle handle =>
      obtain ⟨hg, ha⟩ := Option.filter_eq_some_iff.1 hr
      exact Option.filter_eq_some_iff.2 ⟨(h.handles handle n hg).resolve_right (Nat.not_le.2 hn), h.alive n hn ha⟩
    | ino ino =>
      obtain ⟨hg, ha⟩ := Option.filter_eq_some_iff.1 hr
      exact Option.filter_eq_some_iff.2 ⟨(h.inos ino n hg).resolve_right (Nat.not_le.2 hn), h.alive n hn ha⟩
  · exact .inr hn

/-- A directory the tree had dropped stays so, or is a new one that was walked. -/
theorem dead_or_new (h : Extends st st') {n : Nat} (hd : (st.tree.node n).alive = false) :
    (st'.tree.node n).alive = false ∨ st.tree.nodes.length ≤ n ∧ n < st'.tree.nodes.length := by
  cases ha : (st'.tree.node n).alive with
  | false => exact .inl rfl
  | true =>
    refine .inr ⟨?_, DirTree.lt_of_alive ha⟩
    by_contra hlt
    rw [h.alive n (Nat.lt_of_not_le hlt) ha] at hd
    cases hd

/-- The same indexes, beside a tree in which fewer directories may be alive. -/
theorem retree (hd : st.tree.handles = []) (hg : st'.generation = st.generation) (hi : st'.inos = st.inos)
    (hh : st'.handles = st.handles) (ht : SameInos st.tree st'.tree)
    (ha : ∀ i, (st'.tree.node i).alive = true → (st.tree.node i).alive = true) : Extends st st' :=
  ⟨hg, ht.handles.trans hd, ht.length.ge, fun i _ => ha i, fun _ _ h => .inl (hi ▸ h), fun _ _ h => .inl (hh ▸ h)⟩

end Extends

section Relist

variable {target : Target} {answers : Answers} {st : TreeState} {node : Nat} {m : Merge}

theorem alive_of_detach (t : DirTree) (child i : Nat) (h : ((t.detach child).1.node i).alive = true) : (t.node i).alive = true := by
  have hlink : ∀ (u : DirTree), (∀ j, (u.node j).alive = (t.node j).alive) →
      (({ u with nodes := DirTree.markDead u.nodes.length [child] u.nodes } : DirTree).node i).alive = true → (t.node i).alive = true := by
    intro u hu hd
    rw [← hu]
    unfold DirTree.node at hd ⊢
    rw [DirTree.getD_markDead] at hd
    split at hd
    · cases hd
    · exact hd
  unfold DirTree.detach at h
  cases hp : (t.node child).parent with
  | none =>
    rw [hp] at h
    exact hlink t (fun _ => rfl) h
  | some p =>
    rw [hp] at h
    refine hlink (t.modifyNode p fun n => { n with children := n.children.filter (· ≠ child) }) (fun j => ?_) h
    rw [DirTree.node_modifyNode]
    split <;> rfl

theorem alive_graft_old (t : DirTree) (under : Nat) (other : DirTree) {i : Nat} (hi : i < t.nodes.length) :
    ((t.graft under other).1.node i).alive = (t.node i).alive := by
  let t₁ : DirTree := { t with nodes := t.nodes ++ other.nodes.map (DirTree.graftNode under t.nodes.length ((t.node under).depth + 1)) }
  have htouch := (DirTree.sameShape_touch (t₁.attach under t.nodes.length) under (other.node 0).newest).alive i
  have hattach : ((t₁.attach under t.nodes.length).node i).alive = (t₁.node i).alive := by
    unfold DirTree.attach
    rw [DirTree.node_modifyNode]
    split <;> rfl
  have hold : t₁.node i = t.node i := by
    unfold DirTree.node
    exact List.getD_append _ _ _ _ hi
  have hgraft : ((t.graft under other).1.node i).alive = ((DirTree.touch (t₁.attach under t.nodes.length) under (other.node 0).newest).node i).alive := rfl
  rw [hgraft, htouch, hattach, hold]

theorem extends_add (hd : m.st.tree.handles = []) (subdir : Subdir) : Extends m.st (m.add target answers node subdir).st := by
  unfold Merge.add
  cases hw : walkNew target answers m.st.tree node subdir.name with
  | none => exact .refl hd
  | some p =>
    obtain ⟨sub, shared⟩ := p
    dsimp only
    split
    · have hshared := sameInos_shareLinks m.st.tree.nodes.length shared (m.st.tree.graft node sub).1
      have hshape := sameShape_of_nodes (nodes_shareLinks m.st.tree.nodes.length shared (m.st.tree.graft node sub).1)
      generalize shared.foldl (shareLink m.st.tree.nodes.length) (m.st.tree.graft node sub).1 = u at hshared hshape ⊢
      refine ⟨rfl, rfl, ?_, fun i hi ha => ?_, fun ino n hg => ?_, fun handle n hg => ?_⟩
      · show _ ≤ u.nodes.length
        rw [hshape.length, DirTree.length_graft]
        exact Nat.le_add_right _ _
      · exact (alive_graft_old m.st.tree node sub hi).symm.trans ((hshape.alive i).symm.trans ha)
      · have hg : (TreeState.indexInos u.nodes m.st.tree.nodes.length m.st.inos).get ino = some n := hg
        rw [get_indexInos] at hg
        rcases Option.or_eq_some_iff.1 hg with hg | ⟨-, hg⟩
        · right
          have hcount : (inoRecords m.st.tree).length = m.st.tree.nodes.length := by
            unfold inoRecords
            simp
          rw [hshared.records, inoRecords_graft, ← hcount, List.drop_left] at hg
          obtain ⟨e, -, he⟩ := List.mem_map.1 (Records.mem_of_last hg)
          have hn := congrArg Prod.fst he
          dsimp only at hn
          omega
        · exact .inl hg
      · have hg : (u.handles.foldl (fun handles e => handles.put e.2 e.1) m.st.handles).get handle = some n := hg
        rw [Records.get_index, hshared.handles, handles_graft, hd, List.nil_append] at hg
        rcases Option.or_eq_some_iff.1 hg with hg | ⟨-, hg⟩
        · right
          obtain ⟨e, -, he⟩ := List.mem_map.1 (Records.mem_of_last hg)
          have hn := congrArg Prod.fst he
          dsimp only at hn
          omega
        · exact .inl hg
    · exact .retree hd rfl rfl rfl (sameInos_modifyNode m.st.tree node (f := fun n => { n with isSealed := true }) fun _ => rfl) fun i ha => by
        have hs := DirTree.sameShape_modifyNode m.st.tree node (f := fun n => { n with isSealed := true }) fun _ => rfl
        exact (hs.alive i).symm.trans ha

theorem extends_keep (hd : m.st.tree.handles = []) (child : Nat) (subdir : Subdir) : Extends m.st (m.keep child subdir).st :=
  .retree hd rfl rfl rfl (sameInos_modifyNode m.st.tree child fun _ => rfl) fun i ha =>
    ((sameShape_keep m child subdir).alive i).symm.trans ha

theorem extends_drop (hd : m.st.tree.handles = []) (child : Nat) : Extends m.st (m.drop child).st :=
  .retree hd rfl rfl rfl (sameInos_detach m.st.tree child) fun i ha => alive_of_detach m.st.tree child i ha

theorem extends_mergeChildren (fuel : Nat) (children : List Nat) (subdirs : List Subdir) (m : Merge) (hd : m.st.tree.handles = []) :
    Extends m.st (mergeChildren target answers node fuel children subdirs m).st := by
  have hadd : ∀ (m m' : Merge) (subdir : Subdir), m.st.tree.handles = [] →
      ((m.add target answers node subdir).st.tree.handles = [] → Extends (m.add target answers node subdir).st m'.st) →
      Extends m.st m'.st := fun m m' subdir hd h =>
    (extends_add hd subdir).trans (h (extends_add hd subdir).drained)
  have hdrop : ∀ (m m' : Merge) (child : Nat), m.st.tree.handles = [] →
      ((m.drop child).st.tree.handles = [] → Extends (m.drop child).st m'.st) → Extends m.st m'.st := fun m m' child hd h =>
    (extends_drop hd child).trans (h (extends_drop hd child).drained)
  fun_induction mergeChildren target answers node fuel children subdirs m with
  | case1 => exact .refl hd
  | case2 => exact .refl hd
  | case3 fuel child children m ih => exact hdrop m _ child hd ih
  | case4 fuel subdir subdirs m ih => exact hadd m _ subdir hd ih
  | case5 fuel child children m subdir subdirs ho ih =>
    exact (extends_keep hd _ _).trans (ih (extends_keep hd _ _).drained)
  | case6 fuel child children subdir subdirs m ho ih => exact hdrop m _ child hd ih
  | case7 fuel child children subdir subdirs m ho ih => exact hadd m _ subdir hd ih

/-- After a re-read a key resolves to what it did, or to a directory that is new. -/
theorem extends_relist (target : Target) (answers : Answers) (hd : st.tree.handles = []) (node : Nat) :
    Extends st (relist target answers st node).1 := by
  rcases relist_cases target answers st node with ⟨listing, -, he⟩ | ⟨-, he⟩
  · rw [he]
    have hstart : Extends st (startMerge st node listing).st := .retree hd rfl rfl rfl ⟨rfl, rfl⟩ fun _ ha => ha
    have hmerged : Extends st (merged target answers st node listing).st :=
      hstart.trans (extends_mergeChildren _ _ _ (startMerge st node listing) hstart.drained)
    have hinos : SameInos (merged target answers st node listing).st.tree (applyAll target answers st node listing).1.tree :=
      sameInos_frame.applyAll target answers st node listing
    refine hmerged.trans (.retree hmerged.drained rfl rfl rfl hinos fun i ha => ?_)
    rw [alive_applyAll] at ha
    exact ((sameLinks_settledTree target answers st node listing).shape.alive i).symm.trans ha
  · rw [he]
    exact .refl hd

end Relist

namespace TreeState

/-- Links a scan saw while it also saw the same file with one link elsewhere: the directories to re-read. -/
def linkedDuringScan (st : TreeState) : List Nat :=
  if st.plain.isEmpty then []
  else
    let linked := st.tree.links.entries.map (fun e => (e.1, some e.2.node)) ++ st.untracked.map (·, none)
    (linked.flatMap fun e => (st.plainHolders e.1).filter fun holder =>
      decide (some holder ≠ e.2) && (st.tree.node holder).alive && !(st.tree.node holder).isSealed).dedup

end TreeState

/-! ## The threads -/

namespace Signals

variable {Lookup : Type}

open Engine (Key Pending Queue nodesOf others)

/-- What a target's task in the scheduler is at. -/
inductive Scan (Lookup : Type) where
  | idle
  /-- A scan runs: `scanning` is set. -/
  | running (number : Nat)
  /-- `replace`, its lock released, with what it still has to queue. -/
  | replaying (generation : Nat) (replay : List (Nat × Option Lookup))

structure LiveTarget (Lookup : Type) where
  state : Option TreeState := none
  /-- What was signalled while a scan ran, with the last process named for each. -/
  duringScan : Table StableKey (Option Lookup) := .empty
  scan : Scan Lookup := .idle
  /-- Not in the source: how many scans have begun, and which one the tree comes from. -/
  scans : Nat := 0
  installed : Nat := 0

/-- What the engine's thread is at. -/
inductive Phase (Lookup : Type) where
  | waiting
  /-- Between two targets of those `next_due` returned directories of. -/
  | between (due : List (Key × Pending Lookup))
  /-- `relist_all`, its lock released, with the directories still to queue. -/
  | requeuing (due : List (Key × Pending Lookup)) (target : Nat) (requeue : List (Nat × Nat))

/-- What taking up a directory of the installed tree comes to. -/
inductive Taken where
  /-- It is listed; a new one is walked. -/
  | read
  /-- A sealed directory is never re-read. -/
  | isSealed
  /-- It is gone: the re-read of its parent, which is asked for, drops it. -/
  | gone (parent : Nat)
  /-- The tree has dropped it. -/
  | dead
  /-- It cannot be read: nothing is done, and nothing asked for. -/
  | failed
  deriving DecidableEq

/-- A directory taken up: of which target, in which tree, and what came of it. -/
structure Read where
  target : Nat
  generation : Nat
  node : Nat
  taken : Taken
  deriving DecidableEq

def Read.of (target generation : Nat) (r : Nat × Taken) : Read := ⟨target, generation, r.1, r.2⟩

structure State (Lookup : Type) where
  queue : Queue Lookup := .empty
  targets : Nat → LiveTarget Lookup := fun _ => {}
  phase : Phase Lookup := .waiting
  /-- Not in the source: every directory of an installed tree taken up, and every one walked, in order. -/
  reads : List Read := []

namespace State

def set (s : State Lookup) (target : Nat) (lt : LiveTarget Lookup) : State Lookup :=
  { s with targets := Function.update s.targets target lt }

/-- The queue once a key is signalled: the directory it resolves to waits, if there is one. -/
def signalled (s : State Lookup) (target : Nat) (key : StableKey) (who : Option Lookup) (now : Nat) : Queue Lookup :=
  match (s.targets target).state with
  | none => s.queue
  | some st => match st.resolve key with
    | none => s.queue
    | some node => s.queue.enqueue (target, node) now st.generation who

/-- `LiveStore::signal`; `who` and `again` are what the two lookups of the process say. -/
def signal (s : State Lookup) (target : Nat) (key : StableKey) (who again : Option Lookup) (now : Nat) : State Lookup :=
  let lt := s.targets target
  let next := { s with queue := s.signalled target key who now }
  match lt.scan with
  | .running _ =>
    let held := if again.isSome then again else (lt.duringScan.get key).getD none
    next.set target { lt with duringScan := lt.duringScan.put key held }
  | _ => next

end State

/-- What a re-read changed is touched. -/
def touchChanged (now : Int) (changed : TreeState × Outcome) : TreeState :=
  { changed.1 with
    tree := (changed.2.changes.filter fun c => !c.2.isZero).foldl (fun tree c => tree.touch c.1 now) changed.1.tree }

/-- What `relist` makes of a directory. -/
def taken (config : Target) (answers : Answers) (st : TreeState) (node : Nat) : Taken :=
  if !(st.tree.node node).alive then .dead
  else if (st.tree.node node).isSealed then .isSealed
  else match readListing config answers st node with
    | .ok _ => .read
    | .error error => if error.isGone then (st.tree.node node).parent.elim .failed .gone else .failed

/-- `relist_all` while it holds the target's lock: what it takes up, walks included, and what it has to queue. -/
inductive RelistAll (config : Target) :
    TreeState → List (Nat × Pending Lookup) → TreeState → List (Nat × Taken) → List (Nat × Nat) → Prop
  | nil (st : TreeState) : RelistAll config st [] st [] []
  /-- A directory queued for another tree. -/
  | skip {st st' : TreeState} {node : Nat} {queued : Pending Lookup} {nodes : List (Nat × Pending Lookup)} {reads : List (Nat × Taken)}
      {requeue : List (Nat × Nat)} (hg : queued.generation ≠ st.generation) (h : RelistAll config st nodes st' reads requeue) :
      RelistAll config st ((node, queued) :: nodes) st' reads requeue
  | relist {st next st' : TreeState} {node : Nat} {queued : Pending Lookup} {nodes : List (Nat × Pending Lookup)} {reads : List (Nat × Taken)}
      {requeue : List (Nat × Nat)} {outcome : Outcome} (answers : Answers) (now : Int) (hg : queued.generation = st.generation)
      (hr : relist config answers st node = (next, outcome)) (h : RelistAll config (touchChanged now (next, outcome)) nodes st' reads requeue) :
      RelistAll config st ((node, queued) :: nodes) st'
        ((node, taken config answers st node) ::
          (List.range' st.tree.nodes.length (next.tree.nodes.length - st.tree.nodes.length)).map (·, .read) ++ reads)
        (outcome.requeue.map (·, st.generation) ++ requeue)

/-- What some thread does next, and the directory that is queued for a tree as it does. -/
inductive Step (config : Nat → Target) (s : State Lookup) : Option (Key × Nat) → State Lookup → Prop
  | scan (target : Nat) (hidle : (s.targets target).scan = .idle) :
      Step config s none (s.set target
        { s.targets target with scan := .running (s.targets target).scans, scans := (s.targets target).scans + 1 })
  /-- A scan that comes to nothing. -/
  | fail (target : Nat) {number : Nat} (hrun : (s.targets target).scan = .running number) :
      Step config s none (s.set target { s.targets target with scan := .idle })
  | signal (target : Nat) (key : StableKey) (who again : Option Lookup) (now : Nat) :
      Step config s (((s.targets target).state.bind fun st => (st.resolve key).map fun node => ((target, node), st.generation)))
        (s.signal target key who again now)
  | look {due : List (Key × Pending Lookup)} (now : Nat) (hphase : s.phase = .waiting) (hdue : due.Perm (s.queue.due now)) :
      Step config s none { s with queue := s.queue.look now, phase := if due.isEmpty then .waiting else .between due }
  /-- A target without a tree: its directories are let go. -/
  | absent {due : List (Key × Pending Lookup)} (target : Nat) (hphase : s.phase = .between due)
      (hnone : (s.targets target).state = none) : Step config s none { s with phase := .between (others due target) }
  /-- The re-reads also set cooldowns. -/
  | relist {due : List (Key × Pending Lookup)} {st st' : TreeState} {reads : List (Nat × Taken)} {requeue : List (Nat × Nat)} (target : Nat)
      (cooldown : Table Key Nat) (hphase : s.phase = .between due) (hstate : (s.targets target).state = some st)
      (hr : RelistAll (config target) st (nodesOf due target) st' reads requeue) :
      Step config s none
        ({ s with
            queue := { s.queue with cooldown := cooldown }
            phase := .requeuing (others due target) target requeue
            reads := s.reads ++ reads.map (Read.of target st.generation) }.set target
          { s.targets target with state := some st' })
  | requeue {due : List (Key × Pending Lookup)} {target dir generation : Nat} {requeue : List (Nat × Nat)} (now : Nat)
      (hphase : s.phase = .requeuing due target ((dir, generation) :: requeue)) :
      Step config s (some ((target, dir), generation))
        { s with queue := s.queue.enqueue (target, dir) now generation none, phase := .requeuing due target requeue }
  | requeued {due : List (Key × Pending Lookup)} {target : Nat} (hphase : s.phase = .requeuing due target []) :
      Step config s none { s with phase := .between due }
  | done (hphase : s.phase = .between []) : Step config s none { s with phase := .waiting }
  /-- `replace` while it holds the target's lock. -/
  | replace {number generation : Nat} {keys : List (StableKey × Option Lookup)} {linked : List Nat} (target : Nat) (tree : DirTree)
      (hrun : (s.targets target).scan = .running number)
      (hg : generation = (s.targets target).state.elim 1 fun old => old.generation + 1)
      (hkeys : keys.Perm (s.targets target).duringScan.entries)
      (hlinked : linked.Perm (TreeState.new tree generation).linkedDuringScan) :
      Step config s none (s.set target
        { s.targets target with
          state := some (TreeState.new tree generation)
          duringScan := .empty
          scan := .replaying generation ((keys.filterMap fun e =>
            ((TreeState.new tree generation).resolve e.1).map fun node => (node, e.2)) ++ linked.map (·, none))
          installed := number })
  | replay {target node generation : Nat} {who : Option Lookup} {replay : List (Nat × Option Lookup)} (now : Nat)
      (hscan : (s.targets target).scan = .replaying generation ((node, who) :: replay)) :
      Step config s (some ((target, node), generation))
        ({ s with queue := s.queue.enqueue (target, node) now generation who }.set target
          { s.targets target with scan := .replaying generation replay })
  | replayed (target : Nat) {generation : Nat} (hscan : (s.targets target).scan = .replaying generation []) :
      Step config s none (s.set target { s.targets target with scan := .idle })

/-- Any number of steps. -/
abbrev Steps (config : Nat → Target) : State Lookup → State Lookup → Prop :=
  Relation.ReflTransGen fun s s' => ∃ queued, Step config s queued s'

/-- No directory is queued for an older tree when its number waits for the installed one already. -/
def NotOlder (s : State Lookup) (queued : Option (Key × Nat)) : Prop :=
  ∀ key generation, queued = some (key, generation) → ∀ pending st, s.queue.pending.get key = some pending →
    (s.targets key.1).state = some st → pending.generation = st.generation → st.generation ≤ generation

/-- Every directory a step takes up is read, unless the tree has dropped it, it is sealed, or it is gone and has a parent. -/
def Readable (s s' : State Lookup) : Prop := ∀ r ∈ s'.reads.drop s.reads.length, r.taken ≠ .failed

/-- Steps none of which queues a directory so, or fails to read one. -/
abbrev FreshSteps (config : Nat → Target) : State Lookup → State Lookup → Prop :=
  Relation.ReflTransGen fun s s' => ∃ queued, Step config s queued s' ∧ NotOlder s queued ∧ Readable s s'

/-- The directories `next_due` returned whose turn has not come. -/
def Phase.due : Phase Lookup → List (Key × Pending Lookup)
  | .waiting => []
  | .between due | .requeuing due _ _ => due

/-- The directory waits to be re-read, for this tree. -/
def State.Holds (s : State Lookup) (target node generation : Nat) : Prop :=
  ∃ queued : Pending Lookup, queued.generation = generation ∧
    (s.queue.pending.get (target, node) = some queued ∨ ((target, node), queued) ∈ s.phase.due)

/-- `replace` still has to queue the directory. -/
def State.Replays (s : State Lookup) (target node generation : Nat) : Prop :=
  ∃ replay, (s.targets target).scan = .replaying generation replay ∧ node ∈ replay.map Prod.fst

/-- The scan that runs has the key to replay. -/
def State.Records (s : State Lookup) (target : Nat) (key : StableKey) : Prop :=
  ∃ number, (s.targets target).scan = .running number ∧ ((s.targets target).duringScan.get key).isSome

/-- `relist_all` still has to queue the directory. -/
def State.Follows (s : State Lookup) (target node generation : Nat) : Prop :=
  ∃ due requeue, s.phase = .requeuing due target requeue ∧ (node, generation) ∈ requeue

/-- The installed tree has dropped the directory. -/
def State.Dropped (s : State Lookup) (target node generation : Nat) : Prop :=
  ∃ st, (s.targets target).state = some st ∧ st.generation = generation ∧ (st.tree.node node).alive = false

/-- The directory was taken up since `s₀`, with this result. -/
def Found (s₀ s : State Lookup) (target generation node : Nat) (taken : Taken) : Prop :=
  ⟨target, generation, node, taken⟩ ∈ s.reads.drop s₀.reads.length

/-- The directory was read since `s₀`, or found sealed, or it waits to be read, or is still to be queued. -/
def Awaits (s₀ s : State Lookup) (target generation node : Nat) : Prop :=
  Found s₀ s target generation node .read ∨ Found s₀ s target generation node .isSealed ∨ s.Holds target node generation ∨
    s.Replays target node generation

/-- A directory whose re-read was asked for: it awaits it, or it is gone too and its own parent is pursued. -/
inductive Pursued (s₀ s : State Lookup) (target generation : Nat) : Nat → Prop
  | awaits {node : Nat} (h : Awaits s₀ s target generation node) : Pursued s₀ s target generation node
  | follows {node : Nat} (h : s.Follows target node generation) : Pursued s₀ s target generation node
  | dropped {node : Nat} (h : s.Dropped target node generation) : Pursued s₀ s target generation node
  | gone {node parent : Nat} (h : Found s₀ s target generation node (.gone parent)) (hp : Pursued s₀ s target generation parent) :
      Pursued s₀ s target generation node

/-- The directory awaits its re-read, or it was found gone since `s₀` and its parent is pursued. -/
def Cared (s₀ s : State Lookup) (target generation node : Nat) : Prop :=
  Awaits s₀ s target generation node ∨
    ∃ parent, Found s₀ s target generation node (.gone parent) ∧ Pursued s₀ s target generation parent

/-- A signal at `s₀` is not lost at `s`: the directory its key resolves to is read or to be, the scan that runs has it,
or the tree comes from a scan that began after the signal. -/
def Kept (s₀ s : State Lookup) (target : Nat) (key : StableKey) : Prop :=
  ∀ st node, (s.targets target).state = some st → st.resolve key = some node →
    Cared s₀ s target st.generation node ∨ s.Records target key ∨ (s₀.targets target).scans ≤ (s.targets target).installed

/-! ## What the queue's operations do to what waits -/

theorem get_enqueue (q : Queue Lookup) (key : Key) (now generation : Nat) (who : Option Lookup) :
    ∃ held : Pending Lookup, held.generation = generation ∧
      ∀ k, (q.enqueue key now generation who).pending.get k = if k = key then some held else q.pending.get k := by
  unfold Queue.enqueue
  refine ⟨_, ?_, fun k => Table.get_put _ _ _ _⟩
  split <;> split <;> simp_all

/-- A queued directory waits on when another is queued, or itself for the same tree. -/
theorem waits_enqueue {q : Queue Lookup} {key : Key} {generation : Nat}
    (h : ∃ queued : Pending Lookup, queued.generation = generation ∧ q.pending.get key = some queued) (key' : Key) (generation' : Nat)
    (hk : key = key' → generation' = generation) (now : Nat) (who : Option Lookup) :
    ∃ queued : Pending Lookup, queued.generation = generation ∧ (q.enqueue key' now generation' who).pending.get key = some queued := by
  obtain ⟨held, hheld, hget⟩ := get_enqueue q key' now generation' who
  by_cases he : key = key'
  · exact ⟨held, hheld.trans (hk he), by rw [hget, if_pos he]⟩
  · obtain ⟨queued, hq, hp⟩ := h
    exact ⟨queued, hq, by rw [hget, if_neg he, hp]⟩

/-- What is due is handed out, the rest waits. -/
theorem get_look (q : Queue Lookup) (now : Nat) {key : Key} {queued : Pending Lookup} (h : q.pending.get key = some queued) :
    (q.look now).pending.get key = some queued ∨ (key, queued) ∈ q.due now := by
  cases hd : q.isDue now key with
  | true => exact .inr (List.mem_filter.2 ⟨Table.get_eq_some.1 h, hd⟩)
  | false =>
    left
    show (q.pending.retain _).get key = _
    rw [Table.get_retain, h, Option.bind_some, hd]
    rfl

/-! ## What holds of every run -/

/-- Trees have their handles indexed, and nothing is still to be queued for a tree that is yet to come. -/
structure Inv (s : State Lookup) : Prop where
  drained : ∀ target st, (s.targets target).state = some st → st.tree.handles = []
  requeued : ∀ due target requeue, s.phase = .requeuing due target requeue → ∀ e ∈ requeue,
    ∃ st, (s.targets target).state = some st ∧ e.2 ≤ st.generation
  replayed : ∀ target generation replay, (s.targets target).scan = .replaying generation replay →
    ∃ st, (s.targets target).state = some st ∧ generation ≤ st.generation

theorem sameInos_touchAll (now : Int) : ∀ (changes : List (Nat × Delta)) (t : DirTree),
    SameInos t (changes.foldl (fun tree c => tree.touch c.1 now) t)
  | [], t => sameInos_frame.refl t
  | c :: changes, t => sameInos_frame.trans (sameInos_frame.touch t c.1 now) (sameInos_touchAll now changes _)

theorem alive_touchAll (now : Int) (i : Nat) : ∀ (changes : List (Nat × Delta)) (t : DirTree),
    ((changes.foldl (fun tree c => tree.touch c.1 now) t).node i).alive = (t.node i).alive
  | [], _ => rfl
  | c :: changes, t => (alive_touchAll now i changes _).trans ((DirTree.sameShape_touch t c.1 now).alive i)

theorem extends_touchChanged (now : Int) {st : TreeState} (hd : st.tree.handles = []) (outcome : Outcome) :
    Extends st (touchChanged now (st, outcome)) :=
  .retree hd rfl rfl rfl (sameInos_touchAll now _ st.tree) fun i ha => (alive_touchAll now i _ st.tree).symm.trans ha

theorem requeue_of_gone {config : Target} {answers : Answers} {st : TreeState} {node parent : Nat}
    (h : taken config answers st node = .gone parent) : (relist config answers st node).2.requeue = [parent] := by
  unfold taken at h
  unfold StorageHarvester.relist
  split at h
  · cases h
  split at h
  · cases h
  rename_i ha hs
  rw [if_neg (by simp_all)]
  split at h
  · cases h
  rename_i error he
  split at h
  case isFalse => cases h
  case isTrue hgone =>
    rw [he]
    dsimp only
    rw [if_pos hgone]
    cases hp : (st.tree.node node).parent with
    | none =>
      rw [hp] at h
      cases h
    | some p =>
      rw [hp] at h
      cases h
      rfl

theorem not_alive_of_dead {config : Target} {answers : Answers} {st : TreeState} {node : Nat}
    (h : taken config answers st node = .dead) : (st.tree.node node).alive = false := by
  unfold taken at h
  split at h
  case isTrue hna => simpa using hna
  case isFalse =>
    split at h
    · cases h
    split at h
    · cases h
    split at h
    · cases hp : (st.tree.node node).parent <;> rw [hp] at h <;> cases h
    · cases h

/-- What the re-reads of a target do. -/
structure Relisted (st : TreeState) (nodes : List (Nat × Pending Lookup)) (st' : TreeState) (reads : List (Nat × Taken))
    (requeue : List (Nat × Nat)) : Prop extends Extends st st' where
  /-- A new directory was walked. -/
  walked : ∀ n, st.tree.nodes.length ≤ n → n < st'.tree.nodes.length → (n, .read) ∈ reads
  /-- Unless one failed, every directory queued for the tree was read, or is sealed, or gone with its parent asked for,
  or dropped. -/
  took : (∀ r ∈ reads, r.2 ≠ .failed) → ∀ e ∈ nodes, e.2.generation = st.generation →
    (e.1, .read) ∈ reads ∨ (e.1, .isSealed) ∈ reads ∨ (∃ p, (e.1, .gone p) ∈ reads ∧ (p, st.generation) ∈ requeue) ∨
      (st'.tree.node e.1).alive = false
  requeued : ∀ e ∈ requeue, e.2 = st.generation

theorem RelistAll.relisted {config : Target} {st st' : TreeState} {nodes : List (Nat × Pending Lookup)} {reads : List (Nat × Taken)}
    {requeue : List (Nat × Nat)} (h : RelistAll config st nodes st' reads requeue) (hd : st.tree.handles = []) :
    Relisted st nodes st' reads requeue := by
  induction h with
  | nil st =>
    exact ⟨.refl hd, fun n hn hlt => absurd hlt (Nat.not_lt.2 hn), fun _ e he => absurd he List.not_mem_nil,
      fun e he => absurd he List.not_mem_nil⟩
  | skip hg h ih =>
    have hrest := ih hd
    refine ⟨hrest.toExtends, hrest.walked, fun hok e he heq => ?_, hrest.requeued⟩
    rcases List.mem_cons.1 he with rfl | he
    · exact absurd heq hg
    · exact hrest.took hok e he heq
  | @relist st next st' node queued nodes reads requeue outcome answers now hg hr h ih =>
    have hnext : Extends st next := by
      have hext := extends_relist config answers hd node
      rwa [hr] at hext
    have htouched := extends_touchChanged now hnext.drained outcome
    have hboth := hnext.trans htouched
    have hrest := ih htouched.drained
    have hlen : (touchChanged now (next, outcome)).tree.nodes.length = next.tree.nodes.length :=
      (sameInos_touchAll now _ next.tree).length
    have hwalked : ∀ n, st.tree.nodes.length ≤ n → n < st'.tree.nodes.length → (n, Taken.read) ∈ (node, taken config answers st node) ::
        (List.range' st.tree.nodes.length (next.tree.nodes.length - st.tree.nodes.length)).map (·, Taken.read) ++ reads := by
      intro n hn hlt
      rcases Nat.lt_or_ge n next.tree.nodes.length with hn' | hn'
      · refine List.mem_append_left _ (List.mem_cons_of_mem _ (List.mem_map.2 ⟨n, List.mem_range'_1.2 ⟨hn, ?_⟩, rfl⟩))
        omega
      · exact List.mem_append_right _ (hrest.walked n (hlen.trans_le hn') hlt)
    refine ⟨hboth.trans hrest.toExtends, hwalked, fun hok e he heq => ?_, fun e he => ?_⟩
    · rcases List.mem_cons.1 he with rfl | he
      · cases ht : taken config answers st node with
        | read => exact .inl (List.mem_append_left _ (List.mem_cons_self ..))
        | isSealed => exact .inr (.inl (List.mem_append_left _ (List.mem_cons_self ..)))
        | gone p =>
          refine .inr (.inr (.inl ⟨p, List.mem_append_left _ (List.mem_cons_self ..), List.mem_append_left _ ?_⟩))
          have hq := requeue_of_gone ht
          rw [hr] at hq
          rw [show outcome.requeue = [p] from hq]
          exact List.mem_cons_self ..
        | dead =>
          -- a number no node had yet may be a directory walked by a later re-read of the batch
          rcases (hboth.trans hrest.toExtends).dead_or_new (not_alive_of_dead ht) with hgone | ⟨hn, hlt⟩
          · exact .inr (.inr (.inr hgone))
          · have hin := hwalked node hn hlt
            rw [ht] at hin
            exact .inl hin
        | failed => exact absurd ht (hok (node, taken config answers st node) (List.mem_append_left _ (List.mem_cons_self ..)))
      · rcases hrest.took (fun r hr => hok r (List.mem_append_right _ hr)) e he (heq.trans hboth.generation.symm) with
          hread | hsealed | ⟨p, hgone, hp⟩ | hdead
        · exact .inl (List.mem_append_right _ hread)
        · exact .inr (.inl (List.mem_append_right _ hsealed))
        · refine .inr (.inr (.inl ⟨p, List.mem_append_right _ hgone, List.mem_append_right _ ?_⟩))
          rw [← hboth.generation]
          exact hp
        · exact .inr (.inr (.inr hdead))
    · rcases List.mem_append.1 he with he | he
      · obtain ⟨dir, -, rfl⟩ := List.mem_map.1 he
        rfl
      · exact (hrest.requeued e he).trans hboth.generation

/-! ## What every step keeps -/

section Steps

variable {config : Nat → Target} {s₀ s s' : State Lookup}

@[simp] theorem targets_set_self (s : State Lookup) (target : Nat) (lt : LiveTarget Lookup) :
    (s.set target lt).targets target = lt := Function.update_self ..

theorem targets_set_of_ne (s : State Lookup) {target t : Nat} (lt : LiveTarget Lookup) (h : t ≠ target) :
    (s.set target lt).targets t = s.targets t := Function.update_of_ne h ..

/-- What a step does that changes no tree. -/
structure Quiet (s : State Lookup) (queued : Option (Key × Nat)) (s' : State Lookup) : Prop where
  state : ∀ t, (s'.targets t).state = (s.targets t).state
  installed : ∀ t, (s'.targets t).installed = (s.targets t).installed
  reads : s'.reads = s.reads
  scans : ∀ t, (s.targets t).scans ≤ (s'.targets t).scans
  requeuing : ∀ due t requeue, s'.phase = .requeuing due t requeue → ∃ due' requeue', s.phase = .requeuing due' t requeue' ∧ requeue ⊆ requeue'
  replaying : ∀ t generation replay, (s'.targets t).scan = .replaying generation replay →
    ∃ replay', (s.targets t).scan = .replaying generation replay'
  /-- A scan that runs keeps what it has, or has begun just now. -/
  running : ∀ t number, (s'.targets t).scan = .running number →
    ((s.targets t).scan = .running number ∧ ∀ key, ((s.targets t).duringScan.get key).isSome → ((s'.targets t).duringScan.get key).isSome) ∨
      number = (s.targets t).scans
  waits : Inv s → NotOlder s queued → ∀ t st node, (s.targets t).state = some st →
    s.Holds t node st.generation ∨ s.Replays t node st.generation → s'.Holds t node st.generation ∨ s'.Replays t node st.generation
  follows : ∀ t node generation, s.Follows t node generation → s'.Follows t node generation ∨ s'.Holds t node generation

/-- The queue and the engine's thread move on. -/
theorem quiet_queue {queued : Option (Key × Nat)} (queue : Queue Lookup) (phase : Phase Lookup)
    (hphase : ∀ due t requeue, phase = .requeuing due t requeue → ∃ due' requeue', s.phase = .requeuing due' t requeue' ∧ requeue ⊆ requeue')
    (hwaits : Inv s → NotOlder s queued → ∀ t st node, (s.targets t).state = some st → s.Holds t node st.generation →
      ({ s with queue := queue, phase := phase } : State Lookup).Holds t node st.generation)
    (hfollows : ∀ t node generation, s.Follows t node generation →
      (∃ due requeue, phase = .requeuing due t requeue ∧ (node, generation) ∈ requeue) ∨
        ({ s with queue := queue, phase := phase } : State Lookup).Holds t node generation) :
    Quiet s queued { s with queue := queue, phase := phase } where
  state _ := rfl
  installed _ := rfl
  reads := rfl
  scans _ := le_rfl
  requeuing := hphase
  replaying _ _ replay h := ⟨replay, h⟩
  running _ _ h := .inl ⟨h, fun _ hk => hk⟩
  waits hinv hfresh t st node hst h := h.imp_left (hwaits hinv hfresh t st node hst)
  follows := hfollows

/-- A directory is queued, and a target's scan goes on. -/
theorem quiet_set {queued : Option (Key × Nat)} (queue : Queue Lookup) {target : Nat} {lt : LiveTarget Lookup}
    (hstate : lt.state = (s.targets target).state) (hinstalled : lt.installed = (s.targets target).installed)
    (hscans : (s.targets target).scans ≤ lt.scans)
    (hreplaying : ∀ generation replay, lt.scan = .replaying generation replay → ∃ replay', (s.targets target).scan = .replaying generation replay')
    (hrunning : ∀ number, lt.scan = .running number →
      ((s.targets target).scan = .running number ∧ ∀ key, ((s.targets target).duringScan.get key).isSome → (lt.duringScan.get key).isSome) ∨
        number = (s.targets target).scans)
    (hheld : Inv s → NotOlder s queued → ∀ t st node, (s.targets t).state = some st → s.Holds t node st.generation →
      ({ s with queue := queue } : State Lookup).Holds t node st.generation)
    (hreplays : ∀ st node, (s.targets target).state = some st → s.Replays target node st.generation →
      ({ s with queue := queue } : State Lookup).Holds target node st.generation ∨
        ∃ replay, lt.scan = .replaying st.generation replay ∧ node ∈ replay.map Prod.fst) :
    Quiet s queued (({ s with queue := queue } : State Lookup).set target lt) := by
  have hself : (({ s with queue := queue } : State Lookup).set target lt).targets target = lt := targets_set_self _ target lt
  have hother : ∀ t, t ≠ target → (({ s with queue := queue } : State Lookup).set target lt).targets t = s.targets t :=
    fun t ht => targets_set_of_ne _ lt ht
  refine { reads := rfl, state := fun t => ?_, installed := fun t => ?_, scans := fun t => ?_, requeuing := fun due _ requeue h => ⟨due, requeue, h, fun _ he => he⟩, replaying := fun t => ?_, running := fun t => ?_, waits := fun hinv hfresh t st node hst h => ?_, follows := fun _ _ _ h => .inl h }
  · by_cases ht : t = target
    · rw [ht, hself, hstate]
    · rw [hother t ht]
  · by_cases ht : t = target
    · rw [ht, hself, hinstalled]
    · rw [hother t ht]
  · by_cases ht : t = target
    · rw [ht, hself]
      exact hscans
    · rw [hother t ht]
  · by_cases ht : t = target
    · rw [ht, hself]
      exact hreplaying
    · rw [hother t ht]
      exact fun _ replay h => ⟨replay, h⟩
  · by_cases ht : t = target
    · rw [ht, hself]
      exact hrunning
    · rw [hother t ht]
      exact fun _ h => .inl ⟨h, fun _ hk => hk⟩
  · rcases h with h | h
    · exact .inl (hheld hinv hfresh t st node hst h)
    · by_cases ht : t = target
      · subst ht
        refine (hreplays st node hst h).imp_right fun hr => ?_
        unfold State.Replays
        rw [hself]
        exact hr
      · right
        unfold State.Replays
        rw [hother t ht]
        exact h

/-- A directory waits on for the installed tree when one is queued for no older tree than its entry. -/
theorem holds_enqueue {key : Key} {generation : Nat} (hle : ∀ st, (s.targets key.1).state = some st → generation ≤ st.generation)
    (hfresh : NotOlder s (some (key, generation))) {t node : Nat} {st : TreeState} (hst : (s.targets t).state = some st)
    (h : s.Holds t node st.generation) (now : Nat) (who : Option Lookup) (phase : Phase Lookup) (hdue : phase.due = s.phase.due) :
    ({ s with queue := s.queue.enqueue key now generation who, phase := phase } : State Lookup).Holds t node st.generation := by
  obtain ⟨queued, hg, hp | hmem⟩ := h
  · have hwaits : ∃ queued : Pending Lookup, queued.generation = st.generation ∧ s.queue.pending.get (t, node) = some queued :=
      ⟨queued, hg, hp⟩
    obtain ⟨held, hheld, hget⟩ := waits_enqueue hwaits key generation (fun he => by
      subst he
      exact le_antisymm (hle st hst) (hfresh _ _ rfl queued st hp hst hg)) now who
    exact ⟨held, hheld, .inl hget⟩
  · exact ⟨queued, hg, .inr (hdue ▸ hmem)⟩

/-- So it does when a key is signalled. -/
theorem holds_signalled {target : Nat} {key : StableKey}
    (hfresh : NotOlder s ((s.targets target).state.bind fun st => (st.resolve key).map fun node => ((target, node), st.generation)))
    {t node : Nat} {st : TreeState} (hst : (s.targets t).state = some st) (h : s.Holds t node st.generation) (who : Option Lookup)
    (now : Nat) : ({ s with queue := s.signalled target key who now } : State Lookup).Holds t node st.generation := by
  unfold State.signalled
  cases hstate : (s.targets target).state with
  | none => exact h
  | some st' =>
    dsimp only
    cases hr : st'.resolve key with
    | none => exact h
    | some found =>
      rw [hstate, Option.bind_some, hr, Option.map_some] at hfresh
      refine holds_enqueue (fun st'' hst'' => ?_) hfresh hst h now who s.phase rfl
      rw [hstate] at hst''
      exact (congrArg TreeState.generation (Option.some.inj hst'')).le

theorem quiet_signal (s : State Lookup) (target : Nat) (key : StableKey) (who again : Option Lookup) (now : Nat) :
    Quiet s ((s.targets target).state.bind fun st => (st.resolve key).map fun node => ((target, node), st.generation))
      (s.signal target key who again now) := by
  have hqueue : Quiet s ((s.targets target).state.bind fun st => (st.resolve key).map fun node => ((target, node), st.generation))
      { s with queue := s.signalled target key who now } :=
    quiet_queue _ s.phase (fun due _ requeue h => ⟨due, requeue, h, fun _ he => he⟩)
      (fun _ hfresh _ _ _ hst h => holds_signalled hfresh hst h who now) fun _ _ _ h => .inl h
  unfold State.signal
  dsimp only
  split
  case h_2 => exact hqueue
  case h_1 number hscan =>
    refine quiet_set _ rfl rfl le_rfl (fun generation replay h => ⟨replay, h⟩) (fun n hn => .inl ⟨hn, fun k hk => ?_⟩)
      (fun _ hfresh _ _ _ hst h => holds_signalled hfresh hst h who now) fun st node _ h => ?_
    · dsimp only
      rw [Table.get_put]
      split
      · rfl
      · exact hk
    · obtain ⟨replay, hr, -⟩ := h
      rw [hscan] at hr
      cases hr

theorem quiet_look {due : List (Key × Pending Lookup)} (now : Nat) (hphase : s.phase = .waiting) (hdue : due.Perm (s.queue.due now)) :
    Quiet s none { s with queue := s.queue.look now, phase := if due.isEmpty then .waiting else .between due } := by
  refine quiet_queue _ _ (fun due' t requeue h => ?_) (fun _ _ t st node _ h => ?_) fun t node generation h => ?_
  · split at h <;> cases h
  · obtain ⟨queued, hg, hp | hmem⟩ := h
    · rcases get_look s.queue now hp with hp | hmem
      · exact ⟨queued, hg, .inl hp⟩
      · have hin := hdue.mem_iff.2 hmem
        refine ⟨queued, hg, .inr ?_⟩
        cases due with
        | nil => cases hin
        | cons => exact hin
    · rw [hphase] at hmem
      cases hmem
  · obtain ⟨_, _, hp, -⟩ := h
    rw [hphase] at hp
    cases hp

/-- What is due goes on as it was, the queue and the trees too. -/
theorem quiet_phase {phase : Phase Lookup} (hphase : ∀ due t requeue, phase ≠ .requeuing due t requeue)
    (hnone : ∀ t node generation, ¬ s.Follows t node generation)
    (hdue : ∀ t node queued, ((t, node), queued) ∈ s.phase.due → (s.targets t).state.isSome → ((t, node), queued) ∈ phase.due) :
    Quiet s none { s with phase := phase } := by
  refine quiet_queue s.queue _ (fun due t requeue h => absurd h (hphase due t requeue)) (fun _ _ t st node hst h => ?_)
    fun t node generation h => absurd h (hnone t node generation)
  obtain ⟨queued, hg, hp | hmem⟩ := h
  · exact ⟨queued, hg, .inl hp⟩
  · exact ⟨queued, hg, .inr (hdue t node queued hmem (Option.isSome_of_eq_some hst))⟩

theorem quiet_requeue {due : List (Key × Pending Lookup)} {target dir generation : Nat} {requeue : List (Nat × Nat)} (now : Nat)
    (hphase : s.phase = .requeuing due target ((dir, generation) :: requeue)) :
    Quiet s (some ((target, dir), generation))
      { s with queue := s.queue.enqueue (target, dir) now generation none, phase := .requeuing due target requeue } := by
  refine quiet_queue _ _ (fun due' t requeue' h => ?_) (fun hinv hfresh t st node hst h => ?_) fun t node g h => ?_
  · cases h
    exact ⟨due, _, hphase, List.subset_cons_self ..⟩
  · refine holds_enqueue (fun st' hst' => ?_) hfresh hst h now none _ (by rw [hphase]; rfl)
    obtain ⟨st'', hst'', hle⟩ := hinv.requeued _ _ _ hphase _ (List.mem_cons_self ..)
    exact (Option.some.inj (hst''.symm.trans hst')) ▸ hle
  · obtain ⟨due', requeue', hp, hmem⟩ := h
    rw [hphase] at hp
    cases hp
    rcases List.mem_cons.1 hmem with he | hmem
    · cases he
      obtain ⟨held, hheld, hget⟩ := get_enqueue s.queue (target, dir) now generation none
      exact .inr ⟨held, hheld, .inl (by rw [hget, if_pos rfl])⟩
    · exact .inl ⟨due, requeue, rfl, hmem⟩

theorem quiet_replay {target node generation : Nat} {who : Option Lookup} {replay : List (Nat × Option Lookup)} (now : Nat)
    (hscan : (s.targets target).scan = .replaying generation ((node, who) :: replay)) :
    Quiet s (some ((target, node), generation))
      (({ s with queue := s.queue.enqueue (target, node) now generation who } : State Lookup).set target
        { s.targets target with scan := .replaying generation replay }) := by
  refine quiet_set _ rfl rfl le_rfl (fun g replay' h => ?_) (fun number h => by cases h) (fun hinv hfresh t st n hst h => ?_) fun st n _ h => ?_
  · cases h
    exact ⟨_, hscan⟩
  · refine holds_enqueue (fun st' hst' => ?_) hfresh hst h now who s.phase rfl
    obtain ⟨st'', hst'', hle⟩ := hinv.replayed _ _ _ hscan
    exact (Option.some.inj (hst''.symm.trans hst')) ▸ hle
  · obtain ⟨replay', hr, hn⟩ := h
    rw [hscan] at hr
    cases hr
    rcases List.mem_cons.1 hn with rfl | hn
    · obtain ⟨held, hheld, hget⟩ := get_enqueue s.queue (target, n) now st.generation who
      exact .inl ⟨held, hheld, .inl (by rw [hget, if_pos rfl])⟩
    · exact .inr ⟨replay, rfl, hn⟩

/-- A scan that begins, or has nothing left to queue or to bring. -/
theorem quiet_scan {target scans : Nat} {scan : Scan Lookup} (hscans : (s.targets target).scans ≤ scans)
    (hreplaying : ∀ generation replay, scan ≠ .replaying generation replay)
    (hrunning : ∀ number, scan = .running number → number = (s.targets target).scans)
    (hnone : ∀ node generation, ¬ s.Replays target node generation) :
    Quiet s none (s.set target { s.targets target with scan := scan, scans := scans }) :=
  quiet_set s.queue rfl rfl hscans (fun _ _ h => absurd h (hreplaying _ _)) (fun number h => .inr (hrunning number h))
    (fun _ _ _ _ _ _ h => h) fun _ _ _ h => absurd h (hnone _ _)

theorem not_follows {due : List (Key × Pending Lookup)} (hphase : s.phase = .between due) (t node generation : Nat) :
    ¬ s.Follows t node generation := by
  rintro ⟨_, _, hp, -⟩
  rw [hphase] at hp
  cases hp

/-- A step changes no tree, or it re-reads a target's directories, or a scan's tree is taken. -/
theorem Step.cases {queued : Option (Key × Nat)} (h : Step config s queued s') : Quiet s queued s' ∨
    (∃ (due : List (Key × Pending Lookup)) (target : Nat) (st st' : TreeState) (reads : List (Nat × Taken)) (requeue : List (Nat × Nat))
      (cooldown : Table Key Nat), s.phase = .between due ∧ (s.targets target).state = some st ∧
      RelistAll (config target) st (nodesOf due target) st' reads requeue ∧
      s' = ({ s with
          queue := { s.queue with cooldown := cooldown }
          phase := .requeuing (others due target) target requeue
          reads := s.reads ++ reads.map (Read.of target st.generation) } : State Lookup).set target
        { s.targets target with state := some st' }) ∨
    ∃ (target number generation : Nat) (keys : List (StableKey × Option Lookup)) (linked : List Nat) (tree : DirTree),
      (s.targets target).scan = .running number ∧ generation = (s.targets target).state.elim 1 (fun old => old.generation + 1) ∧
      keys.Perm (s.targets target).duringScan.entries ∧
      s' = s.set target
        { s.targets target with
          state := some (TreeState.new tree generation)
          duringScan := .empty
          scan := .replaying generation ((keys.filterMap fun e =>
            ((TreeState.new tree generation).resolve e.1).map fun node => (node, e.2)) ++ linked.map (·, none))
          installed := number } := by
  cases h with
  | relist target cooldown hphase hstate hr => exact .inr (.inl ⟨_, _, _, _, _, _, cooldown, hphase, hstate, hr, rfl⟩)
  | replace target tree hrun hg hkeys hlinked => exact .inr (.inr ⟨_, _, _, _, _, tree, hrun, hg, hkeys, rfl⟩)
  | @scan target hidle =>
    left
    refine quiet_scan (Nat.le_succ _) (fun _ _ h => by cases h) (fun number h => by cases h; rfl) fun node generation h => ?_
    obtain ⟨replay, hr, -⟩ := h
    rw [hidle] at hr
    cases hr
  | @fail target number hrun =>
    left
    refine quiet_scan le_rfl (fun _ _ h => by cases h) (fun number h => by cases h) fun node generation h => ?_
    obtain ⟨replay, hr, -⟩ := h
    rw [hrun] at hr
    cases hr
  | @replayed target generation hscan =>
    left
    refine quiet_scan le_rfl (fun _ _ h => by cases h) (fun number h => by cases h) fun node generation h => ?_
    obtain ⟨replay, hr, hn⟩ := h
    rw [hscan] at hr
    cases hr
    cases hn
  | signal target key who again now => exact .inl (quiet_signal s target key who again now)
  | look now hphase hdue => exact .inl (quiet_look now hphase hdue)
  | @absent due target hphase hnone =>
    -- what is let go was queued for a target without a tree
    left
    refine quiet_phase (fun _ _ _ h => by cases h) (not_follows hphase) fun t node queued hmem hsome => ?_
    rw [hphase] at hmem
    refine List.mem_filter.2 ⟨hmem, decide_eq_true fun ht => ?_⟩
    rw [show t = target from ht, hnone] at hsome
    cases hsome
  | requeue now hphase => exact .inl (quiet_requeue now hphase)
  | requeued hphase =>
    refine .inl (quiet_phase (fun _ _ _ h => by cases h) (fun t node generation h => ?_) fun t node queued hmem _ => by rwa [hphase] at hmem)
    obtain ⟨_, _, hp, hin⟩ := h
    rw [hphase] at hp
    cases hp
    cases hin
  | done hphase =>
    exact .inl (quiet_phase (fun _ _ _ h => by cases h) (not_follows hphase) fun t node queued hmem _ => by rwa [hphase] at hmem)
  | replay now hscan => exact .inl (quiet_replay now hscan)

theorem inv_start : Inv ({} : State Lookup) where
  drained _ _ h := by cases h
  requeued _ _ _ h := by cases h
  replayed _ _ _ h := by cases h

theorem Quiet.inv {queued : Option (Key × Nat)} (h : Quiet s queued s') (hinv : Inv s) : Inv s' where
  drained t st hst := hinv.drained t st ((h.state t).symm.trans hst)
  requeued due t requeue hphase e he := by
    obtain ⟨due', requeue', hphase', hsub⟩ := h.requeuing due t requeue hphase
    rw [h.state]
    exact hinv.requeued due' t requeue' hphase' e (hsub he)
  replayed t generation replay hscan := by
    obtain ⟨replay', hscan'⟩ := h.replaying t generation replay hscan
    rw [h.state]
    exact hinv.replayed t generation replay' hscan'

theorem drained_new (tree : DirTree) (generation : Nat) : (TreeState.new tree generation).tree.handles = [] := rfl

theorem Step.inv {queued : Option (Key × Nat)} (h : Step config s queued s') (hinv : Inv s) : Inv s' := by
  rcases h.cases with hq | ⟨due, target, st, st', reads, requeue, cooldown, hphase, hstate, hr, rfl⟩ |
    ⟨target, number, generation, keys, linked, tree, hrun, hg, -, rfl⟩
  · exact hq.inv hinv
  · have hrel := hr.relisted (hinv.drained target st hstate)
    refine ⟨fun t u hu => ?_, fun due' t requeue' hp e he => ?_, fun t generation replay hscan => ?_⟩
    · by_cases ht : t = target
      · subst ht
        rw [targets_set_self] at hu
        cases hu
        exact hrel.drained
      · rw [targets_set_of_ne _ _ ht] at hu
        exact hinv.drained t u hu
    · cases hp
      rw [targets_set_self]
      exact ⟨st', rfl, ((hrel.requeued e he).trans hrel.generation.symm).le⟩
    · by_cases ht : t = target
      · subst ht
        rw [targets_set_self] at hscan ⊢
        obtain ⟨u, hu, hle⟩ := hinv.replayed t generation replay hscan
        rw [hstate] at hu
        cases hu
        exact ⟨st', rfl, hle.trans hrel.generation.ge⟩
      · rw [targets_set_of_ne _ _ ht] at hscan ⊢
        exact hinv.replayed t generation replay hscan
  · have hgrows : ∀ u g, (s.targets target).state = some u → g ≤ u.generation → g ≤ generation := by
      intro u g hu hle
      rw [hg, hu]
      exact hle.trans (Nat.le_succ _)
    refine ⟨fun t u hu => ?_, fun due' t requeue' hp e he => ?_, fun t g replay hscan => ?_⟩
    · by_cases ht : t = target
      · subst ht
        rw [targets_set_self] at hu
        cases hu
        exact drained_new tree generation
      · rw [targets_set_of_ne _ _ ht] at hu
        exact hinv.drained t u hu
    · obtain ⟨u, hu, hle⟩ := hinv.requeued due' t requeue' hp e he
      by_cases ht : t = target
      · subst ht
        rw [targets_set_self]
        exact ⟨_, rfl, hgrows u e.2 hu hle⟩
      · rw [targets_set_of_ne _ _ ht]
        exact ⟨u, hu, hle⟩
    · by_cases ht : t = target
      · subst ht
        rw [targets_set_self] at hscan ⊢
        cases hscan
        exact ⟨_, rfl, le_rfl⟩
      · rw [targets_set_of_ne _ _ ht] at hscan ⊢
        exact hinv.replayed t g replay hscan

theorem Steps.inv (h : Steps config s s') (hinv : Inv s) : Inv s' := by
  induction h with
  | refl => exact hinv
  | tail _ hstep ih =>
    obtain ⟨queued, hstep⟩ := hstep
    exact hstep.inv ih

theorem notOlder_none (s : State Lookup) : NotOlder s none := fun _ _ h => by cases h

/-- A step that takes no directory up. -/
theorem readable_of_reads (h : s'.reads = s.reads) : Readable s s' := fun r hr => by
  rw [h, List.drop_length] at hr
  cases hr

/-! ## What a step makes of the directories waited for -/

theorem Cared.pursued {t generation node : Nat} (h : Cared s₀ s t generation node) : Pursued s₀ s t generation node := by
  rcases h with hawaits | ⟨parent, hgone, hparent⟩
  · exact .awaits hawaits
  · exact .gone hgone hparent

/-- Of one tree: what was found stays found, and what waits waits on, or has been taken up. -/
structure Carries (s₀ s s' : State Lookup) (t generation : Nat) : Prop where
  found : ∀ node taken, Found s₀ s t generation node taken → Found s₀ s' t generation node taken
  waits : ∀ node, s.Holds t node generation ∨ s.Replays t node generation → Cared s₀ s' t generation node ∨ s'.Dropped t node generation
  follows : ∀ node, s.Follows t node generation → Pursued s₀ s' t generation node
  dropped : ∀ node, s.Dropped t node generation → Pursued s₀ s' t generation node

namespace Carries

variable {t generation node : Nat}

theorem awaits (h : Carries s₀ s s' t generation) (ha : Awaits s₀ s t generation node) :
    Cared s₀ s' t generation node ∨ s'.Dropped t node generation := by
  rcases ha with hread | hsealed | hwaits
  · exact .inl (.inl (.inl (h.found _ _ hread)))
  · exact .inl (.inl (.inr (.inl (h.found _ _ hsealed))))
  · exact h.waits node hwaits

theorem pursued (h : Carries s₀ s s' t generation) (hp : Pursued s₀ s t generation node) : Pursued s₀ s' t generation node := by
  induction hp with
  | awaits ha => exact (h.awaits ha).elim Cared.pursued .dropped
  | follows hf => exact h.follows _ hf
  | dropped hd => exact h.dropped _ hd
  | gone hg _ ih => exact .gone (h.found _ _ hg) ih

theorem cared (h : Carries s₀ s s' t generation) (hc : Cared s₀ s t generation node) :
    Cared s₀ s' t generation node ∨ s'.Dropped t node generation := by
  rcases hc with hawaits | ⟨parent, hgone, hparent⟩
  · exact h.awaits hawaits
  · exact .inl (.inr ⟨parent, h.found _ _ hgone, h.pursued hparent⟩)

end Carries

theorem Quiet.carries {queued : Option (Key × Nat)} (h : Quiet s queued s') (hinv : Inv s) (hfresh : NotOlder s queued) {t : Nat}
    {st : TreeState} (hst : (s.targets t).state = some st) : Carries s₀ s s' t st.generation where
  found node taken hf := by
    unfold Found at *
    rw [h.reads]
    exact hf
  waits node hw := .inl (.inl (.inr (.inr (h.waits hinv hfresh t st node hst hw))))
  follows node hf := by
    rcases h.follows t node st.generation hf with hfollows | hholds
    · exact .follows hfollows
    · exact .awaits (.inr (.inr (.inl hholds)))
  dropped node hd := by
    obtain ⟨u, hu, hg, ha⟩ := hd
    exact .dropped ⟨u, (h.state t).trans hu, hg, ha⟩

theorem mem_drop_append {l l' : List Read} {n : Nat} {r : Read} (hn : n ≤ l.length) (h : r ∈ l.drop n ∨ r ∈ l') : r ∈ (l ++ l').drop n := by
  rw [List.drop_append_of_le_length hn]
  exact List.mem_append.2 h

/-- The state once a target's directories are re-read. -/
def State.afterRelist (s : State Lookup) (due : List (Key × Pending Lookup)) (t : Nat) (st st' : TreeState) (reads : List (Nat × Taken))
    (requeue : List (Nat × Nat)) (cooldown : Table Key Nat) : State Lookup :=
  ({ s with
      queue := { s.queue with cooldown := cooldown }
      phase := .requeuing (others due t) t requeue
      reads := s.reads ++ reads.map (Read.of t st.generation) } : State Lookup).set t { s.targets t with state := some st' }

/-- What re-reads of a target make of the directories waited for: one in hand is taken up, and a new one was walked. -/
theorem carries_relisted {due : List (Key × Pending Lookup)} {t : Nat} {st st' : TreeState} {reads : List (Nat × Taken)}
    {requeue : List (Nat × Nat)} {cooldown : Table Key Nat} (hreads : s₀.reads.length ≤ s.reads.length) (hphase : s.phase = .between due)
    (hstate : (s.targets t).state = some st) (hrel : Relisted st (nodesOf due t) st' reads requeue)
    (hok : ∀ r ∈ reads, r.2 ≠ .failed) {target : Nat} {u : TreeState} (hu : (s.targets target).state = some u) :
    Carries s₀ s (s.afterRelist due t st st' reads requeue cooldown) target u.generation := by
  have hfound : ∀ generation node taken, Found s₀ s target generation node taken →
      Found s₀ (s.afterRelist due t st st' reads requeue cooldown) target generation node taken := fun _ _ _ hf =>
    mem_drop_append hreads (.inl hf)
  have hnofollow : ∀ node, s.Follows target node u.generation →
      Pursued s₀ (s.afterRelist due t st st' reads requeue cooldown) target u.generation node := fun node hf =>
    absurd hf (not_follows hphase _ _ _)
  by_cases ht : target = t
  · subst ht
    obtain rfl : st = u := Option.some.inj (hstate.symm.trans hu)
    have hself : ((s.afterRelist due target st st' reads requeue cooldown).targets target) = { s.targets target with state := some st' } :=
      targets_set_self _ _ _
    have hnew : ∀ node taken, (node, taken) ∈ reads →
        Found s₀ (s.afterRelist due target st st' reads requeue cooldown) target st.generation node taken := fun node taken hm =>
      mem_drop_append hreads (.inr (List.mem_map.2 ⟨_, hm, rfl⟩))
    have hdead : ∀ node, (st'.tree.node node).alive = false →
        (s.afterRelist due target st st' reads requeue cooldown).Dropped target node st.generation := fun node ha =>
      ⟨st', by rw [hself], hrel.generation, ha⟩
    refine ⟨hfound st.generation, fun node hw => ?_, hnofollow, fun node hd => ?_⟩
    · rcases hw with ⟨queued, hg, hp | hmem⟩ | ⟨replay, hscan, hn⟩
      · exact .inl (.inl (.inr (.inr (.inl ⟨queued, hg, .inl hp⟩))))
      · rw [hphase] at hmem
        have hin : (node, queued) ∈ nodesOf due target :=
          List.mem_map.2 ⟨_, List.mem_filter.2 ⟨hmem, decide_eq_true rfl⟩, rfl⟩
        rcases hrel.took hok _ hin hg with hread | hsealed | ⟨p, hgone, hp⟩ | ha
        · exact .inl (.inl (.inl (hnew _ _ hread)))
        · exact .inl (.inl (.inr (.inl (hnew _ _ hsealed))))
        · exact .inl (.inr ⟨p, hnew _ _ hgone, .follows ⟨others due target, requeue, rfl, hp⟩⟩)
        · exact .inr (hdead _ ha)
      · refine .inl (.inl (.inr (.inr (.inr ⟨replay, ?_, hn⟩))))
        rw [hself]
        exact hscan
    · obtain ⟨u, hu', -, ha⟩ := hd
      obtain rfl : st = u := Option.some.inj (hstate.symm.trans hu')
      rcases hrel.toExtends.dead_or_new ha with hgone | ⟨hn, hlt⟩
      · exact .dropped (hdead _ hgone)
      · exact .awaits (.inl (hnew _ _ (hrel.walked node hn hlt)))
  · have hother : (s.afterRelist due t st st' reads requeue cooldown).targets target = s.targets target := targets_set_of_ne _ _ ht
    refine ⟨hfound u.generation, fun node hw => .inl (.inl (.inr (.inr ?_))), hnofollow, fun node hd => ?_⟩
    · rcases hw with ⟨queued, hg, hp | hmem⟩ | ⟨replay, hscan, hn⟩
      · exact .inl ⟨queued, hg, .inl hp⟩
      · rw [hphase] at hmem
        exact .inl ⟨queued, hg, .inr (List.mem_filter.2 ⟨hmem, decide_eq_true ht⟩)⟩
      · refine .inr ⟨replay, ?_, hn⟩
        rw [hother]
        exact hscan
    · obtain ⟨v, hv, hg, ha⟩ := hd
      exact .dropped ⟨v, by rw [hother]; exact hv, hg, ha⟩

/-! ## What a signal is owed -/

/-- What a signal at `s₀` is still owed at `s`. -/
structure Owed (s₀ s : State Lookup) (target : Nat) (key : StableKey) : Prop where
  kept : ∀ st node, (s.targets target).state = some st → st.resolve key = some node →
    Cared s₀ s target st.generation node ∨ (s₀.targets target).scans ≤ (s.targets target).installed
  /-- A scan that runs began after the signal, or has its key. -/
  running : ∀ number, (s.targets target).scan = .running number →
    (s₀.targets target).scans ≤ number ∨ ((s.targets target).duringScan.get key).isSome
  scans : (s₀.targets target).scans ≤ (s.targets target).scans
  reads : s₀.reads.length ≤ s.reads.length

variable {target : Nat} {key : StableKey}

theorem Owed.keeps (h : Owed s₀ s target key) : Kept s₀ s target key := fun st node hst hr =>
  (h.kept st node hst hr).imp_right .inr

theorem not_dropped {st : TreeState} (hst : (s.targets target).state = some st) {node : Nat} (hr : st.resolve key = some node) :
    ¬ s.Dropped target node st.generation := by
  rintro ⟨u, hu, -, ha⟩
  obtain rfl : st = u := Option.some.inj (hst.symm.trans hu)
  rw [Extends.alive_of_resolve hr] at ha
  cases ha

/-- A directory that is signalled waits, and a scan that runs has its key. -/
theorem owed_signal (s₀ : State Lookup) (target : Nat) (key : StableKey) (who again : Option Lookup) (now : Nat) :
    Owed s₀ (s₀.signal target key who again now) target key := by
  have hq := quiet_signal s₀ target key who again now
  have hqueue : (s₀.signal target key who again now).queue = s₀.signalled target key who now := by
    unfold State.signal
    dsimp only
    split <;> rfl
  refine ⟨fun st node hst hr => ?_, fun number hn => ?_, hq.scans target, hq.reads ▸ le_rfl⟩
  · rw [hq.state] at hst
    obtain ⟨held, hheld, hget⟩ := get_enqueue s₀.queue (target, node) now st.generation who
    refine .inl (.inl (.inr (.inr (.inl ⟨held, hheld, .inl ?_⟩))))
    rw [hqueue]
    unfold State.signalled
    rw [hst]
    dsimp only
    rw [hr]
    exact (hget _).trans (if_pos rfl)
  · right
    unfold State.signal at hn ⊢
    dsimp only at hn ⊢
    split at hn
    case h_1 n hrun =>
      rw [hrun]
      rw [targets_set_self, Table.get_put_self]
      rfl
    case h_2 hrest => exact absurd hn (hrest number)

theorem Quiet.owed {queued : Option (Key × Nat)} (h : Quiet s queued s') (hinv : Inv s) (hfresh : NotOlder s queued)
    (ho : Owed s₀ s target key) : Owed s₀ s' target key := by
  refine ⟨fun st node hst hr => ?_, fun number hn => ?_, ho.scans.trans (h.scans target), h.reads ▸ ho.reads⟩
  · have hnot := not_dropped hst hr
    rw [h.state] at hst
    rw [h.installed]
    exact (ho.kept st node hst hr).imp_left fun hc => ((h.carries hinv hfresh hst).cared hc).resolve_right hnot
  · rcases h.running target number hn with ⟨hrun, hkeys⟩ | rfl
    · exact (ho.running number hrun).imp_right (hkeys key)
    · exact .inl ho.scans

/-- What re-reads of a target make of what is owed. -/
theorem Owed.relisted {due : List (Key × Pending Lookup)} {t : Nat} {st st' : TreeState} {reads : List (Nat × Taken)}
    {requeue : List (Nat × Nat)} {cooldown : Table Key Nat} (ho : Owed s₀ s target key) (hphase : s.phase = .between due)
    (hstate : (s.targets t).state = some st) (hrel : Relisted st (nodesOf due t) st' reads requeue)
    (hok : ∀ r ∈ reads, r.2 ≠ .failed) : Owed s₀ (s.afterRelist due t st st' reads requeue cooldown) target key := by
  have hlen : s₀.reads.length ≤ (s.afterRelist due t st st' reads requeue cooldown).reads.length :=
    ho.reads.trans (List.sublist_append_left s.reads _).length_le
  have hcarries : ∀ u, (s.targets target).state = some u →
      Carries s₀ s (s.afterRelist due t st st' reads requeue cooldown) target u.generation := fun u hu =>
    carries_relisted ho.reads hphase hstate hrel hok hu
  by_cases ht : target = t
  · subst ht
    have hself : ((s.afterRelist due target st st' reads requeue cooldown).targets target) = { s.targets target with state := some st' } :=
      targets_set_self _ _ _
    refine ⟨fun u node hu hr => ?_, fun number hn => ?_, ?_, hlen⟩
    · have hnot := not_dropped hu hr
      rw [hself] at hu ⊢
      cases hu
      rw [hrel.generation] at hnot ⊢
      rcases hrel.resolve hr with hold | hnew
      · exact (ho.kept st node hstate hold).imp_left fun hc => ((hcarries st hstate).cared hc).resolve_right hnot
      · exact .inl (.inl (.inl (mem_drop_append ho.reads (.inr (List.mem_map.2
          ⟨_, hrel.walked node hnew (DirTree.lt_of_alive (Extends.alive_of_resolve hr)), rfl⟩)))))
    · rw [hself] at hn ⊢
      exact ho.running number hn
    · rw [hself]
      exact ho.scans
  · have hother : (s.afterRelist due t st st' reads requeue cooldown).targets target = s.targets target := targets_set_of_ne _ _ ht
    refine ⟨fun u node hu hr => ?_, fun number hn => ?_, ?_, hlen⟩
    · have hnot := not_dropped hu hr
      rw [hother] at hu ⊢
      exact (ho.kept u node hu hr).imp_left fun hc => ((hcarries u hu).cared hc).resolve_right hnot
    · rw [hother] at hn ⊢
      exact ho.running number hn
    · rw [hother]
      exact ho.scans

/-- A tree taken changes nothing of another target's. -/
theorem carries_replaced {t : Nat} {lt : LiveTarget Lookup} {target : Nat} (ht : target ≠ t) (generation : Nat) :
    Carries s₀ s (s.set t lt) target generation := by
  have hother : (s.set t lt).targets target = s.targets target := targets_set_of_ne _ _ ht
  refine ⟨fun node taken hf => hf, fun node hw => .inl (.inl (.inr (.inr ?_))), fun node hf => .follows hf, fun node hd => ?_⟩
  · rcases hw with hholds | ⟨replay, hscan, hn⟩
    · exact .inl hholds
    · exact .inr ⟨replay, by rw [hother]; exact hscan, hn⟩
  · obtain ⟨v, hv, hg, ha⟩ := hd
    exact .dropped ⟨v, by rw [hother]; exact hv, hg, ha⟩

/-- A tree taken: a key the scan had is to be replayed. -/
theorem Owed.replaced {t number generation : Nat} {keys : List (StableKey × Option Lookup)} {linked : List Nat} {tree : DirTree}
    (ho : Owed s₀ s target key) (hrun : (s.targets t).scan = .running number) (hkeys : keys.Perm (s.targets t).duringScan.entries) :
    Owed s₀ (s.set t
      { s.targets t with
        state := some (TreeState.new tree generation)
        duringScan := .empty
        scan := .replaying generation ((keys.filterMap fun e =>
          ((TreeState.new tree generation).resolve e.1).map fun node => (node, e.2)) ++ linked.map (·, none))
        installed := number }) target key := by
  by_cases ht : target = t
  · subst ht
    refine ⟨fun u node hu hr => ?_, fun n hn => ?_, ?_, ho.reads⟩
    · rw [targets_set_self] at hu ⊢
      cases hu
      rcases ho.running number hrun with hle | hheld
      · exact .inr hle
      · obtain ⟨who, hwho⟩ := Option.isSome_iff_exists.1 hheld
        refine .inl (.inl (.inr (.inr (.inr ⟨_, by rw [targets_set_self]; rfl, ?_⟩))))
        rw [List.map_append]
        refine List.mem_append_left _ (List.mem_map.2 ⟨(node, who), List.mem_filterMap.2 ⟨(key, who), ?_, ?_⟩, rfl⟩)
        · exact hkeys.mem_iff.2 (Table.get_eq_some.1 hwho)
        · rw [hr]
          rfl
    · rw [targets_set_self] at hn
      cases hn
    · rw [targets_set_self]
      exact ho.scans
  · refine ⟨fun u node hu hr => ?_, fun n hn => ?_, ?_, ho.reads⟩
    · have hnot := not_dropped hu hr
      rw [targets_set_of_ne _ _ ht] at hu ⊢
      exact (ho.kept u node hu hr).imp_left fun hc => ((carries_replaced ht u.generation).cared hc).resolve_right hnot
    · rw [targets_set_of_ne _ _ ht] at hn ⊢
      exact ho.running n hn
    · rw [targets_set_of_ne _ _ ht]
      exact ho.scans

theorem Step.owed {queued : Option (Key × Nat)} (h : Step config s queued s') (hinv : Inv s) (hfresh : NotOlder s queued)
    (hread : Readable s s') (ho : Owed s₀ s target key) : Owed s₀ s' target key := by
  rcases h.cases with hq | ⟨due, t, st, st', reads, requeue, cooldown, hphase, hstate, hr, rfl⟩ |
    ⟨t, number, generation, keys, linked, tree, hrun, -, hkeys, rfl⟩
  · exact hq.owed hinv hfresh ho
  · refine ho.relisted hphase hstate (hr.relisted (hinv.drained t st hstate)) fun r hr => ?_
    refine hread (Read.of t st.generation r) ?_
    rw [show (State.set _ t _).reads = s.reads ++ reads.map (Read.of t st.generation) from rfl, List.drop_left]
    exact List.mem_map_of_mem hr
  · exact ho.replaced hrun hkeys

theorem FreshSteps.owed (h : FreshSteps config s s') (hinv : Inv s) (ho : Owed s₀ s target key) : Inv s' ∧ Owed s₀ s' target key := by
  induction h with
  | refl => exact ⟨hinv, ho⟩
  | tail _ hstep ih =>
    obtain ⟨queued, hstep, hfresh, hread⟩ := hstep
    exact ⟨hstep.inv ih.1, hstep.owed ih.1 hfresh hread ih.2⟩

end Steps

/-- A re-read of `/d/b` that finds it emptied. -/
def clearedAnswers : Answers where
  byHandle := false
  opened := .ok (holdingStat, { entries := [], fail := none })
  dirHandle _ := none
  walk _ := none

/-- A signal is lost when its directory neither waits nor was read, and no scan runs. -/
theorem not_kept {s₀ s : State Nat} {target node : Nat} {key : StableKey} {st : TreeState} (hst : (s.targets target).state = some st)
    (hr : st.resolve key = some node) (hfound : ∀ taken, Found s₀ s target st.generation node taken → taken = .failed)
    (hholds : ¬ s.Holds target node st.generation) (hidle : (s.targets target).scan = .idle)
    (hnew : (s.targets target).installed < (s₀.targets target).scans) : ¬ Kept s₀ s target key := by
  intro hkept
  rcases hkept st node hst hr with ((hread | hsealed | hin | ⟨replay, hscan, -⟩) | ⟨parent, hgone, -⟩) | ⟨number, hscan, -⟩ | hle
  · cases hfound _ hread
  · cases hfound _ hsealed
  · exact hholds hin
  · rw [hidle] at hscan
    cases hscan
  · cases hfound _ hgone
  · rw [hidle] at hscan
    cases hscan
  · omega

/-- Too many files are open. -/
def crowdedAnswers : Answers where
  byHandle := false
  opened := .error (.other 24)
  dirHandle _ := none
  walk _ := none

/-- Its signal is dropped, though it is there and nothing queues for an older tree. -/
theorem unreadable_dropped : ∃ s₀ s₁ : State Nat, Steps (fun _ => smallTarget) {} s₀ ∧
    Steps (fun _ => smallTarget) (s₀.signal 0 (.ino 3) none none 0) s₁ ∧ ¬ Kept s₀ s₁ 0 (.ino 3) := by
  have h1 : Steps (fun _ => smallTarget) ({} : State Nat) _ := .single ⟨_, .scan 0 rfl⟩
  have h2 := h1.tail ⟨_, .replace 0 holdingTree rfl rfl (List.Perm.refl _) (List.Perm.refl _)⟩
  have h3 := h2.tail ⟨_, .replayed 0 rfl⟩
  have hstart : ∀ {s : State Nat}, Steps (fun _ => smallTarget) {} s →
      Steps (fun _ => smallTarget) (s.signal 0 (.ino 3) none none 0) (s.signal 0 (.ino 3) none none 0) := fun _ => .refl
  have h4 := (hstart h3).tail ⟨_, .look Engine.settle rfl (List.Perm.refl _)⟩
  have h5 := h4.tail ⟨_, .relist 0 .empty rfl rfl (.relist crowdedAnswers 0 rfl rfl (.nil _))⟩
  refine ⟨_, _, h3, h5, @not_kept _ _ 0 1 _ _ rfl rfl (fun taken hf => ?_) ?_ rfl (by decide)⟩
  · cases List.mem_singleton.1 hf
    rfl
  · rintro ⟨queued, -, hp | hmem⟩
    · cases hp
    · cases hmem

/-! ## A follow-up that comes late -/

/-- A directory that cannot be opened any more. -/
def goneAnswers : Answers where
  byHandle := false
  opened := .error .enoent
  dirHandle _ := none
  walk _ := none

/-- A second scan's tree is taken before `relist_all` queues what its re-read asked for: the root signalled then is queued
for the first one. -/
theorem late_followup : ∃ s₀ s₁ : State Nat, Steps (fun _ => smallTarget) {} s₀ ∧
    Steps (fun _ => smallTarget) (s₀.signal 0 (.ino 2) none none 0) s₁ ∧
    (s₁.targets 0).state = some (TreeState.new holdingTree 2) ∧ s₁.reads.drop s₀.reads.length = [] ∧
    s₁.queue.pending.entries = [((0, 0), ⟨1, none⟩)] ∧ s₁.phase = .requeuing [] 0 [] ∧ (s₁.targets 0).scan = .idle ∧
    (s₀.targets 0).scans = 2 ∧ (s₁.targets 0).installed = 1 := by
  have h1 : Steps (fun _ => smallTarget) ({} : State Nat) _ := .single ⟨_, .scan 0 rfl⟩
  have h2 := h1.tail ⟨_, .replace 0 holdingTree rfl rfl (List.Perm.refl _) (List.Perm.refl _)⟩
  have h3 := h2.tail ⟨_, .replayed 0 rfl⟩
  have h4 := h3.tail ⟨_, .signal 0 (.ino 3) none none 0⟩
  have h5 := h4.tail ⟨_, .look Engine.settle rfl (List.Perm.refl _)⟩
  have h6 := h5.tail ⟨_, .relist 0 .empty rfl rfl (.relist goneAnswers 0 rfl rfl (.nil _))⟩
  have h7 := h6.tail ⟨_, .scan 0 rfl⟩
  have h8 := h7.tail ⟨_, .replace 0 holdingTree rfl rfl (List.Perm.refl _) (List.Perm.refl _)⟩
  have h9 := h8.tail ⟨_, .replayed 0 rfl⟩
  have hstart : ∀ {s : State Nat}, Steps (fun _ => smallTarget) {} s →
      Steps (fun _ => smallTarget) (s.signal 0 (.ino 2) none none 0) (s.signal 0 (.ino 2) none none 0) := fun _ => .refl
  have h10 := (hstart h9).tail ⟨_, .requeue 0 rfl⟩
  exact ⟨_, _, h9, h10, rfl, rfl, rfl, rfl, rfl, rfl, rfl⟩

end Signals

end StorageHarvester
