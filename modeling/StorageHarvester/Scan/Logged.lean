/-
Everything a walk counts, noted entry by entry beside it. Whichever worker reads which directory, a
tracked directory's tally adds up what was noted in it and in the untracked directories below it, up to
the limit, and so its total adds up what was noted at and below it.
-/
import StorageHarvester.Scan.Fresh
import StorageHarvester.Scan.Visits

namespace StorageHarvester

open Forest
open WorkPool (Bag BagReachable)

namespace Walk

/-! ## What an entry counts -/

/-- An entry that reading a directory counts. -/
structure Tallied where
  job : Job
  name : Bytes
  stat : Stat
  /-- A subdirectory of a tracked directory that gets no node, for the cap. -/
  refused : Bool

/-- What an entry adds to its directory's tally. The size of a multiply linked file is added after the
walk. -/
def Tallied.amount (r : Tallied) : Component → Nat
  | .files => if r.stat.kind = .file ∨ r.stat.kind = .other then 1 else 0
  | .dirs => if r.stat.kind = .directory then 1 else 0
  | .symlinks => if r.stat.kind = .symlink then 1 else 0
  | .blocks => if r.stat.kind ≠ .directory ∧ 1 < r.stat.nlink then 0 else r.stat.blocks
  | .apparent => if r.stat.kind ≠ .directory ∧ 1 < r.stat.nlink then 0 else r.stat.size

/-- A subdirectory that gets a node of its own. -/
def Tallied.kept (r : Tallied) : Bool := r.job.tracked && r.stat.kind = .directory && !r.refused

/-- The entry counted when `tracked` directories were offered a node before, if it is counted. -/
def tallies (w : Walk) (job : Job) (e : Entry) (tracked : Nat) : List Tallied :=
  if isDot e.name || w.excludes job e.name then []
  else match e.stat with
    | .error _ => []
    | .ok stat =>
      if w.target.noCrossFilesystem && stat.dev ≠ w.rootDev then []
      else [⟨job, e.name, stat, job.tracked && stat.kind = .directory && !w.keeps (job.depth + 1) tracked⟩]

/-- What the next step of a directory counts. -/
def Progress.tallies (w : Walk) (tracked : Nat) : Progress → List Tallied
  | .opening _ => []
  | .reading p => match p.left with
    | [] => []
    | e :: _ => w.tallies p.job e tracked

theorem tallies_reading (w : Walk) {p : InDir} {e : Entry} {rest : List Entry} (hl : p.left = e :: rest) (k : Nat) :
    (Progress.reading p).tallies w k = w.tallies p.job e k := by
  simp only [Progress.tallies, hl]

/-- What some entries add up to. -/
def amounts (log : List Tallied) (c : Component) : Nat := (log.map fun r => r.amount c).sum

theorem amounts_append (log log' : List Tallied) (c : Component) : amounts (log ++ log') c = amounts log c + amounts log' c := by
  simp [amounts]

/-- What reading an entry does with what it counts. -/
structure EntryTallied (p p' : InDir) (e : Entry) (new : List Tallied) : Prop where
  at_ : ∀ r ∈ new, r.job = p.job ∧ r.name = e.name ∧ isDot e.name = false
  one : new.length ≤ 1
  refused : ∀ r ∈ new, r.refused = true → r.stat.kind = .directory ∧ p.job.tracked = true
  sums : ∀ c, min (p'.sums.get c) u64Max = min (p.sums.get c + amounts new c) u64Max
  pending : p'.pending.map PendingDir.name = p.pending.map PendingDir.name ++ (new.filter Tallied.kept).map Tallied.name
  /-- A subdirectory without a node is read under its name. -/
  children : ∀ c ∈ p'.children, c ∈ p.children ∨ ∃ r ∈ new, (p.job.tracked = true → r.refused = true) ∧
    c = ⟨childPath p.job.path r.name, p.job.depth + 1, p.job.node, false⟩

theorem readEntry_tallied (w : Walk) (e : Entry) (p : InDir) (d : Worker) (k : Nat) :
    EntryTallied p (w.readEntry e p d k).1 e (w.tallies p.job e k) := by
  have hnone : ∀ q : InDir, q.sums = p.sums → q.pending = p.pending → q.children = p.children → EntryTallied p q e [] := by
    intro q hs hp hc
    refine ⟨fun r hr => absurd hr List.not_mem_nil, Nat.zero_le _, fun r hr => absurd hr List.not_mem_nil, fun c => ?_, ?_, fun c h => ?_⟩
    · rw [hs]; rfl
    · simp [hp]
    · exact .inl (hc ▸ h)
  unfold readEntry tallies
  by_cases hdot : isDot e.name = true
  · rw [if_pos hdot, if_pos (by simp [hdot])]
    exact hnone p rfl rfl rfl
  rw [if_neg hdot]
  by_cases hx : w.excludes p.job e.name = true
  · rw [if_pos hx, if_pos (by simp [hx])]
    exact hnone _ rfl rfl rfl
  rw [if_neg hx, if_neg (by simp [hdot, hx])]
  cases e.stat with
  | error err =>
    dsimp only
    split
    · exact hnone _ rfl rfl rfl
    · exact hnone _ rfl rfl rfl
  | ok stat =>
    dsimp only
    by_cases hdev : (w.target.noCrossFilesystem && decide (stat.dev ≠ w.rootDev)) = true
    · rw [if_pos hdev, if_pos hdev]
      exact hnone _ rfl rfl rfl
    rw [if_neg hdev, if_neg hdev]
    rw [Bool.not_eq_true] at hdot
    generalize hf : (p.job.tracked && decide (stat.kind = .directory) && !w.keeps (p.job.depth + 1) k) = refused
    have hflag : refused = true ↔ (p.job.tracked = true ∧ stat.kind = .directory) ∧ w.keeps (p.job.depth + 1) k = false := by
      rw [← hf, Bool.and_eq_true, Bool.and_eq_true, decide_eq_true_iff, Bool.not_eq_true']
    have hnew : ∀ {P : Tallied → Prop}, P ⟨p.job, e.name, stat, refused⟩ → ∀ r ∈ [(⟨p.job, e.name, stat, refused⟩ : Tallied)], P r :=
      fun h r hr => by rw [List.mem_singleton.1 hr]; exact h
    have hamount : ∀ c, amounts [⟨p.job, e.name, stat, refused⟩] c = Tallied.amount ⟨p.job, e.name, stat, refused⟩ c :=
      fun c => by simp [amounts]
    have hentry : ∀ q : InDir, (∀ c, min (q.sums.get c) u64Max = min (p.sums.get c + Tallied.amount ⟨p.job, e.name, stat, refused⟩ c) u64Max) →
        q.pending.map PendingDir.name = p.pending.map PendingDir.name ++
          (([⟨p.job, e.name, stat, refused⟩] : List Tallied).filter Tallied.kept).map Tallied.name →
        (∀ c ∈ q.children, c ∈ p.children ∨ (p.job.tracked = true → refused = true) ∧
          c = ⟨childPath p.job.path e.name, p.job.depth + 1, p.job.node, false⟩) →
        EntryTallied p q e [⟨p.job, e.name, stat, refused⟩] := fun q hsums hpending hchildren =>
      ⟨hnew ⟨rfl, rfl, hdot⟩, le_rfl, hnew fun h => (hflag.1 h).1.symm, fun c => by rw [hamount]; exact hsums c, hpending,
        fun c hc => (hchildren c hc).imp id fun h => ⟨_, List.mem_singleton_self _, h⟩⟩
    have hfile : ∀ (q : InDir) (d' : Worker), stat.kind ≠ .directory → q.sums = p.sums → q.pending = p.pending → q.children = p.children →
        EntryTallied p (w.readFile e stat q d').1 e [⟨p.job, e.name, stat, refused⟩] := by
      intro q d' hk hs hp hc
      refine hentry _ (fun c => ?_) ?_ fun c h => .inl (hc ▸ h)
      · unfold readFile
        dsimp only
        rw [hs, Tally.capped_get_addSize]
        by_cases hl : 1 < stat.nlink
        · cases hkind : stat.kind <;> cases c <;> simp [Tally.get, sizeAt, Tallied.amount, hkind, hl] at hk ⊢
        · cases hkind : stat.kind <;> cases c <;> simp [Tally.get, sizeAt, Tallied.amount, hkind, hl] at hk ⊢
      · show q.pending.map PendingDir.name = _
        rw [hp, List.filter_cons_of_neg (by simp [Tallied.kept, hk])]
        simp
    cases hk : stat.kind with
    | directory =>
      have hsums : ∀ c, min (({ p.sums with dirs := p.sums.dirs + 1 }.addSize stat.blocks stat.size).get c) u64Max =
          min (p.sums.get c + Tallied.amount ⟨p.job, e.name, stat, refused⟩ c) u64Max := by
        intro c
        rw [Tally.capped_get_addSize]
        cases c <;> simp [Tally.get, sizeAt, Tallied.amount, hk]
      have hchild : (p.job.tracked = true → refused = true) →
          ∀ c ∈ p.children ++ [Job.mk (childPath p.job.path e.name) (p.job.depth + 1) p.job.node false],
            c ∈ p.children ∨ (p.job.tracked = true → refused = true) ∧
              c = ⟨childPath p.job.path e.name, p.job.depth + 1, p.job.node, false⟩ := by
        intro ht c hc
        rcases List.mem_append.1 hc with hc | hc
        · exact .inl hc
        · exact .inr ⟨ht, List.mem_singleton.1 hc⟩
      have hnot : (p.job.tracked = true → refused = true) → p.pending.map PendingDir.name = p.pending.map PendingDir.name ++
          (([⟨p.job, e.name, stat, refused⟩] : List Tallied).filter Tallied.kept).map Tallied.name := by
        intro ht
        have hkept : Tallied.kept ⟨p.job, e.name, stat, refused⟩ = false := by
          unfold Tallied.kept
          cases htr : p.job.tracked with
          | false => rfl
          | true => simp [ht htr]
        rw [List.filter_cons_of_neg (by rw [hkept]; exact Bool.false_ne_true)]
        simp
      unfold readSubdir
      dsimp only
      by_cases ht : p.job.tracked = true
      · rw [if_pos ht]
        by_cases hkeeps : w.keeps (p.job.depth + 1) k = true
        · -- the subdirectory gets a node
          have hfalse : refused = false := by
            rw [← Bool.not_eq_true]
            exact fun h => Bool.false_ne_true ((hflag.1 h).2.symm.trans hkeeps)
          rw [if_pos hkeeps]
          refine hentry _ hsums ?_ fun c hc => .inl hc
          simp [Tallied.kept, ht, hk, hfalse]
        · have htrue : p.job.tracked = true → refused = true := fun _ => hflag.2 ⟨⟨ht, hk⟩, by simpa using hkeeps⟩
          rw [if_neg hkeeps]
          split
          · exact hentry _ hsums (hnot htrue) (hchild htrue)
          · exact hentry _ hsums (hnot htrue) fun c hc => .inl hc
      · rw [if_neg ht]
        split
        · exact hentry _ hsums (hnot fun h => absurd h ht) (hchild fun h => absurd h ht)
        · exact hentry _ hsums (hnot fun h => absurd h ht) fun c hc => .inl hc
    | file => exact hfile { p with newest := max p.newest stat.mtime } d (by rw [hk]; decide) rfl rfl rfl
    | symlink => exact hfile { p with newest := max p.newest stat.mtime } d (by rw [hk]; decide) rfl rfl rfl
    | other => exact hfile { p with newest := max p.newest stat.mtime } d (by rw [hk]; decide) rfl rfl rfl

/-! ## The log -/

/-- Every entry counted. -/
abbrev logger : Tracer (List Tallied) where
  first := []
  record := fun w p tracked log => log ++ p.tallies w tracked

/-- The states of a walk's bag of jobs, each with every entry counted on the way to it. -/
abbrev Logging (w : Walk) (host : Host) {n : Nat} (data : Fin (n + 1) → Worker) (root : TrackedNode) :
    Bag n Job Progress Worker Shared → List Tallied → Prop :=
  Tracing logger w host data root

/-! ## What the workers have gathered -/

/-- What was noted in the directory of a node, or in the untracked directories below it. -/
def noted (log : List Tallied) (node : Nat) (direct : Bool) : List Tallied :=
  log.filter fun r => r.job.node = node ∧ r.job.tracked = direct

/-- What the directory being read has gathered for a part of a node's tally. -/
def gathered (node : Nat) (direct : Bool) (c : Component) : Option (Job × Progress) → Nat
  | some (_, .reading p) => if p.job.node = node ∧ p.job.tracked = direct then p.sums.get c else 0
  | _ => 0

/-- The workers' tallies and the directories being read hold what was noted. -/
def Summed {n : Nat} (b : Bag n Job Progress Worker Shared) (log : List Tallied) : Prop :=
  ∀ node direct c, min (∑ i, (((b.data i).tallies node).part direct).get c + ∑ i, gathered node direct c (b.active i)) u64Max =
    min (amounts (noted log node direct) c) u64Max

theorem part_tallied (p : InDir) (d : Worker) (node : Nat) (direct : Bool) (c : Component) :
    min ((((p.tallied d).tallies node).part direct).get c) u64Max =
      min (((d.tallies node).part direct).get c + if p.job.node = node ∧ p.job.tracked = direct then p.sums.get c else 0) u64Max := by
  unfold InDir.tallied
  simp only
  rw [Function.update_apply]
  by_cases hn : node = p.job.node
  · subst hn
    rw [if_pos rfl]
    unfold NodeTally.modifyPart NodeTally.part
    cases ht : p.job.tracked <;> cases direct <;> simp [Tally.capped_get_add]
  · rw [if_neg hn, if_neg fun h => hn h.1.symm, Nat.add_zero]

theorem noted_append (log log' : List Tallied) (node : Nat) (direct : Bool) :
    noted (log ++ log') node direct = noted log node direct ++ noted log' node direct := List.filter_append ..

/-- What one step notes, it notes in its own directory. -/
theorem amounts_noted {new : List Tallied} {job : Job} (h : ∀ r ∈ new, r.job = job) (node : Nat) (direct : Bool) (c : Component) :
    amounts (noted new node direct) c = if job.node = node ∧ job.tracked = direct then amounts new c else 0 := by
  unfold noted
  by_cases hj : job.node = node ∧ job.tracked = direct
  · rw [if_pos hj, List.filter_eq_self.2 fun r hr => by rw [h r hr]; simpa using hj]
  · rw [if_neg hj, List.filter_eq_nil_iff.2 fun r hr => by rw [h r hr]; simpa using hj]
    rfl

section Sums

variable {n : Nat} {w : Walk} {kernel : Kernel} {b : Bag n Job Progress Worker Shared} {log : List Tallied} {i : Fin (n + 1)}

theorem gathered_update (active : Fin (n + 1) → Option (Job × Progress)) (i : Fin (n + 1)) (a : Option (Job × Progress)) (node : Nat)
    (direct : Bool) (c : Component) :
    ∑ j, gathered node direct c (Function.update active i a j) + gathered node direct c (active i) =
      ∑ j, gathered node direct c (active j) + gathered node direct c a := Bag.sum_update (gathered node direct c) active i a

theorem part_update (data : Fin (n + 1) → Worker) (i : Fin (n + 1)) (d : Worker) (node : Nat) (direct : Bool) (c : Component) :
    ∑ j, (((Function.update data i d j).tallies node).part direct).get c + (((data i).tallies node).part direct).get c =
      ∑ j, (((data j).tallies node).part direct).get c + ((d.tallies node).part direct).get c :=
  Bag.sum_update (fun d : Worker => ((d.tallies node).part direct).get c) data i d

theorem le_gathered (active : Fin (n + 1) → Option (Job × Progress)) (i : Fin (n + 1)) (node : Nat) (direct : Bool) (c : Component) :
    gathered node direct c (active i) ≤ ∑ j, gathered node direct c (active j) :=
  Finset.single_le_sum (f := fun j => gathered node direct c (active j)) (fun _ _ => Nat.zero_le _) (Finset.mem_univ i)

theorem Summed.start (h : Summed b log) {job : Job} {rest : Multiset Job} (hi : b.active i = none) :
    Summed { b with pending := rest, active := Function.update b.active i (some (job, .opening job)) } log := by
  intro node direct c
  have hsum := gathered_update b.active i (some (job, .opening job)) node direct c
  rw [hi] at hsum
  have hsum : ∑ j, gathered node direct c (Function.update b.active i (some (job, .opening job)) j) =
      ∑ j, gathered node direct c (b.active j) := hsum
  show min (_ + ∑ j, gathered node direct c (Function.update b.active i (some (job, .opening job)) j)) _ = _
  rw [hsum]
  exact h node direct c

theorem Summed.more (h : Summed b log) {job : Job} {p p' : Progress} {d' : Worker} {s' : Shared} {interrupted : Bool}
    (hi : b.active i = some (job, p)) (ht : ReadStep w kernel interrupted p (b.data i) b.shared (.more p' d' s')) :
    Summed { b with active := Function.update b.active i (some (job, p')), data := Function.update b.data i d', shared := s' }
      (log ++ p.tallies w b.shared.tracked) := by
  intro node direct c
  have hsum := gathered_update b.active i (some (job, p')) node direct c
  have hdata := part_update b.data i d' node direct c
  have hold := h node direct c
  rw [hi] at hsum
  have hstep : d'.tallies = (b.data i).tallies ∧ min (gathered node direct c (some (job, p'))) u64Max =
      min (gathered node direct c (some (job, p)) + amounts (noted (p.tallies w b.shared.tracked) node direct) c) u64Max := by
    cases ht with
    | @opened job' reading _ _ hr =>
      refine ⟨rfl, ?_⟩
      show min (ite _ ((({} : Tally)).get c) 0) _ = min (0 + 0) _
      rw [Tally.get_default, ite_self, Nat.add_zero]
    | @entry p₀ e rest _ _ hl hi' =>
      have hkept := readEntry_kept w e { p₀ with left := rest } (b.data i) b.shared.tracked
      have htallied := readEntry_tallied w e { p₀ with left := rest } (b.data i) b.shared.tracked
      refine ⟨hkept.tallies, ?_⟩
      rw [tallies_reading w hl, amounts_noted fun r hr => (htallied.at_ r hr).1]
      show min (ite (_ ∧ _) _ _) _ = min (ite (_ ∧ _) _ _ + _) _
      rw [hkept.job]
      by_cases hj : p₀.job.node = node ∧ p₀.job.tracked = direct
      · rw [if_pos hj, if_pos hj, if_pos hj]
        exact htallied.sums c
      · rw [if_neg hj, if_neg hj, if_neg hj]
  rw [hstep.1] at hdata
  have hdata : ∑ j, (((Function.update b.data i d' j).tallies node).part direct).get c = ∑ j, (((b.data j).tallies node).part direct).get c :=
    Nat.add_right_cancel hdata
  have hle : gathered node direct c (some (job, p)) ≤ ∑ j, gathered node direct c (b.active j) := hi ▸ le_gathered b.active i node direct c
  rw [noted_append, amounts_append]
  show min (∑ j, (((Function.update b.data i d' j).tallies node).part direct).get c +
    ∑ j, gathered node direct c (Function.update b.active i (some (job, p')) j)) u64Max = _
  rw [hdata]
  generalize ∑ j, (((b.data j).tallies node).part direct).get c = total at *
  generalize ∑ j, gathered node direct c (Function.update b.active i (some (job, p')) j) = after at *
  generalize ∑ j, gathered node direct c (b.active j) = before at *
  omega

theorem Summed.done (h : Summed b log) {job : Job} {p : Progress} {children : List Job} {d' : Worker} {s' : Shared}
    {interrupted : Bool} (hi : b.active i = some (job, p))
    (ht : ReadStep w kernel interrupted p (b.data i) b.shared (.done children d' s')) :
    Summed ⟨b.pending + children, Function.update b.active i none, Function.update b.data i d', s'⟩ log := by
  intro node direct c
  have hsum := gathered_update b.active i none node direct c
  have hdata := part_update b.data i d' node direct c
  have hold := h node direct c
  rw [hi] at hsum
  have hstep : min (((d'.tallies node).part direct).get c) u64Max =
      min ((((b.data i).tallies node).part direct).get c + gathered node direct c (some (job, p))) u64Max := by
    cases ht with
    | unopened hr htol => rfl
    | closed hl hf => exact part_tallied _ _ node direct c
    | closedEarly hl hf htol => exact part_tallied _ _ node direct c
  have hnone : gathered node direct c none = 0 := rfl
  have hpart : (((b.data i).tallies node).part direct).get c ≤ ∑ j, (((b.data j).tallies node).part direct).get c :=
    Finset.single_le_sum (f := fun j => (((b.data j).tallies node).part direct).get c) (fun _ _ => Nat.zero_le _) (Finset.mem_univ i)
  have hle : gathered node direct c (some (job, p)) ≤ ∑ j, gathered node direct c (b.active j) := hi ▸ le_gathered b.active i node direct c
  show min (∑ j, (((Function.update b.data i d' j).tallies node).part direct).get c +
    ∑ j, gathered node direct c (Function.update b.active i none j)) u64Max = _
  generalize ∑ j, (((Function.update b.data i d' j).tallies node).part direct).get c = grown at *
  generalize ∑ j, gathered node direct c (Function.update b.active i none j) = after at *
  generalize ∑ j, gathered node direct c (b.active j) = before at *
  omega

theorem Logging.summed {host : Host} {data : Fin (n + 1) → Worker} {root : TrackedNode} (hd : ∀ i k, (data i).tallies k = {})
    (h : Logging w host data root b log) : Summed b log := by
  induction h with
  | initial =>
    intro node direct c
    have hzero : ∀ i, (((data i).tallies node).part direct).get c = 0 := fun i => by
      rw [hd]
      cases direct <;> exact Tally.get_default c
    show min (∑ i, (((data i).tallies node).part direct).get c + ∑ _i, 0) u64Max = _
    rw [Finset.sum_eq_zero fun i _ => hzero i, Finset.sum_const_zero]
    rfl
  | start h hi hj ih => exact ih.start hi
  | more h hi ht ih => exact ih.more hi ht
  | done h hi ht ih => exact ih.done hi ht

end Sums

/-! ## Totals -/

theorem capped_sum {s : Finset Nat} {f g : Nat → Nat} (h : ∀ j ∈ s, min (f j) u64Max = min (g j) u64Max) :
    min (∑ j ∈ s, f j) u64Max = min (∑ j ∈ s, g j) u64Max := by
  induction s using Finset.induction_on with
  | empty => rfl
  | insert a s ha ih =>
    have hone := h a (Finset.mem_insert_self a s)
    have hrest := ih fun j hj => h j (Finset.mem_insert_of_mem hj)
    rw [Finset.sum_insert ha, Finset.sum_insert ha]
    omega

/-- A sum over some keys adds up what is on record under them. -/
theorem sum_keys {α : Type*} (key weight : α → Nat) (P : Nat → Prop) [DecidablePred P] {n : Nat} : ∀ {l : List α}, (∀ x ∈ l, key x < n) →
    (∑ j ∈ Finset.range n, if P j then ((l.filter fun x => key x = j).map weight).sum else 0) =
      ((l.filter fun x => P (key x)).map weight).sum
  | [], _ => by simp
  | x :: l, h => by
    have ih := sum_keys key weight P fun y hy => h y (List.mem_cons_of_mem x hy)
    have hsplit : ∀ j, (if P j then (((x :: l).filter fun y => key y = j).map weight).sum else 0) =
        (if key x = j then if P j then weight x else 0 else 0) + if P j then ((l.filter fun y => key y = j).map weight).sum else 0 := by
      intro j
      by_cases hk : key x = j <;> by_cases hP : P j <;> simp [hk, hP]
    have hone : (∑ j ∈ Finset.range n, if key x = j then if P j then weight x else 0 else 0) = if P (key x) then weight x else 0 := by
      rw [Finset.sum_ite_eq, if_pos (Finset.mem_range.2 (h x (List.mem_cons_self ..)))]
    rw [Finset.sum_congr rfl fun j _ => hsplit j, Finset.sum_add_distrib, hone, ih]
    by_cases hP : P (key x) <;> simp [hP]

/-- What was noted for a node, directly or below. -/
theorem amounts_both (log : List Tallied) (node : Nat) (c : Component) :
    amounts (noted log node true) c + amounts (noted log node false) c =
      ((log.filter fun r => r.job.node = node).map fun r => r.amount c).sum := by
  induction log with
  | nil => rfl
  | cons r log ih =>
    unfold noted amounts at ih ⊢
    by_cases hn : r.job.node = node
    · cases ht : r.job.tracked with
      | true =>
        simp [hn, ht] at ih ⊢
        omega
      | false =>
        simp [hn, ht] at ih ⊢
        omega
    · simpa [List.filter_cons, hn] using ih

theorem wonIn_both (winners : List (Inode × Nat × Link)) (node : Nat) (c : Component) :
    wonIn winners node true c + wonIn winners node false c =
      ((winners.filter fun e => e.2.2.node = node).map fun e => sizeAt e.2.2.blocks e.2.2.apparent c).sum := by
  induction winners with
  | nil => rfl
  | cons e winners ih =>
    unfold wonIn at ih ⊢
    by_cases hn : e.2.2.node = node
    · cases hd : e.2.2.direct with
      | true =>
        simp [hn, hd] at ih ⊢
        omega
      | false =>
        simp [hn, hd] at ih ⊢
        omega
    · simpa [List.filter_cons, hn] using ih

section Finished

variable {w : Walk} {nodes : List TrackedNode} {workers : List Worker} {t : DirTree}

/-- A directory with more subdirectories than children is sealed. -/
theorem sealed_of_buildTree {target : Target} {tallies : Nat → NodeTally} {links : Table Inode LinkOwner} {plain : List (Nat × Nat)}
    {rootDev : Nat} (h : buildTree target nodes tallies links plain rootDev = some t) {i : Nat} (hi : i < nodes.length)
    (hlt : (childrenOf nodes i).length < (tallies i).direct.dirs) : (t.node i).isSealed = true := by
  unfold buildTree at h
  split at h
  · cases h
  · cases h
    unfold DirTree.node
    rw [List.getD_eq_getElem _ _ (by simpa using hi), List.getElem_map, List.getElem_range]
    show (_ || decide ((childrenOf nodes i).length < (tallies i).direct.dirs)) = true
    rw [decide_eq_true hlt, Bool.or_true]

/-- The tallies a finished walk builds its tree from. -/
theorem built_of_finish (ht : (finish w nodes workers).tree = some t) :
    ∃ tallies, Built nodes tallies t ∧
      (∀ i < nodes.length, (childrenOf nodes i).length < (tallies i).direct.dirs → (t.node i).isSealed = true) ∧
      ∀ node direct c, min (((tallies node).part direct).get c) u64Max =
        min ((workers.map fun d => ((d.tallies node).part direct).get c).sum +
          wonIn (Worker.mergeLinks 0 workers .empty).entries node direct c) u64Max := by
  obtain ⟨u, hu, hut⟩ := Option.map_eq_some_iff.1 ht
  obtain ⟨hb, -, -, -⟩ := built_of_buildTree hu
  refine ⟨_, by rw [← hut]; exact ⟨hb.length, hb.node, hb.sub, hb.unsealed⟩, fun i hi hlt => ?_, fun node direct c => ?_⟩
  · rw [← hut]
    exact sealed_of_buildTree hu hi hlt
  have h1 := capped_addWinners (Worker.mergeLinks 0 workers .empty).entries (Worker.mergeTally workers) node direct c
  have h2 := capped_mergeTally workers node direct c
  omega

open Classical in
/-- A tracked directory's total is what was counted at and below it, with the multiply linked files
counted there, up to the limit. -/
theorem capped_total (h : Arena nodes) (ht : (finish w nodes workers).tree = some t) {log : List Tallied}
    (hlog : ∀ node direct c, min (workers.map fun d => ((d.tallies node).part direct).get c).sum u64Max =
      min (amounts (noted log node direct) c) u64Max)
    (hin : ∀ r ∈ log, r.job.node < nodes.length)
    (hlinks : ∀ e ∈ (Worker.mergeLinks 0 workers .empty).entries, e.2.2.node < nodes.length) {i : Nat} (hi : i < nodes.length)
    (c : Component) :
    min ((t.node i).sub.get c) u64Max =
      min (amounts (log.filter fun r => Above t.parentOf i r.job.node) c +
        (((Worker.mergeLinks 0 workers .empty).entries.filter fun e => Above t.parentOf i e.2.2.node).map
          fun e => sizeAt e.2.2.blocks e.2.2.apparent c).sum) u64Max := by
  obtain ⟨tallies, hb, -, htallies⟩ := built_of_finish ht
  rw [hb.capped_sub h hi, hb.parentOf]
  have hnode : ∀ j, min (((tallies j).direct.add (tallies j).below).get c) u64Max =
      min (((log.filter fun r => r.job.node = j).map fun r => r.amount c).sum +
        (((Worker.mergeLinks 0 workers .empty).entries.filter fun e => e.2.2.node = j).map
          fun e => sizeAt e.2.2.blocks e.2.2.apparent c).sum) u64Max := by
    intro j
    rw [Tally.capped_get_add, ← amounts_both, ← wonIn_both]
    have h1 : min ((tallies j).direct.get c) u64Max = _ := htallies j true c
    have h2 : min ((tallies j).below.get c) u64Max = _ := htallies j false c
    have h3 := hlog j true c
    have h4 := hlog j false c
    omega
  unfold amounts
  rw [← sum_keys (fun r : Tallied => r.job.node) (fun r => r.amount c) (fun j => Above (parentIn nodes) i j) hin,
    ← sum_keys (fun e : Inode × Nat × Link => e.2.2.node) (fun e => sizeAt e.2.2.blocks e.2.2.apparent c)
      (fun j => Above (parentIn nodes) i j) hlinks, ← Finset.sum_add_distrib]
  refine capped_sum fun j _ => ?_
  by_cases ha : Above (parentIn nodes) i j
  · rw [if_pos ha, if_pos ha, if_pos ha]
    exact hnode j
  · rw [if_neg ha, if_neg ha, if_neg ha]

end Finished

/-! ## Scans -/

/-- A tree a scan comes back with, every entry its walk counted, and the link each multiply linked file is
counted at. -/
abbrev LogScan (host : Host) (target : Target) (hash : Bytes → Nat) : DirTree → List Tallied → Table Inode (Nat × Link) → Prop :=
  TracedScan logger host target hash

section Scans

variable {host : Host} {target : Target} {hash : Bytes → Nat} {t : DirTree} {log : List Tallied} {won : Table Inode (Nat × Link)}

/-- Every scan that comes back with a tree has its log. -/
theorem logScan_of_scan {result : ScanResult} (h : Scans host target hash (.ok result)) (ht : result.tree = some t) :
    ∃ log won, LogScan host target hash t log won :=
  tracedScan_of_scan logger h ht

section Bag

variable {w : Walk} {n : Nat} {b : Bag n Job Progress Worker Shared} {data : Fin (n + 1) → Worker} {root : TrackedNode}

theorem ScanBag.logging (h : ScanBag logger host target t log won w b data root) : Logging w host data root b log := h.traced

theorem ScanBag.tracked (h : ScanBag logger host target t log won w b data root) (hk : host.listing.Proper) : Tracked b :=
  tracked_of_reachable hk h.links h.parent h.depth h.logging.reachable

/-- At its end the workers' tallies add up what was noted. -/
theorem ScanBag.sums (h : ScanBag logger host target t log won w b data root) (node : Nat) (direct : Bool) (c : Component) :
    min ((List.ofFn b.data).map fun d => ((d.tallies node).part direct).get c).sum u64Max = min (amounts (noted log node direct) c) u64Max := by
  have hsum := h.logging.summed h.tallies node direct c
  have hidle : ∑ i, gathered node direct c (b.active i) = 0 := Finset.sum_eq_zero fun i _ => by rw [h.idle i]; rfl
  rw [hidle, Nat.add_zero] at hsum
  rw [List.map_ofFn, List.sum_ofFn]
  exact hsum

theorem ScanBag.winners (h : ScanBag logger host target t log won w b data root) (hk : host.listing.Proper) :
    ∀ e ∈ won.entries, e.2.2.node < b.shared.nodes.length := by
  intro e he
  rw [h.won_eq] at he
  rcases get_mergeLinks 0 (List.ofFn b.data) .empty (Table.get_eq_some.2 he) with hg | ⟨d, hd, hg⟩
  · rw [Table.get_empty] at hg
    cases hg
  · obtain ⟨i, rfl⟩ := List.mem_ofFn.1 hd
    exact (h.tracked hk).links i _ _ hg

end Bag

end Scans

end Walk

end StorageHarvester
