/-
The mark a walk leaves on a directory some of whose entries the exclude rules drop. What was dropped
is no data of the scanner: it is recorded beside the walk, and every directory it names is marked
when the walk is over.
-/
import StorageHarvester.Scan.Times
import StorageHarvester.Scan.Traced

namespace StorageHarvester

open WorkPool (Bag BagReachable)

/-- The names the exclude rules dropped in each directory when it was last read. -/
abbrev Dropped := Nat → Bytes → Prop

namespace Walk

/-! ## What a walk drops -/

/-- What reading the next entry drops. -/
def Progress.drops (w : Walk) : Progress → Dropped
  | .opening _ => fun _ _ => False
  | .reading p => fun node name =>
    p.job.tracked = true ∧ p.job.node = node ∧ w.excludes p.job name = true ∧ isDot name = false ∧
      ∃ e rest, p.left = e :: rest ∧ e.name = name

/-- The states of a walk's bag of jobs, each with what was dropped on the way to it. -/
abbrev Dropping (w : Walk) (host : Host) {n : Nat} (data : Fin (n + 1) → Worker) (root : TrackedNode) :
    Bag n Job Progress Worker Shared → Dropped → Prop :=
  Tracing (noter Progress.drops) w host data root

/-! ## Marks -/

section Marks

variable {nodes : List TrackedNode} {j : Nat}

theorem nodeIn_modify (nodes : List TrackedNode) (i j : Nat) (f : TrackedNode → TrackedNode) :
    nodeIn (nodes.modify i f) j = if j = i ∧ i < nodes.length then f (nodeIn nodes j) else nodeIn nodes j := by
  unfold nodeIn
  simp only [List.getD_eq_getElem?_getD, List.getElem?_modify]
  by_cases hij : i = j
  · subst hij
    by_cases hl : i < nodes.length
    · simp [hl]
    · simp [hl]
  · simp [hij, Ne.symm hij]

theorem lt_of_pruned (h : (nodeIn nodes j).pruned = true) : j < nodes.length := by
  by_contra hn
  rw [nodeIn, List.getD_eq_default _ _ (Nat.le_of_not_lt hn)] at h
  cases h

theorem pruned_sealNode (job : Job) (h : (nodeIn nodes j).pruned = true) : (nodeIn (sealNode job nodes) j).pruned = true := by
  unfold sealNode
  split
  · rw [nodeIn_modify]
    split
    · exact h
    · exact h
  · exact h

/-- The end of a directory takes no mark away, and sets its own. -/
theorem pruned_registered (p : InDir)
    (h : (nodeIn nodes j).pruned = true ∨ (p.pruned && p.job.tracked) = true ∧ p.job.node = j ∧ j < nodes.length) :
    (nodeIn (p.registered nodes) j).pruned = true := by
  have hmarked : (nodeIn (if p.pruned && p.job.tracked then nodes.modify p.job.node fun n => { n with pruned := true } else nodes)
      j).pruned = true := by
    by_cases hp : (p.pruned && p.job.tracked) = true
    · rw [if_pos hp, nodeIn_modify]
      split
      · rfl
      · rename_i hj
        exact h.elim id fun hm => absurd ⟨hm.2.1.symm, by rw [hm.2.1]; exact hm.2.2⟩ hj
    · rw [if_neg hp]
      exact h.elim id fun hm => absurd hm.1 hp
  unfold InDir.registered
  rw [nodeIn_append_left (lt_of_pruned hmarked)]
  exact hmarked

end Marks

theorem readEntry_pruned (w : Walk) (e : Entry) (p : InDir) (d : Worker) (k : Nat)
    (h : p.pruned = true ∨ isDot e.name = false ∧ w.excludes p.job e.name = true) :
    (w.readEntry e p d k).1.pruned = true := by
  unfold readEntry
  split
  · rename_i hdot
    exact h.elim id fun hx => absurd hdot (by rw [hx.1]; exact Bool.false_ne_true)
  · split
    · rfl
    · rename_i hx
      have hp := h.resolve_right fun hx' => hx hx'.2
      split
      · split <;> exact hp
      · split
        · exact hp
        · dsimp only
          split
          · unfold readSubdir
            dsimp only
            split
            · split
              · exact hp
              · split <;> exact hp
            · split <;> exact hp
          · exact hp

/-- What was dropped in a directory marks it, or is about to. -/
structure Marking {n : Nat} (b : Bag n Job Progress Worker Shared) (dropped : Dropped) : Prop extends Registering b where
  marked : ∀ node name, dropped node name → (nodeIn b.shared.nodes node).pruned = true ∨
    ∃ i job p, b.active i = some (job, .reading p) ∧ p.job.node = node ∧ p.job.tracked = true ∧ p.pruned = true

section Steps

variable {n : Nat} {w : Walk} {kernel : Kernel} {b : Bag n Job Progress Worker Shared} {dropped : Dropped} {i : Fin (n + 1)}

theorem Marking.start (h : Marking b dropped) {job : Job} {rest : Multiset Job} (hi : b.active i = none)
    (hj : b.pending = {job} + rest) :
    Marking { b with pending := rest, active := Function.update b.active i (some (job, .opening job)) } dropped := by
  refine ⟨h.toRegistering.start hi hj, fun node name hd => (h.marked node name hd).imp id ?_⟩
  rintro ⟨i', job', p, hp, hrest⟩
  refine ⟨i', job', p, ?_, hrest⟩
  have hne : i' ≠ i := fun he => by
    rw [he, hi] at hp
    cases hp
  show Function.update b.active i _ i' = _
  rw [Function.update_of_ne hne]
  exact hp

theorem Marking.more (h : Marking b dropped) {job : Job} {p p' : Progress} {d' : Worker} {s' : Shared} {interrupted : Bool}
    (hi : b.active i = some (job, p)) (ht : ReadStep w kernel interrupted p (b.data i) b.shared (.more p' d' s')) :
    Marking { b with active := Function.update b.active i (some (job, p')), data := Function.update b.data i d', shared := s' }
      fun node name => dropped node name ∨ p.drops w node name := by
  refine ⟨h.toRegistering.more hi ht, fun node name hd => ?_⟩
  have hother : ∀ i' job' q, i' ≠ i → b.active i' = some (job', Progress.reading q) →
      Function.update b.active i (some (job, p')) i' = some (job', .reading q) := by
    intro i' job' q hne hq
    rw [Function.update_of_ne hne]
    exact hq
  cases ht with
  | @opened job' reading _ _ hr =>
    have hdropped := hd.resolve_right id
    refine (h.marked node name hdropped).imp id ?_
    rintro ⟨i', job', q, hq, hrest⟩
    refine ⟨i', job', q, hother i' job' q (fun he => ?_) hq, hrest⟩
    rw [he, hi] at hq
    cases hq
  | @entry p₀ e rest _ _ hl hi' =>
    have hself : p₀.pruned = true ∨ isDot e.name = false ∧ w.excludes p₀.job e.name = true →
        p₀.job.node = node → p₀.job.tracked = true → ∃ i' job' q,
          Function.update b.active i (some (job, Progress.reading
            (w.readEntry e { p₀ with left := rest } (b.data i) b.shared.tracked).1)) i' = some (job', .reading q) ∧
          q.job.node = node ∧ q.job.tracked = true ∧ q.pruned = true := by
      intro hp hnode htracked
      have hjob := (readEntry_kept w e { p₀ with left := rest } (b.data i) b.shared.tracked).job
      refine ⟨i, job, _, Function.update_self .., ?_, ?_, readEntry_pruned w e _ _ _ hp⟩
      · rw [hjob]
        exact hnode
      · rw [hjob]
        exact htracked
    rcases hd with hd | ⟨htracked, hnode, hx, hdot, e', rest', hl', rfl⟩
    · rcases h.marked node name hd with hm | ⟨i', job', q, hq, hnode, htracked, hp⟩
      · exact .inl hm
      · by_cases hne : i' = i
        · rw [hne, hi] at hq
          cases hq
          exact .inr (hself (.inl hp) hnode htracked)
        · exact .inr ⟨i', job', q, hother i' job' q hne hq, hnode, htracked, hp⟩
    · rw [hl] at hl'
      cases hl'
      exact .inr (hself (.inr ⟨hdot, hx⟩) hnode htracked)

theorem Marking.done (h : Marking b dropped) {job : Job} {p : Progress} {children : List Job} {d' : Worker} {s' : Shared}
    {interrupted : Bool} (hi : b.active i = some (job, p))
    (ht : ReadStep w kernel interrupted p (b.data i) b.shared (.done children d' s')) :
    Marking ⟨b.pending + children, Function.update b.active i none, Function.update b.data i d', s'⟩ dropped := by
  have hplace := h.placed job (Bag.mem_jobs hi)
  have hjob := (h.active i job p hi).1
  refine ⟨h.toRegistering.done hi ht, fun node name hd => ?_⟩
  rcases h.marked node name hd with hm | ⟨i', job', q, hq, hnode, htracked, hp⟩
  · left
    cases ht with
    | unopened hr htol => exact pruned_sealNode _ hm
    | closed hl hf => exact pruned_registered _ (.inl hm)
    | closedEarly hl hf htol => exact pruned_registered _ (.inl (pruned_sealNode _ hm))
  · by_cases hne : i' = i
    · left
      rw [hne, hi] at hq
      cases hq
      have hlt : node < b.shared.nodes.length := by
        rw [← hnode, show q.job = job from hjob]
        exact hplace
      have hmark : (q.pruned && q.job.tracked) = true := by rw [hp, htracked]; rfl
      cases ht with
      | closed hl hf => exact pruned_registered _ (.inr ⟨hmark, hnode, hlt⟩)
      | closedEarly hl hf htol =>
        refine pruned_registered _ (.inr ⟨hmark, hnode, ?_⟩)
        rw [length_of_fixed (fixed_sealNode q.job b.shared.nodes)]
        exact hlt
    · refine .inr ⟨i', job', q, ?_, hnode, htracked, hp⟩
      show Function.update b.active i none i' = _
      rw [Function.update_of_ne hne]
      exact hq

theorem Dropping.marking {host : Host} {data : Fin (n + 1) → Worker} {root : TrackedNode} (hp : root.parent = none)
    (h : Dropping w host data root b dropped) : Marking b dropped := by
  induction h with
  | initial => exact ⟨registering_of_reachable hp (@Tracing.initial _ (noter Progress.drops) w host n data root).reachable, fun _ _ hd => hd.elim⟩
  | start h hi hj ih => exact ih.start hi hj
  | more h hi ht ih => exact ih.more hi ht
  | done h hi ht ih => exact ih.done hi ht

end Steps

/-! ## Scans -/

/-- A tree a scan comes back with, and what was dropped when its directories were read. -/
abbrev DropScan (host : Host) (target : Target) (hash : Bytes → Nat) (t : DirTree) (dropped : Dropped) : Prop :=
  ∃ won, TracedScan (noter Progress.drops) host target hash t dropped won

section Scans

variable {host : Host} {target : Target} {hash : Bytes → Nat} {t : DirTree} {dropped : Dropped}

theorem pruned_of_finish {w : Walk} {nodes : List TrackedNode} {workers : List Worker} (ht : (finish w nodes workers).tree = some t)
    {i : Nat} (hi : (nodeIn nodes i).pruned = true) : (t.node i).pruned = true := by
  obtain ⟨u, hu, rfl⟩ := Option.map_eq_some_iff.1 ht
  show (u.node i).pruned = true
  rw [(built_of_buildTree hu).1.node i (lt_of_pruned hi)]
  exact hi

/-- After a scan every directory something was dropped in is marked. -/
theorem DropScan.marked (h : DropScan host target hash t dropped) {node : Nat} {name : Bytes} (hd : dropped node name) :
    (t.node node).pruned = true := by
  obtain ⟨won, hscan⟩ := h
  obtain ⟨w, n, b, data, root, hb⟩ := hscan.bag
  refine pruned_of_finish hb.tree ?_
  rcases (Dropping.marking hb.parent hb.traced).marked node name hd with hm | ⟨i, job, p, hp, -⟩
  · exact hm
  · rw [hb.idle i] at hp
    cases hp

end Scans

end Walk

end StorageHarvester
