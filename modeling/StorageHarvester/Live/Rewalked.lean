/-
A directory that appeared after the scan. A re-read that lists it walks it under a target of its own and
grafts what it found. On a file system that stays as it is, a fresh scan of the whole finds the same: every
directory both trees track has the same total in both.
-/
import StorageHarvester.Live.Counted
import StorageHarvester.Scan.Observed
import StorageHarvester.Scan.Rebased

namespace StorageHarvester

open Forest Walk

/-- Below the root the names do not tell what that is called. -/
theorem DirTree.components_renameRoot (t : DirTree) (name : Bytes) (i : Nat) : (t.renameRoot name).components i = t.components i := by
  have hup : ∀ fuel i, (t.renameRoot name).componentsUp fuel i = t.componentsUp fuel i := by
    intro fuel
    induction fuel with
    | zero => exact fun _ => rfl
    | succ fuel ih =>
      intro i
      rw [componentsUp, componentsUp]
      by_cases hi : i = 0
      · rw [if_pos hi, if_pos hi]
      · have hparent : ((t.renameRoot name).node i).parent = (t.node i).parent := by rw [t.node_renameRoot]
        rw [if_neg hi, if_neg hi, t.name_renameRoot name hi, hparent]
        cases (t.node i).parent with
        | none => rfl
        | some p => exact congrArg _ (ih p)
  unfold components
  rw [hup]

section Rewalk

variable {fs : Frozen} {host host' : Host} {target : Target} {answers : Answers} {tree : DirTree} {parent : Nat} {name : Bytes}
  {hash : Bytes → Nat}

/-- The names a new subdirectory is found under. -/
def newNames (tree : DirTree) (parent : Nat) (name : Bytes) : List Bytes := tree.components parent ++ [name]

/-- The target a new subdirectory is walked as is that of its place in the whole. -/
theorem rebased_walkTarget (hs : Shape tree) (hp : (tree.node parent).alive = true) (hd : tree.displayRoot = target.displayPath)
    (hr : tree.scanRoot = target.scanPath) : Rebased target (walkTarget target answers tree parent name) (newNames tree parent name) where
  displayPath := by
    show pushComponent (tree.displayPathBytes parent) name = _
    unfold newNames DirTree.displayPathBytes
    rw [join_snoc, hd]
  scanPath := by
    show pushComponent (tree.scanPath parent) name = _
    unfold newNames DirTree.scanPath
    rw [join_snoc, hr]
  exclude := rfl
  followSymlinks := rfl
  noCrossFilesystem := rfl
  maxDepth := by
    show target.maxDepth.map _ = _
    unfold newNames
    rw [List.length_append, ← depth_eq_length hs hp]
    rfl

/-- A directory that a re-read of `parent` found under `name`, on a file system that stays as it is. The
scan of the whole goes there, and no file is linked both in it and elsewhere. -/
structure Appeared (fs : Frozen) (host host' : Host) (target : Target) (tree : DirTree) (parent : Nat) (name : Bytes)
    (hash : Bytes → Nat) : Prop where
  frozen : host.Frozen fs
  frozen' : host'.Frozen fs
  proper : host.listing.Proper
  proper' : host'.listing.Proper
  coherent : Coherent fs target.followSymlinks
  shape : Shape tree
  names : tree.ProperNames
  displayRoot : tree.displayRoot = target.displayPath
  scanRoot : tree.scanRoot = target.scanPath
  alive : (tree.node parent).alive = true
  named : ProperName name
  goes : Goes fs target hash (newNames tree parent name)
  apart : HashesApart fs target hash
  contained : ∀ met, MetOn fs target hash met → ∀ m ∈ met, ∀ m' ∈ met, m.stat.kind ≠ .directory → 1 < m.stat.nlink →
    (m.stat.dev, m.stat.ino) = (m'.stat.dev, m'.stat.ino) → Within target (newNames tree parent name) m.place.1 →
    Within target (newNames tree parent name) m'.place.1

theorem Appeared.part (h : Appeared fs host host' target tree parent name hash) :
    Part fs host host' target (walkTarget target answers tree parent name) hash (newNames tree parent name) where
  frozen := h.frozen
  frozen' := h.frozen'
  proper := h.proper
  proper' := h.proper'
  coherent := h.coherent
  rebased := rebased_walkTarget h.shape h.alive h.displayRoot h.scanRoot
  named component hc := by
    rcases List.mem_append.1 hc with hc | hc
    · exact h.shape.components_proper h.names h.alive component hc
    · exact List.mem_singleton.1 hc ▸ h.named
  goes := h.goes
  apart := h.apart
  contained := h.contained

/-- What the re-read grafts for a new subdirectory, where none of its files are counted elsewhere, has for every
directory the total that a fresh scan of the whole has for it, up to the limit of a `u64`. It does so whatever the
schedules of the two walks and the numbers of workers, and whichever directories got a node. -/
theorem walkNew_agrees (h : Appeared fs host host' target tree parent name hash) {result result' : ScanResult} {t found sub : DirTree}
    (hs : Scans host target hash (.ok result)) (ht : result.tree = some t)
    (hs' : Scans host' (walkTarget target answers tree parent name) hash (.ok result')) (hf : result'.tree = some found)
    (hw : answers.walk (walkTarget target answers tree parent name) = some found)
    (hn : walkNew target answers tree parent name = some (sub, [])) {i i' : Nat} (hi : i < t.nodes.length) (hi' : i' < sub.nodes.length)
    (hc : t.components i = tree.components parent ++ name :: sub.components i') (c : Component) :
    min ((sub.node i').sub.get c) u64Max = min ((t.node i).sub.get c) u64Max := by
  obtain ⟨log, won, hlog⟩ := logScan_of_scan hs ht
  obtain ⟨log', won', hlog'⟩ := logScan_of_scan hs' hf
  obtain ⟨found₁, hw₁, hsub, hshared⟩ := walkNew_eq_some hn
  rw [hw] at hw₁
  cases hw₁
  -- no link is taken out again, so what is grafted is what was found
  have hnone : takenLinks tree (found.renameRoot name) = [] := List.map_eq_nil_iff.1 hshared.symm
  rw [hnone, List.foldl_nil] at hsub
  subst hsub
  rw [DirTree.components_renameRoot] at hc
  have hlen : i' < found.nodes.length := by simpa [DirTree.renameRoot] using hi'
  rw [show ((found.renameRoot name).node i').sub = (found.node i').sub by rw [found.node_renameRoot]]
  refine h.part.total hlog hlog' hi hlen ?_ c
  rw [hc, newNames, List.append_assoc]
  rfl

end Rewalk

/-! ## A file with two names -/

def doubledLink (name : Bytes) : Entry := { name := name, stat := .ok (twiceStat .file 7 512 10), handle := none }

/-- `/d` holds the directory `x`, which holds one file under two names. -/
def doubledFs : Frozen where
  stat path _ := if path = [slash, 100] then .ok (twiceStat .directory 2 0 2) else .ok (twiceStat .directory 3 0 2)
  listing path :=
    if path = [slash, 100] then .ok { entries := [{ name := [120], stat := .ok (twiceStat .directory 3 0 2), handle := none }], fail := none }
    else if path = [slash, 100, slash, 120] then .ok { entries := [doubledLink [102], doubledLink [103, 103]], fail := none }
    else .error .enoent

def doubledHost : Host where
  stat path follow answer := answer = doubledFs.stat path follow
  handle _ handle := handle = none
  listing path answer := answer = doubledFs.listing path
  answers _ := ⟨_, rfl⟩

theorem doubled_listing {path : Bytes} {reading : Reading} (h : doubledFs.listing path = .ok reading) :
    path = [slash, 100] ∧ reading = ⟨[{ name := [120], stat := .ok (twiceStat .directory 3 0 2), handle := none }], none⟩ ∨
      path = [slash, 100, slash, 120] ∧ reading = ⟨[doubledLink [102], doubledLink [103, 103]], none⟩ := by
  unfold doubledFs at h
  dsimp only at h
  split at h
  · rename_i hp
    cases h
    exact .inl ⟨hp, rfl⟩
  · split at h
    · rename_i hp
      cases h
      exact .inr ⟨hp, rfl⟩
    · cases h

theorem frozen_doubled : doubledHost.Frozen doubledFs := by
  refine ⟨fun _ _ _ h => h, fun path answer h => ?_⟩
  rw [show answer = doubledFs.listing path from h]
  cases doubledFs.listing path with
  | error => rfl
  | ok reading => exact ⟨.refl _, rfl⟩

theorem proper_doubled : doubledHost.listing.Proper := by
  rintro path reading hr
  rcases doubled_listing hr.symm with ⟨-, rfl⟩ | ⟨-, rfl⟩
  · exact ⟨by decide, by decide⟩
  · exact ⟨by decide, by decide⟩

theorem scan_doubled : ∃ result, Scans doubledHost emptyWalk.target List.length (.ok result) ∧
    result.tree.map (fun t => ((t.node 1).sub, t.nodes.length, t.components 1)) =
      some ({ files := 2, dirs := 0, symlinks := 0, blocks := 512, apparent := 10 }, 2, [[120]]) := by
  have h0 : Walking doubledHost (start emptyWalk.target (twiceStat .directory 2 0 2) List.length) (twiceStat .directory 2 0 2) none (n := 0) _ :=
    .initial false
  have h1 := WorkPool.Reachable.step h0 (.worker (.spawnDone (i := 0) rfl (by decide)))
  have h2 := WorkPool.Reachable.step h1 (.worker (.retire (i := 0) rfl))
  have h3 := WorkPool.Reachable.step h2 (.worker (.more (i := 0) rfl (.opened rfl)))
  have h4 := WorkPool.Reachable.step h3 (.worker (.more (i := 0) rfl (.entry rfl rfl)))
  have h5 := WorkPool.Reachable.step h4 (.worker (.done (i := 0) rfl (.closed rfl rfl)))
  have h6 := WorkPool.Reachable.step h5 (.worker (.keep (i := 0) rfl))
  have h7 := WorkPool.Reachable.step h6 (.worker (.more (i := 0) rfl (.opened rfl)))
  have h8 := WorkPool.Reachable.step h7 (.worker (.more (i := 0) rfl (.entry rfl rfl)))
  have h9 := WorkPool.Reachable.step h8 (.worker (.more (i := 0) rfl (.entry rfl rfl)))
  have h10 := WorkPool.Reachable.step h9 (.worker (.done (i := 0) rfl (.closed rfl rfl)))
  have h11 := WorkPool.Reachable.step h10 (.worker (.retire (i := 0) rfl))
  exact ⟨_, .walked rfl rfl rfl (by simp [RootHandle, emptyWalk]) (by decide) (by decide) rfl h11 (by decide), rfl⟩

theorem scan_doubledBelow : ∃ result, Scans doubledHost grownTarget List.length (.ok result) ∧
    result.tree.map (fun t => ((t.node 0).sub, t.nodes.length)) =
      some ({ files := 2, dirs := 0, symlinks := 0, blocks := 512, apparent := 10 }, 1) := by
  have h0 : Walking doubledHost (start grownTarget (twiceStat .directory 3 0 2) List.length) (twiceStat .directory 3 0 2) none (n := 0) _ :=
    .initial false
  have h1 := WorkPool.Reachable.step h0 (.worker (.spawnDone (i := 0) rfl (by decide)))
  have h2 := WorkPool.Reachable.step h1 (.worker (.retire (i := 0) rfl))
  have h3 := WorkPool.Reachable.step h2 (.worker (.more (i := 0) rfl (.opened rfl)))
  have h4 := WorkPool.Reachable.step h3 (.worker (.more (i := 0) rfl (.entry rfl rfl)))
  have h5 := WorkPool.Reachable.step h4 (.worker (.more (i := 0) rfl (.entry rfl rfl)))
  have h6 := WorkPool.Reachable.step h5 (.worker (.done (i := 0) rfl (.closed rfl rfl)))
  have h7 := WorkPool.Reachable.step h6 (.worker (.retire (i := 0) rfl))
  exact ⟨_, .walked rfl rfl rfl (by simp [RootHandle, grownTarget, emptyWalk]) (by decide) (by decide) rfl h7 (by decide), rfl⟩

/-- The links of the file are told apart by the lengths of their paths, and both are in `/d/x`. -/
theorem appeared_doubled : Appeared doubledFs doubledHost doubledHost emptyWalk.target (statTree emptyWalk.target listedStat) 0 [120]
    List.length := by
  have hmet : ∀ met, MetOn doubledFs emptyWalk.target List.length met → ∀ m ∈ met,
      m.place.1 = [slash, 100] ∧ m.name = [120] ∧ m.stat = twiceStat .directory 3 0 2 ∨
        m.place.1 = [slash, 100, slash, 120] ∧ (m.name = [102] ∨ m.name = [103, 103]) ∧ m.stat = twiceStat .file 7 512 10 := by
    rintro met hmet m hm
    obtain ⟨-, reading, hl, e, he, hn, hs⟩ := hmet.listed hm
    rcases doubled_listing hl with ⟨hp, rfl⟩ | ⟨hp, rfl⟩
    · obtain rfl := List.mem_singleton.1 he
      exact .inl ⟨hp, hn.symm, (Except.ok.inj hs).symm⟩
    · rcases List.mem_pair.1 he with rfl | rfl
      · exact .inr ⟨hp, .inl hn.symm, (Except.ok.inj hs).symm⟩
      · exact .inr ⟨hp, .inr hn.symm, (Except.ok.inj hs).symm⟩
  obtain ⟨counted, hempty⟩ := scan_empty
  have hfresh := hempty.fresh (proper_statHost _)
  refine ⟨frozen_doubled, frozen_doubled, proper_doubled, proper_doubled, ?_, hfresh.shape, hfresh.names, rfl, rfl, rfl, by decide, ?_, ?_, ?_⟩
  · -- the one directory listed is what it is by itself
    rintro path reading e stat hl he hs hk
    rcases doubled_listing hl with ⟨rfl, rfl⟩ | ⟨rfl, rfl⟩
    · obtain rfl := List.mem_singleton.1 he
      exact hs
    · rcases List.mem_pair.1 he with rfl | rfl
      · cases hs
        cases hk
      · cases hs
        cases hk
  · exact ⟨twiceStat .directory 2 0 2, {([slash, 100], 0), ([slash, 100, slash, 120], 1)}, rfl, rfl, by decide⟩
  · rintro met hm m hm₁ m' hm₂ hi hlen
    rcases hmet met hm m hm₁ with ⟨hp, hn, hs⟩ | ⟨hp, hn | hn, hs⟩ <;>
      rcases hmet met hm m' hm₂ with ⟨hp', hn', hs'⟩ | ⟨hp', hn' | hn', hs'⟩ <;>
      simp_all [twiceStat]
  · rintro met hm m hm₁ m' hm₂ hk - hi hin
    rcases hmet met hm m hm₁ with ⟨-, -, hs⟩ | ⟨hp, -, hs⟩
    · rw [hs] at hk
      exact absurd rfl hk
    · rcases hmet met hm m' hm₂ with ⟨-, -, hs'⟩ | ⟨hp', -, -⟩
      · rw [hs, hs'] at hi
        exact absurd hi (by decide)
      · rw [hp] at hin
        rw [hp']
        exact hin

/-- `/d/x` is walked and grafted with the size of its one file. -/
theorem walkNew_agrees_doubled : ∃ result result' t found sub, Scans doubledHost emptyWalk.target List.length (.ok result) ∧
    Scans doubledHost grownTarget List.length (.ok result') ∧ result.tree = some t ∧ result'.tree = some found ∧
    walkNew emptyWalk.target (grownAnswers fun _ => some found) (statTree emptyWalk.target listedStat) 0 [120] = some (sub, []) ∧
    (t.node 1).sub.blocks = 512 ∧
    min ((sub.node 0).sub.get .blocks) u64Max = min ((t.node 1).sub.get .blocks) u64Max := by
  obtain ⟨result, hs, hr⟩ := scan_doubled
  obtain ⟨result', hs', hr'⟩ := scan_doubledBelow
  obtain ⟨t, ht, hsub⟩ := Option.map_eq_some_iff.1 hr
  obtain ⟨found, hf, hfound⟩ := Option.map_eq_some_iff.1 hr'
  have hlen : t.nodes.length = 2 := congrArg (fun x => x.2.1) hsub
  have hnames : t.components 1 = [[120]] := congrArg (fun x => x.2.2) hsub
  have hblocks : (t.node 1).sub.blocks = 512 := congrArg (fun x => x.1.blocks) hsub
  have hone : found.nodes.length = 1 := congrArg Prod.snd hfound
  have hnone : takenLinks (statTree emptyWalk.target listedStat) (found.renameRoot [120]) = [] :=
    List.filter_eq_nil_iff.2 fun e _ => Bool.false_ne_true
  have hnew : walkNew emptyWalk.target (grownAnswers fun _ => some found) (statTree emptyWalk.target listedStat) 0 [120] =
      some (found.renameRoot [120], []) := by
    unfold walkNew
    dsimp only [grownAnswers]
    rw [show found.modifyNode 0 (fun n => { n with name := [120] }) = found.renameRoot [120] from rfl, hnone]
    rfl
  have hlen' : 0 < (found.renameRoot [120]).nodes.length := by simp [DirTree.renameRoot, hone]
  exact ⟨result, result', t, found, _, hs, hs', ht, hf, hnew, hblocks,
    walkNew_agrees appeared_doubled hs ht (show Scans doubledHost (walkTarget emptyWalk.target (grownAnswers fun _ => some found) _ 0 [120])
      List.length (.ok result') from hs') hf rfl hnew (by omega) hlen' (by rw [hnames, Shape.components_zero, Shape.components_zero]; rfl)
      .blocks⟩

end StorageHarvester
