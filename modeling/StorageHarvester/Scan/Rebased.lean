/-
A walk of a subdirectory, under a target of its own. What it comes upon there is what a scan of the whole
comes upon at and below the subdirectory: it goes into the same directories, the depth limit taken off by
how deep it starts, and leaves out the same entries by the paths they are displayed under. So each directory
has the same total in both trees, as long as no multiply linked file is linked both in the subdirectory and
outside it.
-/
import StorageHarvester.Scan.Agrees

namespace StorageHarvester

open Forest
open WorkPool (Bag Unfolds)

namespace Walk

/-- A target for the directory that `names` lead to in another one. -/
structure Rebased (target target' : Target) (names : List Bytes) : Prop where
  displayPath : target'.displayPath = DirTree.join target.displayPath names
  scanPath : target'.scanPath = DirTree.join target.scanPath names
  exclude : target'.exclude = target.exclude
  followSymlinks : target'.followSymlinks = target.followSymlinks
  noCrossFilesystem : target'.noCrossFilesystem = target.noCrossFilesystem
  maxDepth : target'.maxDepth = target.maxDepth.map (· - names.length)

/-- Being at or below the directory that names lead to. -/
def Within (target : Target) (names : List Bytes) (path : Bytes) : Prop :=
  ∃ rest : List Bytes, (∀ name ∈ rest, ProperName name) ∧ path = DirTree.join target.scanPath (names ++ rest)

/-- A place, told from a directory `levels` deep. -/
def Place.rise (levels : Nat) (x : Place) : Place := (x.1, x.2 - levels)

def Met.rise (levels : Nat) (m : Met) : Met := { m with place := Place.rise levels m.place }

theorem join_join (base : Bytes) (names rest : List Bytes) :
    DirTree.join (DirTree.join base names) rest = DirTree.join base (names ++ rest) := by
  unfold DirTree.join
  rw [List.foldl_append]

/-! ## Where a walk goes -/

section Places

variable {fs : Frozen} {w : Walk} {begun : Multiset Place}

/-- Proper names are told by the place they lead to. -/
theorem placeOf_injective {target : Target} {names names' : List Bytes} (h : ∀ name ∈ names, ProperName name)
    (h' : ∀ name ∈ names', ProperName name) (he : placeOf target names = placeOf target names') : names = names' :=
  join_injective h h' (congrArg Prod.fst he)

theorem nodup_entered (x : Place) (e : Entry) : (w.entered x e).Nodup := by
  unfold entered
  split_ifs
  · exact Multiset.nodup_zero
  · split
    · exact Multiset.nodup_zero
    · split_ifs
      · exact Multiset.nodup_zero
      · exact Multiset.nodup_singleton _
      · exact Multiset.nodup_zero

/-- What a place gone into leads to is where its names and one more do. -/
theorem kids_spelled (hp : Proper fs) {names : List Bytes} (hn : ∀ name ∈ names, ProperName name) {y : Place}
    (hy : y ∈ w.kids fs (placeOf w.target names)) :
    ∃ name, (∀ n ∈ names ++ [name], ProperName n) ∧ y = placeOf w.target (names ++ [name]) := by
  obtain ⟨reading, hl, e, he, hin, rfl⟩ := mem_kids hy
  refine ⟨e.name, fun n hm => ?_, (placeOf_snoc ..).symm⟩
  rcases List.mem_append.1 hm with hm | hm
  · exact hn n hm
  · exact List.mem_singleton.1 hm ▸ hin.proper (hp _ _ hl) he

theorem childPath_injective {path name name' : Bytes} (h : ProperName name) (h' : ProperName name')
    (he : childPath path name = childPath path name') : name = name' := by
  have hnames : ∀ {n : Bytes}, ProperName n → ∀ m ∈ [n], ProperName m := fun hn m hm => List.mem_singleton.1 hm ▸ hn
  exact List.head_eq_of_cons_eq (@join_injective path _ _ (hnames h) (hnames h') he)

/-- The kids of a place are told apart by their names. -/
theorem nodup_kids (hp : Proper fs) (x : Place) : (w.kids fs x).Nodup := by
  unfold kids
  split
  · exact Multiset.nodup_zero
  · rename_i reading hl
    have hr := hp _ _ hl
    rw [Multiset.nodup_bind]
    constructor
    · exact fun e _ => nodup_entered x e
    · have hentries : (reading.entries : Multiset Entry).Nodup := Multiset.coe_nodup.2 (List.Nodup.of_map _ hr.nodup)
      refine hentries.pairwise fun e he e' he' hne => Multiset.disjoint_left.2 fun {y} hy hy' => hne ?_
      obtain ⟨hin, rfl⟩ := mem_entered hy
      obtain ⟨hin', hsame⟩ := mem_entered hy'
      have hname := childPath_injective (hin.proper hr he) (hin'.proper hr he') (congrArg Prod.fst hsame)
      exact List.inj_on_of_nodup_map hr.nodup he he' hname

/-- No place is gone into twice. -/
theorem Roams.nodup (hp : Proper fs) (h : Roams fs w begun) : begun.Nodup := by
  refine Unfolds.nodup (fun x y hy => depth_kids x y hy) h rfl (fun x _ => nodup_kids hp x) fun x hx x' hx' y hy hy' => ?_
  obtain ⟨names, hn, rfl⟩ := h.spelled hp hx
  obtain ⟨names', hn', rfl⟩ := h.spelled hp hx'
  obtain ⟨name, hproper, rfl⟩ := kids_spelled hp hn hy
  obtain ⟨name', hproper', hsame⟩ := kids_spelled hp hn' hy'
  rw [(List.append_inj' (placeOf_injective hproper hproper' hsame) rfl).1]

/-- A place is within a directory when its names go on from that one's. -/
theorem within_placeOf {target : Target} {names all : List Bytes} (hn : ∀ name ∈ names, ProperName name)
    (ha : ∀ name ∈ all, ProperName name) : Within target names (placeOf target all).1 ↔ names <+: all := by
  constructor
  · rintro ⟨rest, hrest, hpath⟩
    refine ⟨rest, (join_injective ha (fun name hm => ?_) hpath).symm⟩
    exact (List.mem_append.1 hm).elim (hn name) (hrest name)
  · rintro ⟨rest, rfl⟩
    exact ⟨rest, fun name hm => ha name (List.mem_append_right _ hm), rfl⟩

open Classical in
/-- Within a directory that a walk goes into, it goes into what unfolds from there. -/
theorem Roams.within (hp : Proper fs) (h : Roams fs w begun) {names : List Bytes} (hn : ∀ name ∈ names, ProperName name)
    (ht : placeOf w.target names ∈ begun) :
    Unfolds (w.kids fs) (placeOf w.target names) (begun.filter fun x => Within w.target names x.1) := by
  have hnil : ∀ name ∈ ([] : List Bytes), ProperName name := fun _ hm => absurd hm List.not_mem_nil
  refine Unfolds.filter h (h.nodup hp) ht ((within_placeOf hn hn).2 (List.prefix_refl _)) (fun hin => ?_) (fun x hx hin y hy => ?_)
    fun x hx y hy hin => ?_
  · -- the root is within no other directory
    rw [List.prefix_nil.1 ((@within_placeOf w.target _ _ hn hnil).1 hin)]
    rfl
  · obtain ⟨all, ha, rfl⟩ := h.spelled hp hx
    obtain ⟨name, hall, rfl⟩ := kids_spelled hp ha hy
    have hpre := (within_placeOf hn ha).1 hin
    constructor
    · exact (within_placeOf hn hall).2 (hpre.trans (List.prefix_append _ _))
    · rintro hsame
      have hlen := congrArg List.length (placeOf_injective hall hn hsame)
      have hle := hpre.length_le
      rw [List.length_append, List.length_singleton] at hlen
      omega
  · obtain ⟨all, ha, rfl⟩ := h.spelled hp hx
    obtain ⟨name, hall, rfl⟩ := kids_spelled hp ha hy
    rcases List.prefix_concat_iff.1 ((within_placeOf hn hall).1 hin) with rfl | hpre
    · exact .inl rfl
    · exact .inr ((within_placeOf hn ha).2 hpre)

end Places

/-! ## The same walk, from further down -/

section Rebased

variable {fs : Frozen} {target target' : Target} {names : List Bytes} {root root' : Stat} {hash hash' : Bytes → Nat}

/-- The roots are on one device, if it matters. -/
def SameDevice (target : Target) (root root' : Stat) : Prop := target.noCrossFilesystem = true → root'.dev = root.dev

theorem Rebased.placeOf (h : Rebased target target' names) (rest : List Bytes) :
    placeOf target' rest = Place.rise names.length (placeOf target (names ++ rest)) := by
  unfold Walk.placeOf Place.rise
  rw [h.scanPath, join_join, List.length_append, Nat.add_sub_cancel_left]

theorem Rebased.excludes (h : Rebased target target' names) (rest : List Bytes) (name : Bytes) :
    (start target' root' hash').excludes (jobAt (Walk.placeOf target' rest)) name =
      (start target root hash).excludes (jobAt (Walk.placeOf target (names ++ rest))) name := by
  have hat : (start target root hash).At (jobAt (Walk.placeOf target (names ++ rest))) (names ++ rest) := ⟨rfl, rfl⟩
  have hat' : (start target' root' hash').At (jobAt (Walk.placeOf target' rest)) rest := ⟨rfl, rfl⟩
  unfold Walk.excludes
  rw [hat.spells.displayDir, hat'.spells.displayDir]
  show (!target'.exclude.isEmpty && target'.exclude.isMatch (pushComponent (DirTree.join target'.displayPath rest) name)) =
    (!target.exclude.isEmpty && target.exclude.isMatch (pushComponent (DirTree.join target.displayPath (names ++ rest)) name))
  rw [h.exclude, h.displayPath, join_join]

theorem Rebased.descends (h : Rebased target target' names) (depth : Nat) :
    (start target' root' hash').descends (depth + 1) = (start target root hash).descends (names.length + depth + 1) := by
  unfold Walk.descends start
  dsimp only
  rw [h.maxDepth]
  cases target.maxDepth with
  | none => rfl
  | some cap =>
    rw [Option.map_some]
    exact decide_eq_decide.2 (by omega)

/-- Whether an entry is on a device to be left out. -/
theorem Rebased.crosses (h : Rebased target target' names) (hd : SameDevice target root root') (hash hash' : Bytes → Nat) (stat : Stat) :
    ((start target' root' hash').target.noCrossFilesystem && decide (stat.dev ≠ (start target' root' hash').rootDev)) =
      ((start target root hash).target.noCrossFilesystem && decide (stat.dev ≠ (start target root hash).rootDev)) := by
  show (target'.noCrossFilesystem && decide (stat.dev ≠ root'.dev)) = (target.noCrossFilesystem && decide (stat.dev ≠ root.dev))
  rw [h.noCrossFilesystem]
  cases hc : target.noCrossFilesystem with
  | false => rfl
  | true => rw [hd hc]

theorem Rebased.entered (h : Rebased target target' names) (hd : SameDevice target root root') (rest : List Bytes) (e : Entry) :
    (start target' root' hash').entered (Walk.placeOf target' rest) e =
      ((start target root hash).entered (Walk.placeOf target (names ++ rest)) e).map (Place.rise names.length) := by
  have hdepth : (start target' root' hash').descends ((Walk.placeOf target' rest).2 + 1) =
      (start target root hash).descends ((Walk.placeOf target (names ++ rest)).2 + 1) := by
    have hlen : (Walk.placeOf target (names ++ rest)).2 = names.length + rest.length := List.length_append
    rw [hlen]
    exact h.descends rest.length
  have hplace : (childPath (Walk.placeOf target' rest).1 e.name, (Walk.placeOf target' rest).2 + 1) =
      Place.rise names.length (childPath (Walk.placeOf target (names ++ rest)).1 e.name, (Walk.placeOf target (names ++ rest)).2 + 1) := by
    rw [← placeOf_snoc, ← placeOf_snoc, List.append_assoc, ← h.placeOf]
  have hshown : (start target' root' hash').excludes (jobAt (Walk.placeOf target' rest)) e.name =
      (start target root hash).excludes (jobAt (Walk.placeOf target (names ++ rest))) e.name := h.excludes rest e.name
  unfold Walk.entered
  rw [hshown, hdepth]
  split_ifs
  · rfl
  · cases e.stat with
    | error => rfl
    | ok stat =>
      dsimp only
      rw [h.crosses hd hash, hplace]
      split_ifs
      · rfl
      · rw [Multiset.map_singleton]
      · rfl

theorem Rebased.kids (h : Rebased target target' names) (hd : SameDevice target root root') (rest : List Bytes) :
    (start target' root' hash').kids fs (Walk.placeOf target' rest) =
      ((start target root hash).kids fs (Walk.placeOf target (names ++ rest))).map (Place.rise names.length) := by
  have hpath : (Walk.placeOf target' rest).1 = (Walk.placeOf target (names ++ rest)).1 := by rw [h.placeOf]; rfl
  unfold Walk.kids
  rw [hpath]
  split
  · rfl
  · rw [Multiset.map_bind]
    exact Multiset.bind_congr fun e _ => h.entered hd rest e

theorem Rebased.meets (h : Rebased target target' names) (hd : SameDevice target root root') (rest : List Bytes) (e : Entry) :
    (start target' root' hash').meets (Walk.placeOf target' rest) e =
      ((start target root hash).meets (Walk.placeOf target (names ++ rest)) e).map (Met.rise names.length) := by
  have hshown : (start target' root' hash').excludes (jobAt (Walk.placeOf target' rest)) e.name =
      (start target root hash).excludes (jobAt (Walk.placeOf target (names ++ rest))) e.name := h.excludes rest e.name
  unfold Walk.meets
  rw [hshown]
  split_ifs
  · rfl
  · cases e.stat with
    | error => rfl
    | ok stat =>
      dsimp only
      rw [h.crosses hd hash]
      split_ifs
      · rfl
      · rw [Multiset.map_singleton, h.placeOf]
        rfl

/-- What is met of the entries of a place. -/
def metAt (fs : Frozen) (w : Walk) (x : Place) : Multiset Met := (found fs x).bind (Event.met w)

theorem metAt_error (w : Walk) {x : Place} {error : Errno} (hl : fs.listing x.1 = .error error) : metAt fs w x = 0 := by
  unfold metAt found
  rw [hl]
  exact Multiset.singleton_bind ..

theorem metAt_ok (w : Walk) {x : Place} {reading : Reading} (hl : fs.listing x.1 = .ok reading) :
    metAt fs w x = (reading.entries : Multiset Entry).bind (w.meets x) := by
  unfold metAt found
  rw [hl]
  dsimp only
  rw [Multiset.add_bind, met_failure, add_zero, Multiset.bind_map]
  rfl

theorem Rebased.metAt (h : Rebased target target' names) (hd : SameDevice target root root') (rest : List Bytes) :
    metAt fs (start target' root' hash') (Walk.placeOf target' rest) =
      (Walk.metAt fs (start target root hash) (Walk.placeOf target (names ++ rest))).map (Met.rise names.length) := by
  have hpath : (Walk.placeOf target' rest).1 = (Walk.placeOf target (names ++ rest)).1 := by rw [h.placeOf]; rfl
  cases hl : fs.listing (Walk.placeOf target (names ++ rest)).1 with
  | error => rw [metAt_error _ hl, metAt_error _ (hpath ▸ hl), Multiset.map_zero]
  | ok reading =>
    rw [metAt_ok _ hl, metAt_ok _ (hpath ▸ hl), Multiset.map_bind]
    exact Multiset.bind_congr fun e _ => h.meets hd rest e

/-- What is met at a place is at that place. -/
theorem place_metAt {w : Walk} {x : Place} {m : Met} (hm : m ∈ Walk.metAt fs w x) : m.place = x := by
  cases hl : fs.listing x.1 with
  | error =>
    rw [metAt_error w hl] at hm
    exact absurd hm (Multiset.notMem_zero m)
  | ok reading =>
    rw [metAt_ok w hl] at hm
    obtain ⟨e, -, hm⟩ := Multiset.mem_bind.1 hm
    unfold Walk.meets at hm
    split at hm
    · exact absurd hm (Multiset.notMem_zero m)
    · split at hm
      · exact absurd hm (Multiset.notMem_zero m)
      · split at hm
        · exact absurd hm (Multiset.notMem_zero m)
        · rw [Multiset.mem_singleton.1 hm]

/-! ## What it comes upon -/

/-- The walk of the whole goes into the directory that names lead to. -/
def Goes (fs : Frozen) (target : Target) (hash : Bytes → Nat) (names : List Bytes) : Prop :=
  ∃ root begun, fs.stat target.scanPath target.followSymlinks = .ok root ∧ Roams fs (start target root hash) begun ∧
    placeOf target names ∈ begun

/-- Asked for by itself, a directory is what the listing it is in says. -/
def Coherent (fs : Frozen) (follow : Bool) : Prop :=
  ∀ path reading e stat, fs.listing path = .ok reading → e ∈ reading.entries → e.stat = .ok stat → stat.kind = .directory →
    fs.stat (childPath path e.name) follow = .ok stat

/-- The last step to a directory that the walk goes into. -/
theorem Goes.cases (hn : ∀ name ∈ names, ProperName name) {begun : Multiset Place}
    (hb : Roams fs (start target root hash) begun) (ht : Walk.placeOf target names ∈ begun) :
    names = [] ∨ ∃ path reading, fs.listing path = .ok reading ∧ ∃ e ∈ reading.entries, childPath path e.name = DirTree.join target.scanPath names ∧
      ∃ stat, e.stat = .ok stat ∧ stat.kind = .directory ∧ SameDevice target root stat ∧
        (start target root hash).descends names.length = true := by
  rcases hb.mem.1 ht with hroot | ⟨y, hy, hkid⟩
  · left
    have hnil : ∀ name ∈ ([] : List Bytes), ProperName name := fun _ hm => absurd hm List.not_mem_nil
    exact @placeOf_injective target _ _ hn hnil hroot
  · right
    obtain ⟨reading, hl, e, he, hin, hplace⟩ := mem_kids hkid
    obtain ⟨-, -, stat, hs, hdev, hk, hd⟩ := hin
    refine ⟨y.1, reading, hl, e, he, (congrArg Prod.fst hplace).symm, stat, hs, hk, fun hc => ?_, ?_⟩
    · change (target.noCrossFilesystem && decide (stat.dev ≠ root.dev)) = false at hdev
      rw [hc, Bool.true_and, decide_eq_false_iff_not, not_not] at hdev
      exact hdev
    · have hdepth : names.length = (jobAt y).depth + 1 := congrArg Prod.snd hplace
      rw [hdepth]
      exact hd

open Classical in
/-- Where the walk of the subdirectory goes. -/
theorem Rebased.roams (h : Rebased target target' names) (hp : Proper fs) (hn : ∀ name ∈ names, ProperName name)
    (hd : SameDevice target root root') {begun : Multiset Place} (hb : Roams fs (start target root hash) begun)
    (ht : Walk.placeOf target names ∈ begun) :
    Roams fs (start target' root' hash') ((begun.filter fun x => Within target names x.1).map (Place.rise names.length)) := by
  have hkids : ∀ x ∈ begun.filter fun x => Within target names x.1, (start target' root' hash').kids fs (Place.rise names.length x) =
      ((start target root hash).kids fs x).map (Place.rise names.length) := by
    rintro x hx
    obtain ⟨all, ha, rfl⟩ := hb.spelled hp (Multiset.mem_of_mem_filter hx)
    obtain ⟨rest, rfl⟩ := (within_placeOf hn ha).1 (Multiset.mem_filter.1 hx).2
    show _ = ((start target root hash).kids fs (Walk.placeOf target (names ++ rest))).map _
    rw [← h.kids hd rest, h.placeOf]
    rfl
  have htop := h.placeOf []
  rw [List.append_nil] at htop
  unfold Roams
  rw [show (((start target' root' hash').target.scanPath, 0) : Place) = Walk.placeOf target' [] from rfl, htop]
  exact Unfolds.map (hb.within hp hn ht) (Place.rise names.length) hkids

open Classical in
/-- A walk of a subdirectory comes upon what a walk of the whole comes upon within it. -/
theorem Rebased.met (h : Rebased target target' names) (hp : Proper fs) (hn : ∀ name ∈ names, ProperName name)
    (hc : Coherent fs target.followSymlinks) (hg : Goes fs target hash names) {met met' : Multiset Met}
    (hm : MetOn fs target hash met) (hm' : MetOn fs target' hash' met') :
    met' = (met.filter fun m => Within target names m.place.1).map (Met.rise names.length) := by
  obtain ⟨root, begun, hs, hb, ht⟩ := hg
  obtain ⟨root₁, hs₁, hm⟩ := hm
  obtain ⟨root', hs', hm'⟩ := hm'
  rw [hs] at hs₁
  cases hs₁
  -- the subdirectory is read exactly if the whole is, and is on the same device
  have hsub : SameDevice target root root' ∧ (target'.maxDepth = some 0 ↔ target.maxDepth = some 0) := by
    rw [h.scanPath, h.followSymlinks] at hs'
    rw [h.maxDepth]
    rcases Goes.cases hn hb ht with rfl | ⟨path, reading, hl, e, he, hpath, stat, hstat, hk, hd, hdeep⟩
    · change fs.stat target.scanPath _ = _ at hs'
      rw [hs] at hs'
      cases hs'
      refine ⟨fun _ => rfl, ?_⟩
      cases target.maxDepth <;> simp
    · rw [← hpath, hc path reading e stat hl he hstat hk] at hs'
      cases hs'
      refine ⟨hd, ?_⟩
      cases hmax : target.maxDepth with
      | none => simp
      | some cap =>
        have hdescends : (start target root hash).descends names.length = decide (names.length < cap) := by
          have hcap : (start target root hash).target.maxDepth = some cap := hmax
          unfold Walk.descends
          rw [hcap]
        have hlt : names.length < cap := of_decide_eq_true (hdescends.symm.trans hdeep)
        rw [Option.map_some, Option.some.injEq, Option.some.injEq]
        omega
  obtain ⟨hd, hshallow⟩ := hsub
  rcases hm with ⟨hz, rfl⟩ | ⟨hz, begun₁, hb₁, rfl⟩
  · rw [(hm'.resolve_right fun hm' => hm'.1 (hshallow.2 hz)).2]
    rfl
  · obtain ⟨-, begun', hb', rfl⟩ := hm'.resolve_left fun hm' => hz (hshallow.1 hm'.1)
    obtain rfl := hb₁.unique hb
    obtain rfl := (h.roams hp hn hd hb₁ ht).unique hb'
    have hfilter : ((begun₁.bind (found fs)).bind (Event.met (start target root hash))).filter (fun m => Within target names m.place.1) =
        (begun₁.filter fun x => Within target names x.1).bind (Walk.metAt fs (start target root hash)) := by
      rw [Multiset.bind_assoc, Multiset.filter_bind, Multiset.bind_filter]
      refine Multiset.bind_congr fun x _ => ?_
      show (Walk.metAt fs (start target root hash) x).filter _ = _
      split_ifs with hx
      · exact Multiset.filter_eq_self.2 fun m hm => by rw [place_metAt hm]; exact hx
      · exact Multiset.filter_eq_nil.2 fun m hm hin => hx (by rw [place_metAt hm] at hin; exact hin)
    rw [hfilter, Multiset.bind_assoc, Multiset.bind_map, Multiset.map_bind]
    refine Multiset.bind_congr fun x hx => ?_
    obtain ⟨all, ha, rfl⟩ := hb₁.spelled hp (Multiset.mem_of_mem_filter hx)
    obtain ⟨rest, rfl⟩ := (within_placeOf hn ha).1 (Multiset.mem_filter.1 hx).2
    show Walk.metAt fs (start target' root' hash') (Place.rise names.length (Walk.placeOf target (names ++ rest))) = _
    rw [← h.placeOf, h.metAt hd]
    rfl

end Rebased

/-! ## Totals -/

/-- Walks of a file system as it is: of the whole, and of the directory that names lead to. -/
structure Part (fs : Frozen) (host host' : Host) (target target' : Target) (hash : Bytes → Nat) (names : List Bytes) : Prop where
  frozen : host.Frozen fs
  frozen' : host'.Frozen fs
  proper : host.listing.Proper
  proper' : host'.listing.Proper
  coherent : Coherent fs target.followSymlinks
  rebased : Rebased target target' names
  named : ∀ name ∈ names, ProperName name
  goes : Goes fs target hash names
  apart : HashesApart fs target hash
  /-- A multiply linked file with a link there has no link anywhere else. -/
  contained : ∀ met, MetOn fs target hash met → ∀ m ∈ met, ∀ m' ∈ met, m.stat.kind ≠ .directory → 1 < m.stat.nlink →
    (m.stat.dev, m.stat.ino) = (m'.stat.dev, m'.stat.ino) → Within target names m.place.1 → Within target names m'.place.1

/-- What was met by both walks. -/
structure SameEntry (r r' : Tallied) : Prop where
  path : r'.job.path = r.job.path
  name : r'.name = r.name
  stat : r'.stat = r.stat

section SameEntry

variable {r r' : Tallied}

theorem SameEntry.of_met {levels : Nat} (h : r'.met = r.met.rise levels) : SameEntry r r' :=
  ⟨congrArg (fun m : Met => m.place.1) h, congrArg Met.name h, congrArg Met.stat h⟩

theorem SameEntry.inode (h : SameEntry r r') : r'.inode = r.inode := by
  unfold Tallied.inode
  rw [h.stat]

theorem SameEntry.isShared (h : SameEntry r r') : r'.isShared = r.isShared := by
  unfold Tallied.isShared
  rw [h.stat]

theorem SameEntry.key (h : SameEntry r r') {target target' : Target} {root root' : Stat} {hash : Bytes → Nat} :
    r'.key (start target' root' hash) = r.key (start target root hash) := by
  show hash (r'.job.path ++ [slash] ++ r'.name) = hash (r.job.path ++ [slash] ++ r.name)
  rw [h.path, h.name]

end SameEntry

section Part

variable {fs : Frozen} {host host' : Host} {target target' : Target} {hash : Bytes → Nat} {names : List Bytes} {t t' : DirTree}
  {log log' : List Tallied} {won won' : Table Inode (Nat × Link)}

open Classical in
/-- What the walk of the directory met is what that of the whole met in it. -/
theorem Part.met (h : Part fs host host' target target' hash names) (hs : LogScan host target hash t log won)
    (hs' : LogScan host' target' hash t' log' won') : ((log'.map Tallied.met : List Met) : Multiset Met) =
      (((log.map Tallied.met : List Met) : Multiset Met).filter fun m => Within target names m.place.1).map (Met.rise names.length) :=
  h.rebased.met (proper_of_host h.frozen h.proper) h.named h.coherent h.goes (hs.metOn h.frozen) (hs'.metOn h.frozen')

theorem Part.below (h : Part fs host host' target target' hash names) (hs : LogScan host target hash t log won)
    (hs' : LogScan host' target' hash t' log' won') {r : Tallied} (hr : r ∈ log) (hw : Within target names r.job.path) :
    ∃ r' ∈ log', SameEntry r r' := by
  classical
  have hm : r.met.rise names.length ∈ ((log'.map Tallied.met : List Met) : Multiset Met) := by
    rw [h.met hs hs']
    exact Multiset.mem_map_of_mem _ (Multiset.mem_filter.2 ⟨Multiset.mem_coe.2 (List.mem_map_of_mem hr), hw⟩)
  obtain ⟨r', hr', he⟩ := List.mem_map.1 (Multiset.mem_coe.1 hm)
  exact ⟨r', hr', .of_met he⟩

theorem Part.whole (h : Part fs host host' target target' hash names) (hs : LogScan host target hash t log won)
    (hs' : LogScan host' target' hash t' log' won') {r' : Tallied} (hr' : r' ∈ log') :
    ∃ r ∈ log, Within target names r.job.path ∧ SameEntry r r' := by
  classical
  have hm : r'.met ∈ ((log'.map Tallied.met : List Met) : Multiset Met) := Multiset.mem_coe.2 (List.mem_map_of_mem hr')
  rw [h.met hs hs'] at hm
  obtain ⟨m, hm, he⟩ := Multiset.mem_map.1 hm
  obtain ⟨hm, hw⟩ := Multiset.mem_filter.1 hm
  obtain ⟨r, hr, rfl⟩ := List.mem_map.1 (Multiset.mem_coe.1 hm)
  exact ⟨r, hr, hw, .of_met he.symm⟩

/-- A multiply linked file that the walk of the directory counts is counted at the same link by that of the whole. -/
theorem Part.won_agree (h : Part fs host host' target target' hash names) (hs : LogScan host target hash t log won)
    (hs' : LogScan host' target' hash t' log' won') {root root' : Stat} (hl : WonLowest (start target root hash) log won)
    (hl' : WonLowest (start target' root' hash) log' won') {inode : Inode} {winner' : Nat × Link} (hw : won'.get inode = some winner') :
    ∃ r ∈ log, ∃ r' ∈ log', ∃ winner, won.get inode = some winner ∧ r.Carries (start target root hash) winner.2 ∧
      r'.Carries (start target' root' hash) winner'.2 ∧ r.job.path = r'.job.path ∧ r.stat = r'.stat := by
  have hmet := hs.metOn h.frozen
  have hmem : ∀ {r}, r ∈ log → r.met ∈ ((log.map Tallied.met : List Met) : Multiset Met) := fun hr =>
    Multiset.mem_coe.2 (List.mem_map_of_mem hr)
  obtain ⟨r', hr', hshared', rfl, hc'⟩ := hl'.met inode winner' hw
  obtain ⟨q, hq, hin, hsame⟩ := h.whole hs hs' hr'
  obtain ⟨winner, hg, hle⟩ := hl.lowest q hq (hsame.isShared ▸ hshared')
  obtain ⟨r, hr, hshared, hi, hc⟩ := hl.met _ winner hg
  -- the link that the walk of the whole counts is in the directory too
  have hqshared : q.stat.kind ≠ .directory ∧ 1 < q.stat.nlink := by
    have hq' := hsame.isShared ▸ hshared'
    unfold Tallied.isShared at hq'
    rw [Bool.and_eq_true, decide_eq_true_eq, decide_eq_true_eq] at hq'
    exact hq'
  have hrin : Within target names r.job.path := h.contained _ hmet _ (hmem hq) _ (hmem hr) hqshared.1 hqshared.2 hi.symm hin
  obtain ⟨s', hs₁, hsame'⟩ := h.below hs hs' hr hrin
  obtain ⟨winner₁, hg₁, hle'⟩ := hl'.lowest s' hs₁ (hsame'.isShared.trans hshared)
  rw [hsame'.inode, hi, ← hsame.inode, hw] at hg₁
  cases hg₁
  have hkeys : r.key (start target root hash) = q.key (start target root hash) := by
    apply le_antisymm
    · rw [← hc.key]
      exact hle
    · rw [← @SameEntry.key q r' hsame target target' root root' hash, ← hc'.key, ← @SameEntry.key r s' hsame' target target' root root' hash]
      exact hle'
  obtain ⟨hpath, hname⟩ := h.apart _ hmet _ (hmem hr) _ (hmem hq) hi hkeys
  have hstat := hmet.same_stat (proper_of_host h.frozen h.proper) (hmem hr) (hmem hq) hpath hname
  exact ⟨r, hr, r', hr', winner, hsame.inode ▸ hg, hc, hc', hpath.trans hsame.path.symm, hstat.trans hsame.stat.symm⟩

/-- In both trees a directory holds the same paths. -/
theorem Part.inside_iff (h : Part fs host host' target target' hash names) (hs : LogScan host target hash t log won)
    (hs' : LogScan host' target' hash t' log' won') {i i' : Nat} (hc : t.components i = names ++ t'.components i') (path : Bytes) :
    Inside t' i' path ↔ Inside t i path := by
  unfold Inside
  rw [hc, scanRoot_of_logScan hs, scanRoot_of_logScan hs', h.rebased.scanPath]
  simp only [join_join, List.append_assoc]

theorem Inside.within (hs : LogScan host target hash t log won) {i : Nat} {rest : List Bytes} (hc : t.components i = names ++ rest)
    (hr : ∀ name ∈ rest, ProperName name) {path : Bytes} (h : Inside t i path) : Within target names path := by
  obtain ⟨below, hbelow, rfl⟩ := h
  refine ⟨rest ++ below, fun name hn => ?_, by rw [hc, scanRoot_of_logScan hs, List.append_assoc]⟩
  exact (List.mem_append.1 hn).elim (hr name) (hbelow name)

open Classical in
/-- What is added up in a directory does not change by being told from further down. -/
theorem addedUp_rise (met : Multiset Met) (levels : Nat) {P : Met → Prop} {Q : Bytes → Prop} (hin : ∀ m, Q m.place.1 → P m) (c : Component) :
    addedUp ((met.filter P).map (Met.rise levels)) (fun m => Q m.place.1) c = addedUp met (fun m => Q m.place.1) c := by
  have hfilter : ((met.filter P).map (Met.rise levels)).filter (fun m => Q m.place.1) =
      (met.filter fun m => Q m.place.1).map (Met.rise levels) := by
    rw [Multiset.filter_map, Multiset.filter_filter]
    congr 1
    exact Multiset.filter_congr fun m _ => ⟨And.left, fun hq => ⟨hq, hin m hq⟩⟩
  unfold addedUp
  rw [hfilter, Multiset.map_map]
  rfl

open Classical in
/-- A directory tracked by both walks has the same total in both trees, up to the limit of a `u64`. -/
theorem Part.total (h : Part fs host host' target target' hash names) (hs : LogScan host target hash t log won)
    (hs' : LogScan host' target' hash t' log' won') {i i' : Nat} (hi : i < t.nodes.length) (hi' : i' < t'.nodes.length)
    (hc : t.components i = names ++ t'.components i') (c : Component) :
    min ((t'.node i').sub.get c) u64Max = min ((t.node i).sub.get c) u64Max := by
  obtain ⟨root, handle, n, b, data, -, hb, -⟩ := hs.started
  obtain ⟨root', handle', n', b', data', -, hb', -⟩ := hs'.started
  have halive := (hb.fresh h.proper).alive i hi
  have halive' := (hb'.fresh h.proper').alive i' hi'
  have hbelow : ∀ name ∈ t'.components i', ProperName name :=
    fun name => (hb'.fresh h.proper').shape.components_proper (hb'.fresh h.proper').names halive' name
  have habove : ∀ r ∈ log, Above t.parentOf i r.job.node ↔ Inside t i r.met.place.1 := fun r hr => hb.above_iff h.proper hr halive
  have habove' : ∀ r ∈ log', Above t'.parentOf i' r.job.node ↔ Inside t i r.met.place.1 := fun r hr =>
    (hb'.above_iff h.proper' hr halive').trans (h.inside_iff hs hs' hc _)
  -- a file won outside the directory counts for nothing in it
  have hout : ∀ inode winner, won.get inode = some winner → won'.get inode = none →
      (if Above t.parentOf i winner.2.node then sizeAt winner.2.blocks winner.2.apparent c else 0) = 0 := by
    rintro inode winner hg hnone
    rw [if_neg]
    rintro ha
    obtain ⟨r, hr, hshared, rfl, hcar⟩ := hb.lowest.met inode winner hg
    rw [hcar.node, habove r hr] at ha
    obtain ⟨r', hr', hsame⟩ := h.below hs hs' hr (ha.within hs hc hbelow)
    obtain ⟨winner', hg', -⟩ := hb'.lowest.lowest r' hr' (hsame.isShared.trans hshared)
    rw [hsame.inode, hnone] at hg'
    cases hg'
  have hwon : wonBelow t' won' i' c = wonBelow t won i c := by
    let there : Table Inode (Nat × Link) := won.retain fun inode winner => if won'.get inode = none then none else some winner
    have hkept : there.total (fun _ winner => if Above t.parentOf i winner.2.node then sizeAt winner.2.blocks winner.2.apparent c else 0) =
        won.total fun _ winner => if Above t.parentOf i winner.2.node then sizeAt winner.2.blocks winner.2.apparent c else 0 := by
      rw [Table.total_retain]
      apply Table.total_congr
      rintro inode winner hg
      by_cases hnone : won'.get inode = none
      · rw [if_pos hnone, hout inode winner hg hnone]
        rfl
      · rw [if_neg hnone]
        rfl
    rw [wonBelow_eq, wonBelow_eq, ← hkept]
    apply Table.total_eq
    rintro inode
    rw [Table.get_retain]
    cases hg' : won'.get inode with
    | none =>
      cases won.get inode with
      | none => rfl
      | some winner => rw [Option.bind_some, if_pos rfl]; rfl
    | some winner' =>
      obtain ⟨r, hr, r', hr', winner, hg, hcar, hcar', hpath, hstat⟩ := h.won_agree hs hs' hb.lowest hb'.lowest hg'
      have hiff : Above t'.parentOf i' winner'.2.node ↔ Above t.parentOf i winner.2.node := by
        rw [hcar.node, hcar'.node, habove r hr, habove' r' hr']
        show Inside t i r'.job.path ↔ Inside t i r.job.path
        rw [hpath]
      rw [hg, Option.bind_some, if_neg (by simp), Option.map_some, Option.map_some]
      congr 1
      rw [hcar.blocks, hcar.apparent, hcar'.blocks, hcar'.apparent, hstat]
      by_cases ha : Above t.parentOf i winner.2.node
      · rw [if_pos ha, if_pos (hiff.2 ha)]
      · rw [if_neg ha, if_neg fun ha' => ha (hiff.1 ha')]
  rw [hs.total h.proper hi c, hs'.total h.proper' hi' c, amounts_filter log (Q := fun m => Inside t i m.place.1) habove,
    amounts_filter log' (Q := fun m => Inside t i m.place.1) habove', hwon, h.met hs hs',
    addedUp_rise _ _ (Q := Inside t i) fun m hin => hin.within hs hc hbelow]

end Part

end Walk

end StorageHarvester
