/-
Whether one target's walk reaches another target's root (`walks_into` in `src/atlas.rs`): the filters of
the walk, asked component by component without walking. Where the outer target reads its root, no depth
limit is met on the way and symlinks stay on their device, the answer is that of the walk, except that a
directory is not counted as reached if a file in it would be left out.
-/
import StorageHarvester.Config.Resolve
import StorageHarvester.Scan.Reach

namespace StorageHarvester.Atlas

open Config (pushPath)
open Walk

/-- `.storage-harvester-probe` -/
def probe : Bytes := ascii ".storage-harvester-probe"

/-- The components left, one after the other: the path shown of the last, if none is in the way. -/
def walkDown (fs : FileTree) (outer : Target) (rootDev : Option Nat) : List PathComponent → Bytes → Bytes → Option Bytes
  | [], display, _ => some display
  | part :: rel, display, scan =>
    let display := pushPath display part.bytes
    let scan := pushPath scan part.bytes
    if outer.exclude.isMatch display then none
    else match fs.lstat scan with
      | .error _ => none
      | .ok stat =>
        if stat.kind = .symlink && !outer.followSymlinks then none
        else if outer.noCrossFilesystem && rootDev.isSome && some stat.dev ≠ rootDev then none
        else walkDown fs outer rootDev rel display scan

/-- Whether a walk of `outer` reaches the root of `inner`. `dir/**` excludes everything in `dir`, but not
`dir` itself. -/
def walksInto (fs : FileTree) (outer inner : Target) : Bool :=
  match stripPrefix (pathComponents inner.displayPath) (pathComponents outer.displayPath) with
  | none => false
  | some rel =>
    let rootDev := (fs.stat outer.scanPath).toOption.map Stat.dev
    match walkDown fs outer rootDev rel outer.displayPath outer.scanPath with
    | none => false
    | some display => !outer.exclude.isMatch (pushPath display probe)

/-! ## Component by component -/

/-- A compiled exclude set without rules matches nothing. -/
def Lawful (g : GlobSet) : Prop := g.isEmpty = true → ∀ path, g.isMatch path = false

section Down

variable {fs : FileTree} {outer : Target} {rootDev : Option Nat}

theorem pushPath_proper {path name : Bytes} (hp : path ≠ []) (hn : ProperName name) : pushPath path name = pushComponent path name := by
  have hrel : Config.isAbsolute name = false := by
    unfold Config.isAbsolute
    cases name with
    | nil => rfl
    | cons b name =>
      have : b ≠ slash := fun he => hn.2.1 (he ▸ List.mem_cons_self ..)
      simpa using this
  unfold pushPath
  rw [hrel, if_neg (by simpa using hp)]

theorem pushComponent_ne_nil (path : Bytes) {name : Bytes} (hn : name ≠ []) : pushComponent path name ≠ [] :=
  fun he => hn (List.append_eq_nil_iff.1 he).2

theorem join_ne_nil {path : Bytes} (hp : path ≠ []) (names : List Bytes) (hn : ∀ name ∈ names, ProperName name) :
    DirTree.join path names ≠ [] := by
  induction names using List.reverseRecOn with
  | nil => exact hp
  | append_singleton names name ih =>
    rw [join_snoc]
    exact pushComponent_ne_nil _ (hn name (by simp)).1

/-- The last component is asked about where the others lead. -/
theorem walkDown_snoc (name : Bytes) (hn : ProperName name) : ∀ (names : List Bytes) {display scan : Bytes}, display ≠ [] → scan ≠ [] →
    (∀ n ∈ names, ProperName n) →
    walkDown fs outer rootDev ((names ++ [name]).map .normal) display scan =
      match walkDown fs outer rootDev (names.map .normal) display scan with
      | none => none
      | some _ => walkDown fs outer rootDev [.normal name] (DirTree.join display names) (DirTree.join scan names)
  | [], display, scan, _, _, _ => rfl
  | n :: names, display, scan, hd, hs, hp => by
    have hproper := hp n (List.mem_cons_self ..)
    have hdisplay : pushPath display n = pushComponent display n := pushPath_proper hd hproper
    have hscan : pushPath scan n = pushComponent scan n := pushPath_proper hs hproper
    rw [List.cons_append, List.map_cons, List.map_cons, walkDown, walkDown]
    show (if outer.exclude.isMatch (pushPath display n) then none else _) = _
    rw [show PathComponent.bytes (.normal n) = n from rfl, hdisplay, hscan]
    split
    · rfl
    · split
      · rfl
      · split
        · rfl
        · split
          · rfl
          · exact walkDown_snoc name hn names (pushComponent_ne_nil _ hproper.1) (pushComponent_ne_nil _ hproper.1)
              fun n hm => hp n (List.mem_cons_of_mem _ hm)

/-- What is asked about one component. -/
theorem walkDown_single {name display scan r : Bytes} (hn : ProperName name) (hd : display ≠ []) (hs : scan ≠ []) :
    walkDown fs outer rootDev [.normal name] display scan = some r ↔
      r = pushComponent display name ∧ outer.exclude.isMatch (pushComponent display name) = false ∧
        ∃ l, fs.lstat (pushComponent scan name) = .ok l ∧ (l.kind = .symlink → outer.followSymlinks = true) ∧
          (outer.noCrossFilesystem = true → rootDev.isSome = true → some l.dev = rootDev) := by
  rw [walkDown]
  show (if outer.exclude.isMatch (pushPath display name) then none else _) = _ ↔ _
  rw [show PathComponent.bytes (.normal name) = name from rfl, pushPath_proper hd hn, pushPath_proper hs hn]
  cases hx : outer.exclude.isMatch (pushComponent display name) with
  | true => simp
  | false =>
    cases hl : fs.lstat (pushComponent scan name) with
    | error error => simp
    | ok l =>
      by_cases hlink : l.kind = .symlink ∧ outer.followSymlinks = false
      · simp [hlink.1, hlink.2]
      · by_cases hdev : outer.noCrossFilesystem = true ∧ rootDev.isSome = true ∧ some l.dev ≠ rootDev
        · simp [hdev.1, hdev.2.1, hdev.2.2]
        · have hfollow : l.kind = .symlink → outer.followSymlinks = true := fun hk => by
            by_contra hf
            exact hlink ⟨hk, by simpa using hf⟩
          have hstay : outer.noCrossFilesystem = true → rootDev.isSome = true → some l.dev = rootDev := fun hc hr => by
            by_contra hne
            exact hdev ⟨hc, hr, hne⟩
          have hpass : (decide (l.kind = .symlink) && !outer.followSymlinks) = false := by
            by_cases hk : l.kind = .symlink
            · simp [hfollow hk]
            · simp [hk]
          have hpass' : (outer.noCrossFilesystem && rootDev.isSome && decide (some l.dev ≠ rootDev)) = false := by
            cases hc : outer.noCrossFilesystem
            · rfl
            · cases hr : rootDev.isSome
              · rfl
              · simp [hstay hc hr]
          simp only [hpass, hpass', Bool.false_eq_true, if_false, walkDown, Option.some.injEq]
          constructor
          · rintro rfl
            exact ⟨rfl, trivial, l, rfl, hfollow, hstay⟩
          · rintro ⟨rfl, -⟩
            rfl

end Down

/-! ## Below the outer root -/

/-- The root of a target is the directory that `names` lead to below another's. -/
structure Below (fs : FileTree) (outer inner : Target) (names : List Bytes) : Prop where
  absolute : Config.isAbsolute outer.displayPath = true
  proper : ∀ name ∈ names, ProperName name
  placed : inner.displayPath = DirTree.join outer.displayPath names
  directory : ∃ s, fs.stat (DirTree.join outer.scanPath names) = .ok s ∧ s.kind = .directory

/-- No symlink followed on the way leads off its device, where the walk stays on one. -/
def LinksStay (fs : FileTree) (outer : Target) (names : List Bytes) : Prop :=
  outer.followSymlinks = true → outer.noCrossFilesystem = true → ∀ init, init <+: names → ∀ l s,
    fs.lstat (DirTree.join outer.scanPath init) = .ok l → fs.stat (DirTree.join outer.scanPath init) = .ok s → l.dev = s.dev

section Below

variable {fs : FileTree} {outer inner : Target} {hash : Bytes → Nat} {root : Stat} {names : List Bytes}

theorem stat_root (hr : Reads fs outer hash root []) : fs.stat outer.scanPath = .ok root := by
  have hfound := hr.found
  unfold FileTree.look at hfound
  split at hfound
  · exact hfound
  · exact fs.plain _ _ hfound (by rw [hr.directory]; exact nofun)

theorem scanPath_ne_nil (hr : Reads fs outer hash root []) : outer.scanPath ≠ [] := by
  intro he
  obtain ⟨l, hl⟩ := (fs.below _ _ (stat_root hr)).2
  rw [he] at hl
  exact fs.named l hl

/-- The directories above one that is there are there. -/
theorem directory_above {base : Bytes} (hb : base ≠ []) {names : List Bytes} {name : Bytes} (hp : ∀ n ∈ names ++ [name], ProperName n)
    (h : ∃ s, fs.stat (DirTree.join base (names ++ [name])) = .ok s ∧ s.kind = .directory) :
    ∃ s, fs.stat (DirTree.join base names) = .ok s ∧ s.kind = .directory := by
  obtain ⟨s, hs, -⟩ := h
  obtain ⟨l, hl⟩ := (fs.below _ _ hs).2
  rw [join_snoc] at hl
  exact fs.above _ name l (join_ne_nil hb names fun n hn => hp n (List.mem_append_left _ hn)) (hp name (by simp)) hl

/-- Where a directory is, what is asked about the last component is what the walk asks. -/
theorem kept_iff (hash : Bytes → Nat) (root : Stat) (hg : Lawful outer.exclude) {name : Bytes} (hp : ∀ n ∈ names ++ [name], ProperName n)
    (hdir : ∃ s, fs.stat (DirTree.join outer.scanPath (names ++ [name])) = .ok s ∧ s.kind = .directory)
    (hdepth : ∀ depth, outer.maxDepth = some depth → names.length + 1 < depth) (hlink : LinksStay fs outer (names ++ [name])) :
    (start outer root hash).Kept fs names name ↔
      outer.exclude.isMatch (DirTree.join outer.displayPath (names ++ [name])) = false ∧
        ∃ l, fs.lstat (DirTree.join outer.scanPath (names ++ [name])) = .ok l ∧ (l.kind = .symlink → outer.followSymlinks = true) ∧
          (outer.noCrossFilesystem = true → l.dev = root.dev) := by
  obtain ⟨s, hs, hk⟩ := hdir
  have hmatch : ∀ path, (!outer.exclude.isEmpty && outer.exclude.isMatch path) = false ↔ outer.exclude.isMatch path = false := by
    intro path
    cases he : outer.exclude.isEmpty with
    | true => simp [hg he path]
    | false => simp
  constructor
  · rintro ⟨hproper, hshown, ⟨stat, hlook, hdev, hd⟩, -⟩
    refine ⟨(hmatch _).1 hshown, ?_⟩
    have hdev : outer.noCrossFilesystem = true → stat.dev = root.dev := fun hc => by
      have hdev : (outer.noCrossFilesystem && decide (stat.dev ≠ root.dev)) = false := hdev
      simpa [hc] using hdev
    unfold FileTree.look at hlook
    split at hlook
    · rename_i hf
      have hf : outer.followSymlinks = true := hf
      cases hs.symm.trans hlook
      obtain ⟨l, hl⟩ := (fs.below _ _ hs).2
      refine ⟨l, hl, fun _ => hf, fun hc => ?_⟩
      rw [hlink hf hc _ (List.prefix_refl _) l s hl hs]
      exact hdev hc
    · exact ⟨stat, hlook, (fun hsym => by cases hd.symm.trans hsym), hdev⟩
  · rintro ⟨hx, l, hl, hfollow, hdev⟩
    have hlook : ∃ stat, fs.look outer.followSymlinks (DirTree.join outer.scanPath (names ++ [name])) = .ok stat ∧
        (outer.noCrossFilesystem = true → stat.dev = root.dev) ∧ stat.kind = .directory := by
      unfold FileTree.look
      cases hf : outer.followSymlinks with
      | true => exact ⟨s, hs, fun hc => (hlink hf hc _ (List.prefix_refl _) l s hl hs) ▸ hdev hc, hk⟩
      | false =>
        have hno : l.kind ≠ .symlink := fun hsym => by rw [hfollow hsym] at hf; cases hf
        cases (fs.plain _ l hl hno).symm.trans hs
        exact ⟨s, hl, hdev, hk⟩
    obtain ⟨stat, hlook, hdev, hd⟩ := hlook
    refine ⟨hp name (by simp), (hmatch _).2 hx, ⟨stat, hlook, ?_, hd⟩, ?_⟩
    · show (outer.noCrossFilesystem && decide (stat.dev ≠ root.dev)) = false
      cases hc : outer.noCrossFilesystem with
      | false => rfl
      | true => simp [hdev hc]
    · show descends _ _ = true
      unfold descends
      cases hm : (start outer root hash).target.maxDepth with
      | none => rfl
      | some depth => exact decide_eq_true (hdepth depth hm)

/-- The components pass exactly if the walk goes into each of them. -/
theorem walkDown_iff (hg : Lawful outer.exclude) (ha : Config.isAbsolute outer.displayPath = true) (hr : Reads fs outer hash root []) :
    ∀ (names : List Bytes), (∀ n ∈ names, ProperName n) →
      (∃ s, fs.stat (DirTree.join outer.scanPath names) = .ok s ∧ s.kind = .directory) →
      (∀ depth, outer.maxDepth = some depth → names.length < depth) → LinksStay fs outer names → ∀ r,
      (walkDown fs outer (some root.dev) (names.map .normal) outer.displayPath outer.scanPath = some r ↔
        r = DirTree.join outer.displayPath names ∧ (start outer root hash).Leads fs names) := by
  have hd : outer.displayPath ≠ [] := fun he => by rw [he] at ha; cases ha
  have hs := scanPath_ne_nil hr
  intro names
  induction names using List.reverseRecOn with
  | nil =>
    intro _ _ _ _ r
    show some outer.displayPath = some r ↔ _
    rw [Option.some.injEq]
    exact ⟨fun he => ⟨he.symm, .nil⟩, fun he => he.1.symm⟩
  | append_singleton names name ih =>
    intro hp hdir hdepth hlink r
    have hpn : ∀ n ∈ names, ProperName n := fun n hn => hp n (List.mem_append_left _ hn)
    have hname := hp name (by simp)
    rw [List.length_append] at hdepth
    have hkept := kept_iff hash root hg hp hdir hdepth hlink
    have hbefore := ih hpn (directory_above hs hp hdir) (fun depth hm => Nat.lt_of_succ_lt (hdepth depth hm))
      fun hf hc init hi => hlink hf hc init (hi.trans (List.prefix_append _ _))
    have hsingle : ∀ r, walkDown fs outer (some root.dev) [.normal name] (DirTree.join outer.displayPath names)
        (DirTree.join outer.scanPath names) = some r ↔
          r = DirTree.join outer.displayPath (names ++ [name]) ∧ (start outer root hash).Kept fs names name := by
      intro r
      rw [walkDown_single hname (join_ne_nil hd names hpn) (join_ne_nil hs names hpn), hkept, join_snoc, join_snoc]
      simp only [Option.isSome_some, Option.some.injEq, forall_const]
    rw [walkDown_snoc name hname names hd hs hpn]
    constructor
    · intro h
      split at h
      · cases h
      · rename_i d hdown
        obtain ⟨-, hl⟩ := (hbefore d).1 hdown
        obtain ⟨hr, hk⟩ := (hsingle r).1 h
        exact ⟨hr, hl.snoc hk⟩
    · rintro ⟨hr, hl⟩
      obtain ⟨hl, hk⟩ := hl.unsnoc
      rw [(hbefore _).2 ⟨rfl, hl⟩]
      exact (hsingle r).2 ⟨hr, hk⟩

end Below

/-- Where a scan of the outer target reads its root, the depth limit is not met on the way and links stay
on their device, `walks_into` holds exactly if the scan reads the inner root and would not leave out a
file in it. -/
theorem walksInto_iff {host : Host} {fs : FileTree} {outer inner : Target} {hash : Bytes → Nat} {opened : Bytes → Prop}
    {names : List Bytes} (hs : host.Shows fs outer.followSymlinks) (ho : OpenScan host outer hash opened)
    (hg : Lawful outer.exclude) (hb : Below fs outer inner names) (hroot : opened outer.scanPath)
    (hdepth : ∀ depth, outer.maxDepth = some depth → names.length < depth) (hlink : LinksStay fs outer names) :
    walksInto fs outer inner = true ↔
      opened (DirTree.join outer.scanPath names) ∧ outer.exclude.isMatch (pushPath inner.displayPath probe) = false := by
  obtain ⟨root, names', hr, hpath⟩ := (ho.opened_iff hs outer.scanPath).1 hroot
  have hnil : names' = [] := (@join_injective _ [] _ (fun _ hm => absurd hm List.not_mem_nil) hr.leads.proper hpath).symm
  rw [hnil] at hr
  have hopened : opened (DirTree.join outer.scanPath names) ↔ (start outer root hash).Leads fs names := by
    rw [ho.opened_iff hs]
    constructor
    · rintro ⟨root', names', hr', hpath⟩
      cases hr.found.symm.trans hr'.found
      rw [join_injective hb.proper hr'.leads.proper hpath]
      exact hr'.leads
    · exact fun hl => ⟨root, names, ⟨hr.found, hr.directory, hr.shown, hr.deep, hl⟩, rfl⟩
  have hstrip : stripPrefix (pathComponents inner.displayPath) (pathComponents outer.displayPath) = some (names.map .normal) := by
    have habs : outer.displayPath.head? = some slash := by simpa [Config.isAbsolute] using hb.absolute
    rw [stripPrefix_eq_some, hb.placed]
    exact pathComponents_foldl_push names habs hb.proper
  have hdown := walkDown_iff hg hb.absolute hr names hb.proper hb.directory hdepth hlink
  have hdev : (fs.stat outer.scanPath).toOption.map Stat.dev = some root.dev := by rw [stat_root hr]; rfl
  unfold walksInto
  rw [hstrip, hopened]
  dsimp only
  rw [hdev]
  cases hw : walkDown fs outer (some root.dev) (names.map .normal) outer.displayPath outer.scanPath with
  | none =>
    refine ⟨(fun h => by cases h), fun ⟨hl, _⟩ => ?_⟩
    rw [(hdown _).2 ⟨rfl, hl⟩] at hw
    cases hw
  | some display =>
    obtain ⟨rfl, hl⟩ := (hdown display).1 hw
    dsimp only
    rw [hb.placed, Bool.not_eq_true']
    exact ⟨fun h => ⟨hl, h⟩, And.right⟩

/-! ## A directory whose files are left out -/

/-- `/`, `/d` and `/d/x`, by their components. -/
def nestedDirs : List (List PathComponent) := [[], [.normal [100]], [.normal [100], .normal [120]]]

def nestedStat : Stat := { kind := .directory, dev := 1, ino := 2, nlink := 2, blocks := 4096, size := 4096, mtime := 0 }

def nestedLook (path : Bytes) : Except Errno Stat :=
  if Config.isAbsolute path && nestedDirs.contains (pathBody path) then .ok nestedStat else .error .enoent

theorem nestedLook_ok {path : Bytes} {s : Stat} (h : nestedLook path = .ok s) :
    Config.isAbsolute path = true ∧ pathBody path ∈ nestedDirs ∧ s = nestedStat := by
  unfold nestedLook at h
  split at h
  · rename_i hc
    rw [Bool.and_eq_true, List.contains_iff_mem] at hc
    cases h
    exact ⟨hc.1, hc.2, rfl⟩
  · cases h

/-- What is above a directory of these. -/
theorem nested_above {path name : Bytes} {s : Stat} (hp : path ≠ []) (hn : ProperName name)
    (h : nestedLook (pushComponent path name) = .ok s) :
    nestedLook path = .ok nestedStat ∧ (pathBody path = [] ∧ name = [100] ∨ pathBody path = [.normal [100]] ∧ name = [120]) := by
  obtain ⟨ha, hm, -⟩ := nestedLook_ok h
  rw [pathBody_pushComponent path hn] at hm
  have hhead : Config.isAbsolute path = true := by
    unfold Config.isAbsolute at ha ⊢
    unfold pushComponent at ha
    cases path with
    | nil => exact absurd rfl hp
    | cons b path =>
      split at ha
      · exact ha
      · exact ha
  have hcases : pathBody path = [] ∧ name = [100] ∨ pathBody path = [.normal [100]] ∧ name = [120] := by
    simp only [nestedDirs, List.mem_cons, List.not_mem_nil, or_false] at hm
    rcases hm with hm | hm | hm
    · exact absurd hm (by simp)
    · obtain ⟨hbody, hname⟩ := List.append_inj' (show _ = [] ++ [PathComponent.normal [100]] from hm) rfl
      cases hname
      exact .inl ⟨hbody, rfl⟩
    · obtain ⟨hbody, hname⟩ := List.append_inj' (show _ = [PathComponent.normal [100]] ++ [PathComponent.normal [120]] from hm) rfl
      cases hname
      exact .inr ⟨hbody, rfl⟩
  refine ⟨?_, hcases⟩
  unfold nestedLook
  rw [hhead]
  rcases hcases with ⟨hb, -⟩ | ⟨hb, -⟩
  · rw [hb]
    rfl
  · rw [hb]
    rfl

def nestedTree : FileTree where
  lstat := nestedLook
  stat := nestedLook
  plain _ _ h _ := h
  named s h := by cases h
  above path name s hp hn h := ⟨_, (nested_above hp hn h).1, rfl⟩
  below path s h := ⟨by rw [(nestedLook_ok h).2.2]; exact nofun, s, h⟩

def nestedEntries (body : List PathComponent) : List Entry :=
  if body = [] then [⟨[100], .ok nestedStat, none⟩]
  else if body = [.normal [100]] then [⟨[120], .ok nestedStat, none⟩]
  else []

def nestedListing (path : Bytes) : Except Errno Reading :=
  (nestedLook path).map fun _ => { entries := nestedEntries (pathBody path), fail := none }

def nestedHost : Host where
  stat path _ answer := answer = nestedLook path
  handle _ handle := handle = none
  listing path answer := answer = nestedListing path
  answers _ := ⟨_, rfl⟩

/-- `/d/x/**` -/
def filesRule : GlobSet := { isEmpty := false, isMatch := fun path => path.take 5 = [47, 100, 47, 120, 47] }

/-- `/d`, with that rule. -/
def nestedOuter : Target := { emptyWalk.target with exclude := filesRule }

/-- `/d/x` -/
def nestedInner : Target := { emptyWalk.target with displayPath := [47, 100, 47, 120], scanPath := [47, 100, 47, 120] }

theorem nested_look (follow : Bool) (path : Bytes) : nestedTree.look follow path = nestedLook path := by
  unfold FileTree.look
  split <;> rfl

theorem nested_shows (follow : Bool) : nestedHost.Shows nestedTree follow := by
  refine ⟨fun path answer h => h.trans (nested_look follow path).symm, fun path s hs _ answer ha => ?_⟩
  rw [nested_look] at hs
  obtain ⟨habs, hm, rfl⟩ := nestedLook_ok hs
  have hhead : path.head? = some slash := by simpa [Config.isAbsolute] using habs
  have hread : nestedListing path = .ok { entries := nestedEntries (pathBody path), fail := none } := by
    unfold nestedListing
    rw [hs]
    rfl
  refine ⟨_, ha.trans hread, rfl, fun e he => .inr ?_, fun name hn ⟨s, hl⟩ => ?_⟩
  · have hbelow : ∀ name, ProperName name → pathBody path ++ [.normal name] ∈ nestedDirs →
        nestedTree.look follow (pushComponent path name) = .ok nestedStat := by
      intro name hn hmem
      have habs' : Config.isAbsolute (pushComponent path name) = true := by
        unfold Config.isAbsolute
        rw [head?_pushComponent hhead]
        rfl
      rw [nested_look]
      unfold nestedLook
      rw [habs', pathBody_pushComponent path hn, List.contains_iff_mem.2 hmem]
      rfl
    dsimp only at he
    unfold nestedEntries at he
    split at he
    · rename_i hbody
      rw [List.mem_singleton.1 he]
      have hn : ProperName [100] := by decide
      exact ⟨hn, (hbelow [100] hn (by rw [hbody]; decide)).symm⟩
    · split at he
      · rename_i hbody
        rw [List.mem_singleton.1 he]
        have hn : ProperName [120] := by decide
        exact ⟨hn, (hbelow [120] hn (by rw [hbody]; decide)).symm⟩
      · cases he
  · have hp : path ≠ [] := fun he => by rw [he] at hhead; cases hhead
    rcases (nested_above hp hn hl).2 with ⟨hbody, rfl⟩ | ⟨hbody, rfl⟩
    · exact ⟨_, by dsimp only; rw [hbody]; exact List.mem_singleton_self _, rfl⟩
    · exact ⟨_, by dsimp only; rw [hbody]; exact List.mem_singleton_self _, rfl⟩

/-- A scan of `/d` opens `/d` and `/d/x`, whatever is left out below. -/
theorem nested_scan : ∃ opened, OpenScan nestedHost nestedOuter List.length opened ∧
    opened (DirTree.join nestedOuter.scanPath []) ∧ opened (DirTree.join nestedOuter.scanPath [[120]]) := by
  have h0 : Walking nestedHost (start nestedOuter nestedStat List.length) nestedStat none (n := 0) _ := .initial false
  have h1 := WorkPool.Reachable.step h0 (.worker (.spawnDone (i := 0) rfl (by decide)))
  have h2 := WorkPool.Reachable.step h1 (.worker (.retire (i := 0) rfl))
  have h3 := WorkPool.Reachable.step h2 (.worker (.more (i := 0) rfl (.opened rfl)))
  have h4 := WorkPool.Reachable.step h3 (.worker (.more (i := 0) rfl (.entry rfl rfl)))
  have h5 := WorkPool.Reachable.step h4 (.worker (.done (i := 0) rfl (.closed rfl rfl)))
  have h6 := WorkPool.Reachable.step h5 (.worker (.keep (i := 0) rfl))
  have h7 := WorkPool.Reachable.step h6 (.worker (.more (i := 0) rfl (.opened rfl)))
  have h8 := WorkPool.Reachable.step h7 (.worker (.done (i := 0) rfl (.closed rfl rfl)))
  have h9 := WorkPool.Reachable.step h8 (.worker (.retire (i := 0) rfl))
  have hscan : Scans nestedHost nestedOuter List.length (.ok _) :=
    .walked rfl rfl rfl (show RootHandle nestedHost nestedOuter none from rfl) (by decide) (by decide) rfl h9 (by decide)
  obtain ⟨opened, ho⟩ := openScan_of_scan hscan
  have hroot : Reads nestedTree nestedOuter List.length nestedStat [] := ⟨rfl, rfl, rfl, by decide, .nil⟩
  have hkept : (start nestedOuter nestedStat List.length).Kept nestedTree [] [120] :=
    ⟨by decide, by decide, ⟨nestedStat, rfl, rfl, rfl⟩, rfl⟩
  have hbelow : Reads nestedTree nestedOuter List.length nestedStat [[120]] :=
    ⟨hroot.found, hroot.directory, hroot.shown, hroot.deep, .snoc .nil hkept⟩
  exact ⟨opened, ho, (ho.opened_iff (nested_shows _) _).2 ⟨_, [], hroot, rfl⟩,
    (ho.opened_iff (nested_shows _) _).2 ⟨_, [[120]], hbelow, rfl⟩⟩

theorem nested_below (names : List Bytes) (inner : Target) (hp : ∀ name ∈ names, ProperName name)
    (hi : inner.displayPath = DirTree.join nestedOuter.displayPath names)
    (hd : nestedLook (DirTree.join nestedOuter.scanPath names) = .ok nestedStat) : Below nestedTree nestedOuter inner names :=
  ⟨rfl, hp, hi, _, hd, rfl⟩

/-- The scan reads `/d/x` only to leave out all its files, and `walks_into` says it is not reached. -/
theorem walksInto_left_out : ¬∀ (host : Host) (fs : FileTree) (outer inner : Target) (hash : Bytes → Nat) (opened : Bytes → Prop)
    (names : List Bytes), host.Shows fs outer.followSymlinks → OpenScan host outer hash opened → Lawful outer.exclude →
    Below fs outer inner names → (walksInto fs outer inner = true ↔ opened (DirTree.join outer.scanPath names)) := by
  intro h
  obtain ⟨opened, ho, -, hopened⟩ := nested_scan
  have hwalks := (h _ _ _ nestedInner _ opened [[120]] (nested_shows _) ho nofun (nested_below _ _ (by decide) rfl rfl)).2 hopened
  exact absurd hwalks (by decide)

/-- `/d` is reached from itself; `/d/x` is read, but counts as not reached. -/
theorem walksInto_iff_nested :
    (∃ opened : Bytes → Prop, (walksInto nestedTree nestedOuter nestedOuter = true ↔ opened [47, 100] ∧
      nestedOuter.exclude.isMatch (pushPath nestedOuter.displayPath probe) = false) ∧ opened [47, 100]) ∧
    ∃ opened : Bytes → Prop, (walksInto nestedTree nestedOuter nestedInner = true ↔ opened [47, 100, 47, 120] ∧
      nestedOuter.exclude.isMatch (pushPath nestedInner.displayPath probe) = false) ∧ opened [47, 100, 47, 120] := by
  obtain ⟨opened, ho, hroot, hopened⟩ := nested_scan
  have hlink : ∀ names, LinksStay nestedTree nestedOuter names := fun _ hf => by cases hf
  exact ⟨⟨opened, walksInto_iff (nested_shows _) ho nofun (nested_below [] nestedOuter (by decide) rfl rfl) hroot nofun (hlink _), hroot⟩,
    ⟨opened, walksInto_iff (nested_shows _) ho nofun (nested_below [[120]] nestedInner (by decide) rfl rfl) hroot nofun (hlink _),
      hopened⟩⟩

end StorageHarvester.Atlas
