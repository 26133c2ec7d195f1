/-
Where a scanned path is (`locate` of `src/fsinfo.rs`): on which file system, and where inside it, as the mounts
of `/proc/self/mountinfo` tell. The kernel shows at a path what was mounted last over it, the code takes the
longest mount point. The two are the same as long as no mount over the path is hidden by a later one at a shorter
point; then two paths have one place exactly if they show one directory. Where no mount is told of, the device
number stands in.
-/
import StorageHarvester.Fsinfo.Disks
import StorageHarvester.Live.Mountinfo

namespace StorageHarvester.Fsinfo

open Mountinfo (escape)
open Text (splitOnce splitOnce_skip)

/-! ## The lookup -/

structure Mount where
  id : Bytes
  root : Bytes
  point : Bytes
  fstype : Bytes

/-- Between the fields of a mount and those of its file system. -/
def dash : Bytes := [32, 45, 32]

/-- A line of `parse_mountinfo`. -/
def parseLine (line : Bytes) : Option Mount := do
  let (left, right) ← splitOnce dash line
  let fields := left.splitOn 32
  let fstype ← (right.splitOn 32).head?
  let id ← fields[2]?
  let root ← Mountinfo.Fsinfo.unescape (← fields[3]?)
  let point ← Mountinfo.Fsinfo.unescape (← fields[4]?)
  return { id, root, point, fstype }

def parseMountinfo (text : Bytes) : List Mount := (Text.lines text).filterMap parseLine

def normalName : PathComponent → Option Bytes
  | .normal name => some name
  | _ => none

/-- An absolute path, of its names. -/
def pathText (names : List Bytes) : Bytes := names.foldl pushComponent [slash]

/-- `normalize`, of a path's components. -/
def normalize (path : List PathComponent) : Bytes := Utf8.lossy (pathText (path.filterMap normalName))

/-- `Path::join`, of components: an absolute path replaces what it is joined to. -/
def joined (base rest : List PathComponent) : List PathComponent := if rest.head? = some .rootDir then rest else base ++ rest

structure FsLocation where
  id : Bytes
  fstype : Bytes
  mount : Bytes
  fsPath : Bytes
  disks : List Bytes
  deriving DecidableEq

def hostPath (path hostRoot : Bytes) : Bytes :=
  let relative := (stripPrefix (pathComponents path) (pathComponents hostRoot)).getD (pathComponents path)
  normalize (joined [.rootDir] relative)

/-- The mount with the longest point and, among equals, the latest. -/
def longestLatest : List Mount → Option Mount
  | [] => none
  | mount :: later => match longestLatest later with
    | none => some mount
    | some best => if (pathComponents mount.point).length ≤ (pathComponents best.point).length then some best else some mount

def locateIn (mounts : List Mount) (scanPath hostRoot : Bytes) : Option FsLocation := do
  let mount ← longestLatest (mounts.filter fun mount => (stripPrefix (pathComponents scanPath) (pathComponents mount.point)).isSome)
  let inside ← stripPrefix (pathComponents scanPath) (pathComponents mount.point)
  let fsPath := normalize (joined (pathComponents mount.root) inside)
  -- Named by where its root is mounted, not by a bind mount of a part of it.
  let label := (mounts.find? fun other => decide (other.id = mount.id) && decide (pathComponents other.root = [.rootDir])).getD mount
  return { id := mount.id, fstype := mount.fstype, mount := hostPath label.point hostRoot, fsPath, disks := [] }

/-- What a host answers. -/
structure Host where
  /-- The bytes of `/proc/self/mountinfo`, where it can be read. -/
  mountinfo : Option Bytes
  /-- The device number of what is at a path. -/
  metadata : Bytes → Option Nat
  sys : Sysfs

namespace Host

/-- `fs::read_to_string` fails on a text that is not UTF-8. -/
def mounts (host : Host) : List Mount := ((host.mountinfo.filter fun text => Utf8.valid text).map parseMountinfo).getD []

def fallback (host : Host) (scanPath hostRoot : Bytes) : Option FsLocation :=
  (host.metadata scanPath).map fun dev =>
    { id := ascii "dev:" ++ decimal dev, fstype := [], mount := [slash], fsPath := hostPath scanPath hostRoot, disks := [] }

/-- `locate`, the disks looked for in at most `fuel` rounds; `none` if that goes on. -/
def locate (host : Host) (fuel : Nat) (scanPath hostRoot : Bytes) : Option (Option FsLocation) :=
  match (locateIn host.mounts scanPath hostRoot).or (host.fallback scanPath hostRoot) with
  | none => some none
  | some location => (host.sys.disksOf fuel location.id).map fun disks => some { location with disks }

/-- What `locate` returns. -/
def Locates (host : Host) (scanPath hostRoot : Bytes) (location : FsLocation) : Prop :=
  ∃ rounds, ∀ fuel, rounds ≤ fuel → host.locate fuel scanPath hostRoot = some (some location)

end Host

/-! ## What is mounted -/

/-- A mount, and what `/proc/self/mountinfo` says of it. -/
structure Attached where
  mountId : Bytes
  parent : Bytes
  dev : Bytes
  /-- The directory of the file system that it shows. -/
  root : List Bytes
  point : List Bytes
  options : Bytes
  tags : List Bytes
  fstype : Bytes
  source : Bytes

/-- A field between blanks, other than the dash. -/
def Plain (field : Bytes) : Prop := 32 ∉ field ∧ 10 ∉ field ∧ field ≠ [45]

instance (field : Bytes) : Decidable (Plain field) := inferInstanceAs (Decidable (_ ∧ _))

namespace Attached

def left (m : Attached) : Bytes :=
  m.mountId ++ ([m.parent, m.dev, escape (pathText m.root), escape (pathText m.point), m.options] ++ m.tags).flatMap (32 :: ·)

def line (m : Attached) : Bytes := m.left ++ 32 :: 45 :: 32 :: (m.fstype ++ 32 :: m.source)

def mount (m : Attached) : Mount := { id := m.dev, root := pathText m.root, point := pathText m.point, fstype := m.fstype }

end Attached

structure Attached.WellFormed (m : Attached) : Prop where
  ids : Plain m.mountId ∧ Plain m.parent ∧ Plain m.dev ∧ Plain m.options
  tags : ∀ tag ∈ m.tags, Plain tag
  root : (∀ name ∈ m.root, ProperName name) ∧ Utf8.valid (pathText m.root) = true
  point : (∀ name ∈ m.point, ProperName name) ∧ Utf8.valid (pathText m.point) = true
  fstype : 32 ∉ m.fstype ∧ 10 ∉ m.fstype
  source : 10 ∉ m.source ∧ m.source ≠ [] ∧ m.source.getLast? ≠ some 13
  utf8 : Utf8.valid m.line = true

def mountinfo (mounts : List Attached) : Bytes := mounts.flatMap fun m => m.line ++ [10]

/-- What the kernel shows at a path: the file system and the directory in it, of the last mount over the path. -/
def shownAt : List Attached → List Bytes → Option (Bytes × List Bytes)
  | [], _ => none
  | m :: later, path => (shownAt later path).or ((stripPrefix path m.point).map fun rest => (m.dev, m.root ++ rest))

/-- No mount over a path is hidden by a later one at a shorter point. -/
def Layered (mounts : List Attached) (path : List Bytes) : Prop :=
  (mounts.filter fun m => (stripPrefix path m.point).isSome).Pairwise fun m later => m.point.length ≤ later.point.length

/-! ## Paths as names -/

theorem head?_pathText (names : List Bytes) : (pathText names).head? = some slash := by
  have hfold : ∀ (names : List Bytes) {path : Bytes}, path.head? = some slash → (names.foldl pushComponent path).head? = some slash := by
    intro names
    induction names with
    | nil => exact fun h => h
    | cons name names ih => exact fun h => ih (head?_pushComponent h name)
  exact hfold names rfl

theorem pathComponents_pathText {names : List Bytes} (h : ∀ name ∈ names, ProperName name) :
    pathComponents (pathText names) = .rootDir :: names.map .normal := by
  unfold pathText
  rw [pathComponents_foldl_push names rfl h]
  rfl

theorem normalNames (names : List Bytes) : (names.map PathComponent.normal).filterMap normalName = names := by
  rw [List.filterMap_map]
  exact List.filterMap_some

theorem pathText_injective {names names' : List Bytes} (h : ∀ name ∈ names, ProperName name) (h' : ∀ name ∈ names', ProperName name)
    (he : pathText names = pathText names') : names = names' := by
  have hcomponents := congrArg pathComponents he
  rw [pathComponents_pathText h, pathComponents_pathText h'] at hcomponents
  rw [← normalNames names, ← normalNames names', (List.cons.inj hcomponents).2]

/-- A path is stripped by its names. -/
theorem stripPrefix_pathText {path base : List Bytes} (hp : ∀ name ∈ path, ProperName name) (hb : ∀ name ∈ base, ProperName name) :
    stripPrefix (pathComponents (pathText path)) (pathComponents (pathText base)) =
      (stripPrefix path base).map fun rest => rest.map .normal := by
  have hmap : ∀ {path base : List Bytes}, stripPrefix (path.map PathComponent.normal) (base.map .normal) =
      (stripPrefix path base).map fun rest => rest.map .normal := by
    intro path base
    induction path generalizing base with
    | nil => cases base <;> rfl
    | cons name path ih =>
      cases base with
      | nil => rfl
      | cons b base =>
        rw [List.map_cons, List.map_cons, stripPrefix, stripPrefix]
        by_cases hn : name = b
        · rw [if_pos hn, if_pos (congrArg _ hn), ih]
        · rw [if_neg hn, if_neg fun he => hn (PathComponent.normal.inj he)]
          rfl
  rw [pathComponents_pathText hp, pathComponents_pathText hb, stripPrefix, if_pos rfl, hmap]

/-! ## Reading the text -/

/-- A field that is not the dash does not end the left part. -/
theorem splitOnce_blank {field : Bytes} (h : Plain field) (rest : Bytes) :
    splitOnce dash (32 :: (field ++ 32 :: rest)) = (splitOnce dash (32 :: rest)).map fun e => (32 :: (field ++ e.1), e.2) := by
  obtain ⟨hblank, -, hdash⟩ := h
  -- only a field that is the dash would be a dash between blanks
  have hne : ¬(32 :: (field ++ 32 :: rest)).take 3 = dash := by
    rcases field with _ | ⟨a, _ | ⟨b, field⟩⟩
    · rintro he
      cases he
    · rintro he
      cases he
      exact hdash rfl
    · rintro he
      cases he
      exact hblank (List.mem_cons_of_mem _ (List.mem_cons_self ..))
  show (if (32 :: (field ++ 32 :: rest)).take 3 = dash then _ else (splitOnce dash (field ++ 32 :: rest)).map fun e => (32 :: e.1, e.2)) = _
  rw [if_neg hne, dash, splitOnce_skip _ hblank, Option.map_map]
  rfl

theorem splitOnce_fields (right : Bytes) : ∀ {fields : List Bytes}, (∀ field ∈ fields, Plain field) →
    splitOnce dash (fields.flatMap (32 :: ·) ++ 32 :: 45 :: 32 :: right) = some (fields.flatMap (32 :: ·), right)
  | [], _ => by
    exact if_pos rfl
  | field :: fields, h => by
    have ih := splitOnce_fields right fun f hf => h f (List.mem_cons_of_mem _ hf)
    obtain ⟨rest, hrest⟩ : ∃ rest, fields.flatMap (32 :: ·) ++ 32 :: 45 :: 32 :: right = 32 :: rest := by
      cases fields with
      | nil => exact ⟨_, rfl⟩
      | cons f fields => exact ⟨_, rfl⟩
    rw [List.flatMap_cons, List.cons_append, List.cons_append, List.append_assoc, hrest, splitOnce_blank (h field (List.mem_cons_self ..)), ← hrest, ih]
    rfl

theorem splitOn_fields : ∀ {fields : List Bytes} {field : Bytes}, 32 ∉ field → (∀ f ∈ fields, 32 ∉ f) →
    (field ++ fields.flatMap (32 :: ·)).splitOn 32 = field :: fields
  | [], field, h, _ => by
    rw [List.flatMap_nil, List.append_nil]
    exact List.splitOn_eq_singleton h
  | f :: fields, field, h, hf => by
    rw [List.flatMap_cons, List.cons_append, List.splitOn_append_cons_self_of_not_mem h,
      splitOn_fields (hf f (List.mem_cons_self ..)) fun g hg => hf g (List.mem_cons_of_mem _ hg)]

theorem escape_plain (names : List Bytes) : Plain (escape (pathText names)) := by
  have hbyte : ∀ path : Bytes, 32 ∉ escape path ∧ 10 ∉ escape path := by
    intro path
    have hall : ∀ b ∈ escape path, b ≠ 32 ∧ b ≠ 10 := by
      intro b hb
      obtain ⟨c, -, hc⟩ := List.mem_flatMap.1 hb
      unfold Mountinfo.escapeByte at hc
      split_ifs at hc with hblank htab hend hback
      · simp only [List.mem_cons, List.not_mem_nil, or_false] at hc
        rcases hc with rfl | rfl | rfl | rfl <;> decide
      · simp only [List.mem_cons, List.not_mem_nil, or_false] at hc
        rcases hc with rfl | rfl | rfl | rfl <;> decide
      · simp only [List.mem_cons, List.not_mem_nil, or_false] at hc
        rcases hc with rfl | rfl | rfl | rfl <;> decide
      · simp only [List.mem_cons, List.not_mem_nil, or_false] at hc
        rcases hc with rfl | rfl | rfl | rfl <;> decide
      · rw [List.mem_singleton.1 hc]
        exact ⟨hblank, hend⟩
    exact ⟨fun h => (hall 32 h).1 rfl, fun h => (hall 10 h).2 rfl⟩
  obtain ⟨hblank, hend⟩ := hbyte (pathText names)
  refine ⟨hblank, hend, fun he => ?_⟩
  -- a path begins with a slash, which the dash does not
  have hdecode := congrArg Mountinfo.decode he
  rw [Mountinfo.decode_escape] at hdecode
  have hhead := head?_pathText names
  rw [hdecode] at hhead
  cases hhead

theorem parseLine_line {m : Attached} (hm : m.WellFormed) : parseLine m.line = some m.mount := by
  obtain ⟨hid, hparent, hdev, hoptions⟩ := hm.ids
  have hplain : ∀ field ∈ [m.parent, m.dev, escape (pathText m.root), escape (pathText m.point), m.options] ++ m.tags, Plain field := by
    simp only [List.mem_append, List.mem_cons, List.not_mem_nil, or_false]
    rintro field ((rfl | rfl | rfl | rfl | rfl) | htag)
    · exact hparent
    · exact hdev
    · exact escape_plain _
    · exact escape_plain _
    · exact hoptions
    · exact hm.tags field htag
  have hsplit : splitOnce dash m.line = some (m.left, m.fstype ++ 32 :: m.source) := by
    unfold Attached.line Attached.left
    rw [List.append_assoc, dash, splitOnce_skip _ hid.1, ← dash, splitOnce_fields _ hplain]
    rfl
  have hfields : m.left.splitOn 32 =
      m.mountId :: m.parent :: m.dev :: escape (pathText m.root) :: escape (pathText m.point) :: m.options :: m.tags :=
    splitOn_fields hid.1 fun field hf => (hplain field hf).1
  have hunescape : ∀ {path : Bytes}, Utf8.valid path = true → Mountinfo.Fsinfo.unescape (escape path) = some path := by
    intro path hvalid
    rw [Mountinfo.lookup_unescape, Mountinfo.decode_escape, Utf8.lossy_of_valid hvalid]
  unfold parseLine
  simp only [hsplit, hfields, List.splitOn_append_cons_self_of_not_mem hm.fstype.1, hunescape hm.root.2, hunescape hm.point.2,
    Option.bind_eq_bind, Option.bind_some, List.getElem?_cons_succ, List.getElem?_cons_zero, List.head?_cons, Option.pure_def]
  rfl

theorem parseMountinfo_mountinfo {mounts : List Attached} (hw : ∀ m ∈ mounts, m.WellFormed) :
    parseMountinfo (mountinfo mounts) = mounts.map Attached.mount := by
  have hline : ∀ m ∈ mounts, 10 ∉ m.line ∧ m.line.getLast? ≠ some 13 := by
    intro m hm
    obtain ⟨hid, hparent, hdev, hoptions⟩ := (hw m hm).ids
    constructor
    · unfold Attached.line Attached.left
      simp only [List.mem_append, List.mem_cons, List.mem_flatMap, List.not_mem_nil, or_false]
      rintro ((h | ⟨field, (rfl | rfl | rfl | rfl | rfl) | htag, hblank | h⟩) | h | h | h | h | h | h)
      all_goals first
        | exact absurd hblank (by decide)
        | exact absurd h (by decide)
        | exact hid.2.1 h
        | exact hparent.2.1 h
        | exact hdev.2.1 h
        | exact (escape_plain _).2.1 h
        | exact hoptions.2.1 h
        | exact ((hw m hm).tags field htag).2.1 h
        | exact (hw m hm).fstype.2 h
        | exact (hw m hm).source.1 h
    · obtain ⟨-, hne, hlast⟩ := (hw m hm).source
      have hsource : m.line = (m.left ++ 32 :: 45 :: 32 :: (m.fstype ++ [32])) ++ m.source := by
        unfold Attached.line
        simp
      rw [hsource, List.getLast?_append_of_ne_nil _ hne]
      exact hlast
  unfold parseMountinfo mountinfo
  rw [show (mounts.flatMap fun m => m.line ++ [10]) = (mounts.map Attached.line).flatMap fun line => line ++ [10] from by
    rw [List.flatMap_map], Text.lines_flatMap fun line hl => ?_, List.filterMap_map]
  · rw [← List.filterMap_eq_map]
    exact List.filterMap_congr fun m hm => parseLine_line (hw m hm)
  · obtain ⟨m, hm, rfl⟩ := List.mem_map.1 hl
    exact hline m hm

/-! ## The mount over a path -/

/-- Of mounts with ever longer points, the longest and latest is the last. -/
theorem longestLatest_of_pairwise : ∀ {mounts : List Mount},
    mounts.Pairwise (fun m later => (pathComponents m.point).length ≤ (pathComponents later.point).length) →
    longestLatest mounts = mounts.getLast?
  | [], _ => rfl
  | m :: later, h => by
    obtain ⟨hm, hlater⟩ := List.pairwise_cons.1 h
    rw [longestLatest, longestLatest_of_pairwise hlater, List.getLast?_cons]
    cases hlast : later.getLast? with
    | none => rfl
    | some best => exact if_pos (hm best (List.mem_of_getLast? hlast))

/-- What is shown at a path is shown by the last mount over it. -/
theorem shownAt_eq (path : List Bytes) : ∀ mounts : List Attached,
    shownAt mounts path = (mounts.filter fun m => (stripPrefix path m.point).isSome).getLast?.bind fun m =>
      (stripPrefix path m.point).map fun rest => (m.dev, m.root ++ rest)
  | [] => rfl
  | m :: later => by
    have hsome : ∀ {mounts : List Attached} {last : Attached},
        (mounts.filter fun m => (stripPrefix path m.point).isSome).getLast? = some last →
          ∃ rest, stripPrefix path last.point = some rest := by
      intro mounts last hlast
      exact Option.isSome_iff_exists.1 (List.mem_filter.1 (List.mem_of_getLast? hlast)).2
    rw [shownAt, shownAt_eq path later, List.filter_cons]
    -- what is mounted later hides this mount where it is over the path
    cases hlast : (later.filter fun m => (stripPrefix path m.point).isSome).getLast? with
    | none =>
      have hnil := List.getLast?_eq_none_iff.1 hlast
      rw [hnil]
      cases hm : stripPrefix path m.point with
      | none => simp
      | some rest => simp [hm]
    | some last =>
      obtain ⟨rest, hrest⟩ := hsome hlast
      cases hm : stripPrefix path m.point with
      | none => simp [hlast, hrest]
      | some rest' => simp [List.getLast?_cons, hlast, hrest]

/-- With no mount hidden, a path is located where the kernel shows it. -/
theorem locateIn_shown {mounts : List Attached} (hw : ∀ m ∈ mounts, m.WellFormed) {path : List Bytes}
    (hp : ∀ name ∈ path, ProperName name) (hn : Layered mounts path) (hostRoot : Bytes) :
    (locateIn (mounts.map Attached.mount) (pathText path) hostRoot).map (fun l => (l.id, l.fsPath)) =
      (shownAt mounts path).map fun place => (place.1, Utf8.lossy (pathText place.2)) := by
  have hover : ∀ m ∈ mounts, (stripPrefix (pathComponents (pathText path)) (pathComponents m.mount.point)).isSome =
      (stripPrefix path m.point).isSome := by
    intro m hm
    show (stripPrefix _ (pathComponents (pathText m.point))).isSome = _
    rw [stripPrefix_pathText hp (hw m hm).point.1, Option.isSome_map]
  have hfilter : ((mounts.map Attached.mount).filter fun m => (stripPrefix (pathComponents (pathText path)) (pathComponents m.point)).isSome) =
      (mounts.filter fun m => (stripPrefix path m.point).isSome).map Attached.mount := by
    rw [List.filter_map]
    exact congrArg _ (List.filter_congr hover)
  have hlengths : ∀ m ∈ mounts, (pathComponents m.mount.point).length = m.point.length + 1 := by
    intro m hm
    show (pathComponents (pathText m.point)).length = _
    rw [pathComponents_pathText (hw m hm).point.1, List.length_cons, List.length_map]
  have hlast : longestLatest ((mounts.filter fun m => (stripPrefix path m.point).isSome).map Attached.mount) =
      (mounts.filter fun m => (stripPrefix path m.point).isSome).getLast?.map Attached.mount := by
    rw [longestLatest_of_pairwise ?_, List.getLast?_map]
    refine List.pairwise_map.2 (hn.imp_of_mem fun hm hm' hle => ?_)
    rw [hlengths _ (List.mem_filter.1 hm).1, hlengths _ (List.mem_filter.1 hm').1]
    exact Nat.succ_le_succ hle
  unfold locateIn
  rw [hfilter, hlast, shownAt_eq]
  cases hm : (mounts.filter fun m => (stripPrefix path m.point).isSome).getLast? with
  | none => rfl
  | some m =>
    obtain ⟨hmem, hsome⟩ := List.mem_filter.1 (List.mem_of_getLast? hm)
    obtain ⟨rest, hrest⟩ := Option.isSome_iff_exists.1 hsome
    have hinside : stripPrefix (pathComponents (pathText path)) (pathComponents m.mount.point) = some (rest.map .normal) := by
      show stripPrefix _ (pathComponents (pathText m.point)) = _
      rw [stripPrefix_pathText hp (hw m hmem).point.1, hrest]
      rfl
    have hplace : normalize (joined (pathComponents m.mount.root) (rest.map .normal)) = Utf8.lossy (pathText (m.root ++ rest)) := by
      have hrelative : (rest.map PathComponent.normal).head? ≠ some .rootDir := by
        cases rest with
        | nil => exact fun h => by cases h
        | cons name rest => exact fun h => by cases h
      unfold joined normalize
      rw [if_neg hrelative]
      show Utf8.lossy (pathText ((pathComponents (pathText m.root) ++ _).filterMap normalName)) = _
      rw [pathComponents_pathText (hw m hmem).root.1, List.filterMap_append, normalNames, List.filterMap_cons_none rfl, normalNames]
    simp only [Option.map_some, Option.bind_eq_bind, Option.bind_some, hinside, hrest, Option.pure_def, hplace]
    rfl

theorem proper_shown {mounts : List Attached} (hw : ∀ m ∈ mounts, m.WellFormed) {path : List Bytes}
    (hp : ∀ name ∈ path, ProperName name) {dev : Bytes} {place : List Bytes} (h : shownAt mounts path = some (dev, place)) :
    ∀ name ∈ place, ProperName name := by
  induction mounts with
  | nil => cases h
  | cons m later ih =>
    rw [shownAt, Option.or_eq_some_iff] at h
    rcases h with h | ⟨-, h⟩
    · exact ih (fun m hm => hw m (List.mem_cons_of_mem _ hm)) h
    · obtain ⟨rest, hrest, he⟩ := Option.map_eq_some_iff.1 h
      cases he
      intro name hname
      rcases List.mem_append.1 hname with hname | hname
      · exact (hw m (List.mem_cons_self ..)).root.1 name hname
      · exact hp name (by rw [stripPrefix_eq_some.1 hrest]; exact List.mem_append_right _ hname)

/-- A path with a mount over it is located by one of those. -/
theorem locateIn_over {mounts : List Mount} {scanPath : Bytes} {m : Mount} (hm : m ∈ mounts)
    (hover : (stripPrefix (pathComponents scanPath) (pathComponents m.point)).isSome) (hostRoot : Bytes) :
    ∃ location, locateIn mounts scanPath hostRoot = some location := by
  have hlongest : ∀ {mounts : List Mount} {m : Mount}, m ∈ mounts → ∃ best ∈ mounts, longestLatest mounts = some best := by
    intro mounts
    induction mounts with
    | nil => exact fun h => absurd h List.not_mem_nil
    | cons m later ih =>
      intro _ _
      rw [longestLatest]
      cases hlater : longestLatest later with
      | none => exact ⟨m, List.mem_cons_self .., rfl⟩
      | some best =>
        dsimp only
        split
        · cases later with
          | nil => cases hlater
          | cons first later =>
            obtain ⟨best', hbest, heq⟩ := ih (List.mem_cons_self ..)
            rw [hlater] at heq
            cases heq
            exact ⟨best, List.mem_cons_of_mem _ hbest, rfl⟩
        · exact ⟨m, List.mem_cons_self .., rfl⟩
  have hmem : m ∈ mounts.filter fun mount => (stripPrefix (pathComponents scanPath) (pathComponents mount.point)).isSome :=
    List.mem_filter.2 ⟨hm, hover⟩
  obtain ⟨best, hbest, hmost⟩ := hlongest hmem
  obtain ⟨inside, hinside⟩ := Option.isSome_iff_exists.1 (List.mem_filter.1 hbest).2
  unfold locateIn
  rw [hmost, Option.bind_eq_bind, Option.bind_some, hinside]
  exact ⟨_, rfl⟩

namespace Host

variable {host : Host} {scanPath hostRoot : Bytes} {location l : FsLocation}

theorem locates_of_locateIn (h : locateIn host.mounts scanPath hostRoot = some location) :
    ∃ disks, host.Locates scanPath hostRoot { location with disks } := by
  obtain ⟨disks, -, -, rounds, hrounds⟩ := Sysfs.disksOf_found host.sys location.id
  refine ⟨disks, rounds, fun fuel hfuel => ?_⟩
  unfold locate
  rw [h, Option.some_or]
  dsimp only
  rw [hrounds fuel hfuel]
  rfl

/-- What the mounts tell of a path is what `locate` returns, but for the disks. -/
theorem Locates.eq_of_locateIn (hl : host.Locates scanPath hostRoot l) (h : locateIn host.mounts scanPath hostRoot = some location) :
    l = { location with disks := l.disks } := by
  obtain ⟨rounds, hrounds⟩ := hl
  have hlocate := hrounds rounds (Nat.le_refl _)
  unfold locate at hlocate
  rw [h, Option.some_or] at hlocate
  obtain ⟨disks, -, he⟩ := Option.map_eq_some_iff.1 hlocate
  cases he
  rfl

end Host

theorem mounts_mountinfo {host : Host} {mounts : List Attached} (hh : host.mountinfo = some (mountinfo mounts)) (hw : ∀ m ∈ mounts, m.WellFormed) :
    host.mounts = mounts.map Attached.mount := by
  have hvalid : Utf8.valid (mountinfo mounts) = true :=
    Utf8.valid_flatMap fun m hm => Utf8.valid_append (hw m hm).utf8 (by decide)
  unfold Host.mounts
  rw [hh, Option.filter_some, if_pos hvalid, Option.map_some, Option.getD_some, parseMountinfo_mountinfo hw]

/-- A mount is over the path. -/
def Over (mounts : List Attached) (scanPath : Bytes) : Prop :=
  ∃ m ∈ mounts, (stripPrefix (pathComponents scanPath) (pathComponents (pathText m.point))).isSome = true

/-- A disk at `/mnt/disk`, and a folder of it at `/my srv`. -/
def diskAndBind : List Attached :=
  let ext4 := { mountId := ascii "30", parent := ascii "1", dev := ascii "8:1", root := [], point := [], options := ascii "rw",
                tags := [ascii "shared:1"], fstype := ascii "ext4", source := ascii "/dev/sda1 rw" }
  [ext4, { ext4 with dev := ascii "8:16", point := [ascii "mnt", ascii "disk"] },
    { ext4 with dev := ascii "8:16", root := [ascii "data"], point := [ascii "my srv"], tags := [] }]

theorem diskAndBind_wellFormed : ∀ m ∈ diskAndBind, m.WellFormed := by
  intro m hm
  simp only [diskAndBind, List.mem_cons, List.not_mem_nil, or_false] at hm
  rcases hm with rfl | rfl | rfl
  all_goals exact ⟨by decide, by decide, by decide, by decide, by decide, by decide, by decide⟩

def boundHost : Host where
  mountinfo := some (mountinfo diskAndBind)
  metadata _ := some 2064
  sys := mirrorSys

end StorageHarvester.Fsinfo
