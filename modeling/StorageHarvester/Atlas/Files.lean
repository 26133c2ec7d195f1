/-
The files of one folder, as the atlas serves them (`walked`, `walked_folder`, `list_files`, `thumb` and
`open_picture` in `src/atlas.rs`). The folder is found by the components of the request's path, but the
exclude rules are asked about a string built from the request as it is spelled: what is served is what
the walk counts exactly if the rules answer alike for both strings, and the walk reads the folder at all.
-/
import StorageHarvester.Config.Resolve
import StorageHarvester.Scan.Run
import StorageHarvester.Tree.Find

namespace StorageHarvester.Atlas

/-! ## What is on disk -/

/-- An entry of a folder. -/
structure Item where
  name : Bytes
  symlink : Bool
  lstat : Except Errno Stat
  /-- Through symlinks. -/
  stat : Except Errno Stat
  proper : ProperName name
  plain : symlink = false → stat = lstat

/-- What `stat`ing an entry says, through symlinks if they are followed. -/
def Item.meta (i : Item) (follow : Bool) : Except Errno Stat := if follow then i.stat else i.lstat

/-- The entry as the walk meets it. -/
def Item.entry (i : Item) (follow : Bool) : Entry := ⟨i.name, i.meta follow, none⟩

/-- The file system as it is during one request. -/
structure Disk where
  canonicalize : Bytes → Except Errno Bytes
  lstat : Bytes → Except Errno Stat
  /-- The entries of a folder; one may fail to be read. -/
  readDir : Bytes → Except Errno (List (Option Item))
  /-- Opens an entry of a folder by its name, through a symlink or not. -/
  open_ : Bytes → Bytes → Bool → Except Errno Stat
  /-- What is opened is what `stat` says of the entry. -/
  opens : ∀ dir items item follow m, readDir dir = .ok items → some item ∈ items → open_ dir item.name follow = .ok m →
    item.meta follow = .ok m

/-! ## The folder of a request -/

/-- A refused request: its status and why. -/
structure Refusal where
  status : Nat
  message : String
  deriving DecidableEq, Repr

/-- The tree of a target, and whether it is of a thin pool. -/
structure Shown where
  tree : DirTree
  pool : Bool

def walked (state : Option Shown) (path : Bytes) : Except Refusal (Bytes × (Nat × Nat)) :=
  match state with
  | none => .error ⟨503, "no scan yet"⟩
  | some shown =>
    if shown.pool then .error ⟨404, "files in a thin pool are not listed"⟩
    else match shown.tree.find path with
      | none => .error ⟨404, "path not in the tree"⟩
      | some node => .ok (shown.tree.scanPath node, (shown.tree.rootDev, (shown.tree.node 0).ino))

/-- The folder the walk read at `scan`, opened again now. -/
def walkedFolder (disk : Disk) (target : Target) (scan : Bytes) (root : Nat × Nat) : Except Errno Bytes :=
  match disk.canonicalize scan with
  | .error e => .error e
  | .ok dir =>
    if target.followSymlinks then .ok dir
    else match disk.lstat target.scanPath with
      | .error e => .error e
      | .ok now =>
        if now.kind ≠ .directory || (now.dev, now.ino) ≠ root then .error .enoent
        else match disk.canonicalize target.scanPath with
          | .error e => .error e
          | .ok base => if (stripPrefix (pathComponents dir) (pathComponents base)).isSome then .ok dir else .error .enoent

/-- The exclude rules match a path. An empty set matches none. -/
def excluded (target : Target) (path : Bytes) : Bool := !target.exclude.isEmpty && target.exclude.isMatch path

/-! ## Listing -/

def filesScanMax : Nat := 200000

structure FileEntry where
  name : Bytes
  blocks : Nat
  apparent : Nat
  mtime : Int
  links : Nat
  symlink : Bool
  deriving DecidableEq, Repr

structure FileListing where
  files : List FileEntry
  count : Nat
  blocks : Nat
  apparent : Nat
  isPartial : Bool
  deriving DecidableEq, Repr

/-- An entry that is no directory and on the target's filesystem. -/
def Item.file (target : Target) (rootDev : Nat) (i : Item) : Option Stat :=
  match if i.symlink && target.followSymlinks then i.stat else i.lstat with
  | .error _ => none
  | .ok m => if m.kind = .directory || (target.noCrossFilesystem && m.dev ≠ rootDev) then none else some m

/-- Whether an entry is listed for a request spelled `path`. -/
def listed (target : Target) (rootDev : Nat) (path : Bytes) (i : Item) : Bool :=
  !excluded target (pushComponent path i.name) && (i.file target rootDev).isSome

/-- Bigger files first, by their blocks, their size and their name. -/
def FileEntry.before (a b : FileEntry) : Prop :=
  b.blocks < a.blocks ∨ (b.blocks = a.blocks ∧ (b.apparent < a.apparent ∨ (b.apparent = a.apparent ∧ compare a.name b.name ≠ .gt)))

instance (a b : FileEntry) : Decidable (a.before b) := inferInstanceAs (Decidable (_ ∨ _))

def Item.fileEntry (target : Target) (rootDev : Nat) (i : Item) : Option FileEntry :=
  (i.file target rootDev).map fun m => ⟨Utf8.lossy i.name, m.blocks, m.size, m.mtime, m.nlink, i.symlink⟩

/-- What a folder's entries are listed as. No more than `filesScanMax` are looked at. -/
def listing (target : Target) (rootDev : Nat) (path : Bytes) (limit : Nat) (items : List (Option Item)) : FileListing :=
  let found := ((((items.take filesScanMax).filterMap id).filter (listed target rootDev path)).filterMap (Item.fileEntry target rootDev))
  { files := (found.insertionSort FileEntry.before).take limit
    count := found.length
    blocks := (found.map FileEntry.blocks).foldl saturatingAdd 0
    apparent := (found.map FileEntry.apparent).foldl saturatingAdd 0
    isPartial := filesScanMax < items.length }

def listFiles (disk : Disk) (target : Target) (scan path : Bytes) (root : Nat × Nat) (limit : Nat) : Except Errno FileListing :=
  match walkedFolder disk target scan root with
  | .error e => .error e
  | .ok dir => match disk.readDir dir with
    | .error e => .error e
    | .ok items => .ok (listing target root.1 path limit items)

/-! ## Pictures -/

def images : List Bytes :=
  ["jpg", "jpeg", "png", "webp", "gif", "bmp", "tif", "tiff", "heic", "heif", "avif", "dng"].map ascii
def videos : List Bytes :=
  ["mp4", "m4v", "mov", "mkv", "webm", "avi", "wmv", "mts", "m2ts", "3gp", "mpg", "mpeg", "flv"].map ascii

def dot : UInt8 := 46

def toAsciiLowercase (b : UInt8) : UInt8 := if 65 ≤ b && b ≤ 90 then b + 32 else b

inductive PictureKind where
  | image | video
  deriving DecidableEq, Repr

/-- Whether a file is an image or a video, by its extension. -/
def kindOf (name : Bytes) : Option PictureKind :=
  if dot ∉ name then none
  else
    let ext := ((name.reverse.takeWhile (· ≠ dot)).reverse).map toAsciiLowercase
    if ext ∈ images then some .image else if ext ∈ videos then some .video else none

/-- `path.trim_end_matches('/')`. -/
def trimEnd (path : Bytes) : Bytes := (path.reverse.dropWhile (· = slash)).reverse

/-- The string a picture is known by. -/
def shown (path name : Bytes) : Bytes := trimEnd path ++ [slash] ++ name

def openPicture (disk : Disk) (target : Target) (scan name shown : Bytes) (root : Nat × Nat) : Except Errno Stat :=
  match walkedFolder disk target scan root with
  | .error e => .error e
  | .ok dir =>
    if excluded target shown then .error .enoent
    else match disk.open_ dir name target.followSymlinks with
      | .error e => .error (if e = .eloop then .enoent else e)
      | .ok m => if m.kind ≠ .file || (target.noCrossFilesystem && m.dev ≠ root.1) then .error .enoent else .ok m

/-- The names `thumb` takes: an image's or a video's, and a plain file name. -/
def pictureName (name : Bytes) : Bool :=
  (kindOf name).isSome && !(name.isEmpty || name = [dot] || name = [dot, dot] || name.contains slash || name.contains 0)

/-! ## The requests -/

def filesLimit : Nat := 400
def filesMax : Nat := 5000

/-- What `/api/files` answers. -/
def files (state : Option Shown) (disk : Disk) (target : Target) (path : Bytes) (limit : Option Nat) : Except Refusal FileListing :=
  match walked state path with
  | .error refusal => .error refusal
  | .ok (scan, root) =>
    match listFiles disk target scan path root (max 1 (min filesMax (limit.getD filesLimit))) with
    | .ok listing => .ok listing
    | .error .enoent => .error ⟨404, "the folder is gone"⟩
    | .error _ => .error ⟨500, "cannot read the folder"⟩

/-- The file whose picture `/api/thumb` answers with. -/
def thumb (state : Option Shown) (disk : Disk) (target : Target) (path name : Bytes) : Except Refusal Stat :=
  if (kindOf name).isNone then .error ⟨404, "not an image or a video"⟩
  else if !pictureName name then .error ⟨404, "not a file name"⟩
  else match walked state path with
    | .error refusal => .error refusal
    | .ok (scan, root) =>
      match openPicture disk target scan name (shown path name) root with
      | .ok m => .ok m
      | .error .enoent => .error ⟨404, "no such file"⟩
      | .error _ => .error ⟨500, "cannot read the file"⟩

/-! ## The walk -/

/-- The walk's rules leave an entry of directory `n` out: it is excluded, or the directory lies at the depth
limit. -/
def leftOut (target : Target) (t : DirTree) (n : Nat) (name : Bytes) : Bool :=
  !Walk.descends ⟨target, t.rootDev, fun _ => 0⟩ (t.node n).depth || excluded target (pushComponent (t.displayPathBytes n) name)

/-- Whether the walk counts an entry of directory `n` as no directory. -/
def counted (target : Target) (t : DirTree) (n : Nat) (i : Item) : Bool :=
  !leftOut target t n i.name && (i.file target t.rootDev).isSome

theorem pushComponent_append {y : Bytes} (hy : y ≠ []) (x z : Bytes) : pushComponent (x ++ y) z = x ++ pushComponent y z := by
  have hlast : (x ++ y).getLast? = y.getLast? := List.getLast?_append_of_ne_nil _ hy
  unfold pushComponent
  rw [hlast]
  split <;> simp

theorem join_append (names : List Bytes) {y : Bytes} (hy : y ≠ []) (x : Bytes) : DirTree.join (x ++ y) names = x ++ DirTree.join y names := by
  induction names generalizing y with
  | nil => rfl
  | cons name names ih =>
    have hne : pushComponent y name ≠ [] := by
      unfold pushComponent
      split <;> simp [hy]
    have := ih hne
    unfold DirTree.join at *
    rw [List.foldl_cons, List.foldl_cons, pushComponent_append hy, this]

/-- The display path the walk makes from a job's path is the one the tree shows. -/
theorem displayDir_eq {target : Target} {t : DirTree} (h : Shape t) (hn : t.ProperNames) (hd : t.displayRoot = target.displayPath)
    (hs : t.scanRoot = target.scanPath) {n : Nat} (ha : (t.node n).alive = true) (rootDev : Nat) (hash : Bytes → Nat) (node : Nat)
    (tracked : Bool) : Walk.displayDir ⟨target, rootDev, hash⟩ ⟨t.scanPath n, (t.node n).depth, node, tracked⟩ = t.displayPathBytes n := by
  unfold Walk.displayDir DirTree.displayPathBytes DirTree.scanPath
  rw [hd, hs]
  rcases Nat.eq_zero_or_pos n with rfl | hpos
  · rw [h.depth_root, Shape.components_zero]
    rfl
  · obtain ⟨p, hp⟩ := h.hasParent n hpos (DirTree.lt_of_alive ha)
    have hproper := h.components_proper hn ha
    rw [if_pos (by rw [h.depth n p hp]; exact Nat.succ_pos _)]
    cases hc : t.components n with
    | nil =>
      rw [h.components_of_parent hp] at hc
      simp at hc
    | cons name names =>
      have hname : name ≠ [] := (hproper name (by rw [hc]; exact List.mem_cons_self)).1
      have hjoin : ∀ base : Bytes, DirTree.join base (name :: names) =
          (if base.getLast? = some slash then base else base ++ [slash]) ++ DirTree.join name names := by
        intro base
        rw [← join_append names hname]
        rfl
      have hdrop : (DirTree.join target.scanPath (name :: names)).drop (Walk.relStart ⟨target, rootDev, hash⟩) = DirTree.join name names := by
        rw [hjoin]
        unfold Walk.relStart
        split
        · exact List.drop_left
        · exact List.drop_left' (by simp)
      rw [hdrop, hjoin target.displayPath]
      rfl

/-- What `list_files` stats of an entry is what the walk stats. -/
theorem Item.file_eq (target : Target) (rootDev : Nat) (i : Item) :
    i.file target rootDev = match i.meta target.followSymlinks with
      | .error _ => none
      | .ok m => if m.kind = .directory || (target.noCrossFilesystem && m.dev ≠ rootDev) then none else some m := by
  have hstat : (if i.symlink && target.followSymlinks then i.stat else i.lstat) = i.meta target.followSymlinks := by
    unfold Item.meta
    cases target.followSymlinks with
    | false => simp
    | true =>
      cases hs : i.symlink with
      | false => simp [i.plain hs]
      | true => rfl
  unfold Item.file
  rw [hstat]

theorem Item.not_isDot (i : Item) : Walk.isDot i.name = false := by
  have := i.proper
  simp [Walk.isDot, this.2.2.1, this.2.2.2]

/-- Reading an entry counts it as no directory exactly if the rules leave it in and it is none. -/
theorem readEntry_counts (w : Walk) (i : Item) (p : Walk.InDir) (d : Worker) (tracked : Nat) :
    let sums := (w.readEntry (i.entry w.target.followSymlinks) p d tracked).1.sums
    sums.files + sums.symlinks = p.sums.files + p.sums.symlinks +
      if !w.excludes p.job i.name && (i.file w.target w.rootDev).isSome then 1 else 0 := by
  have hdot := i.not_isDot
  have hname : (i.entry w.target.followSymlinks).name = i.name := rfl
  have hstat : (i.entry w.target.followSymlinks).stat = i.meta w.target.followSymlinks := rfl
  have hfile := i.file_eq w.target w.rootDev
  unfold Walk.readEntry
  rw [hname, hdot, if_neg Bool.false_ne_true, hstat]
  cases hx : w.excludes p.job i.name with
  | true => rfl
  | false =>
    rw [if_neg Bool.false_ne_true]
    cases hm : i.meta w.target.followSymlinks with
    | error err =>
      rw [hm] at hfile
      rw [hfile]
      cases hp : err.isPermissionDenied <;> simp [hp]
    | ok m =>
      rw [hm] at hfile
      dsimp only at hfile ⊢
      by_cases hdev : (w.target.noCrossFilesystem && decide (m.dev ≠ w.rootDev)) = true
      · rw [if_pos (by rw [hdev, Bool.or_true])] at hfile
        rw [if_pos hdev, hfile]
        rfl
      · rw [if_neg hdev]
        rw [Bool.eq_false_iff.2 hdev, Bool.or_false] at hfile
        cases hk : m.kind with
        | directory =>
          rw [hk, if_pos (by decide)] at hfile
          rw [hfile]
          unfold Walk.readSubdir
          dsimp only
          simp only [apply_ite Prod.fst, apply_ite Walk.InDir.sums, ite_self]
          rfl
        | file =>
          rw [hk, if_neg (by decide)] at hfile
          rw [hfile]
          simp [Walk.readFile, hk, Tally.addSize]
          omega
        | symlink =>
          rw [hk, if_neg (by decide)] at hfile
          rw [hfile]
          simp [Walk.readFile, hk, Tally.addSize]
          omega
        | other =>
          rw [hk, if_neg (by decide)] at hfile
          rw [hfile]
          simp [Walk.readFile, hk, Tally.addSize]
          omega

/-- A tree a walk of the target came back with. -/
structure Walked (target : Target) (t : DirTree) : Prop where
  shape : Shape t
  names : t.ProperNames
  display : t.displayRoot = target.displayPath
  scan : t.scanRoot = target.scanPath

/-- Reading directory `n`, the walk counts an entry as no directory exactly if `counted` says so. -/
def WalkCounts (target : Target) (t : DirTree) (n : Nat) : Prop :=
  ∀ (hash : Bytes → Nat) (i : Item) (p : Walk.InDir) (d : Worker) (tracked : Nat), p.job = ⟨t.scanPath n, (t.node n).depth, n, true⟩ →
    let sums := (Walk.readEntry ⟨target, t.rootDev, hash⟩ (i.entry target.followSymlinks) p d tracked).1.sums
    sums.files + sums.symlinks = p.sums.files + p.sums.symlinks + if counted target t n i then 1 else 0

theorem walkCounts {target : Target} {t : DirTree} (h : Walked target t) {n : Nat} (ha : (t.node n).alive = true)
    (hdesc : Walk.descends ⟨target, t.rootDev, fun _ => 0⟩ (t.node n).depth = true) : WalkCounts target t n := by
  intro hash i p d tracked hjob
  have hexcl : Walk.excludes ⟨target, t.rootDev, hash⟩ p.job i.name = leftOut target t n i.name := by
    unfold Walk.excludes leftOut
    rw [hjob, displayDir_eq h.shape h.names h.display h.scan ha, hdesc]
    rfl
  have hcount := readEntry_counts ⟨target, t.rootDev, hash⟩ i p d tracked
  rw [hexcl] at hcount
  exact hcount

/-! ## What is served -/

section Served

variable (disk : Disk) (target : Target) (t : DirTree) (n : Nat)

/-- The folder a request for directory `n` opens, and its entries. -/
def Meets (dir : Bytes) (items : List (Option Item)) : Prop :=
  walkedFolder disk target (t.scanPath n) (t.rootDev, (t.node 0).ino) = .ok dir ∧ disk.readDir dir = .ok items

/-- An entry with a picture: a regular file on the target's filesystem that opens. -/
def Picture (dir : Bytes) (item : Item) : Prop :=
  pictureName item.name = true ∧ ∃ m, disk.open_ dir item.name target.followSymlinks = .ok m ∧ m.kind = .file ∧
    (target.noCrossFilesystem && decide (m.dev ≠ t.rootDev)) = false

/-- `thumb` takes a name. -/
def Admits (path name : Bytes) : Prop := ∃ m, thumb (some ⟨t, false⟩) disk target path name = .ok m

/-- A request spelled `path` is served what the walk counts in directory `n`. -/
structure AsWalked (path : Bytes) : Prop where
  listed : ∀ dir items, Meets disk target t n dir items →
    ((items.take filesScanMax).filterMap id).filter (listed target t.rootDev path) =
      ((items.take filesScanMax).filterMap id).filter (counted target t n)
  pictures : ∀ dir items, Meets disk target t n dir items → ∀ item, some item ∈ items → Picture disk target t dir item →
    (Admits disk target t path item.name ↔ counted target t n item = true)

/-- Two requests are served alike, and what the walk counts. -/
structure ServedAlike (p q : Bytes) : Prop where
  files : ∀ limit, files (some ⟨t, false⟩) disk target p limit = files (some ⟨t, false⟩) disk target q limit
  pictures : ∀ dir items, Meets disk target t n dir items → ∀ item, some item ∈ items →
    (Admits disk target t p item.name ↔ Admits disk target t q item.name)
  left : AsWalked disk target t n p
  right : AsWalked disk target t n q

/-- For every file the exclude rules match the string made from the request exactly if the walk's rules leave
the file out. -/
structure MatchedAlike (path : Bytes) : Prop where
  listed : ∀ dir items, Meets disk target t n dir items → ∀ item, some item ∈ items.take filesScanMax →
    (item.file target t.rootDev).isSome = true → excluded target (pushComponent path item.name) = leftOut target t n item.name
  pictures : ∀ dir items, Meets disk target t n dir items → ∀ item, some item ∈ items → Picture disk target t dir item →
    excluded target (shown path item.name) = leftOut target t n item.name

end Served

variable {disk : Disk} {target : Target} {t : DirTree} {n : Nat} {path : Bytes}

theorem walked_of_find (hf : t.find path = some n) :
    walked (some ⟨t, false⟩) path = .ok (t.scanPath n, (t.rootDev, (t.node 0).ino)) := by
  simp [walked, hf]

theorem filter_eq_filter_iff {α : Type*} {l : List α} {p q : α → Bool} : l.filter p = l.filter q ↔ ∀ x ∈ l, p x = q x := by
  constructor
  · intro h x hx
    rw [Bool.eq_iff_iff]
    constructor
    · exact fun hp => (List.mem_filter.1 (h ▸ List.mem_filter.2 ⟨hx, hp⟩)).2
    · exact fun hq => (List.mem_filter.1 (h.symm ▸ List.mem_filter.2 ⟨hx, hq⟩)).2
  · exact List.filter_congr

theorem openPicture_eq_ok {scan name string dir : Bytes} {root : Nat × Nat} {m : Stat}
    (hw : walkedFolder disk target scan root = .ok dir) : openPicture disk target scan name string root = .ok m ↔
      excluded target string = false ∧ disk.open_ dir name target.followSymlinks = .ok m ∧ m.kind = .file ∧
        (target.noCrossFilesystem && decide (m.dev ≠ root.1)) = false := by
  unfold openPicture
  rw [hw]
  dsimp only
  cases hx : excluded target string with
  | true => simp
  | false =>
    rw [if_neg Bool.false_ne_true]
    cases ho : disk.open_ dir name target.followSymlinks with
    | error e => simp
    | ok m' =>
      dsimp only
      constructor
      · intro h
        split at h
        · cases h
        · next hno =>
          cases h
          rw [Bool.or_eq_true, not_or] at hno
          exact ⟨rfl, rfl, by simpa using hno.1, by simpa using hno.2⟩
      · rintro ⟨-, he, hk, hd⟩
        cases he
        rw [hd, hk]
        rfl

theorem thumb_eq_ok (hf : t.find path = some n) {name : Bytes} {m : Stat} :
    thumb (some ⟨t, false⟩) disk target path name = .ok m ↔ pictureName name = true ∧
      openPicture disk target (t.scanPath n) name (shown path name) (t.rootDev, (t.node 0).ino) = .ok m := by
  unfold thumb
  rw [walked_of_find hf]
  dsimp only
  constructor
  · intro h
    split at h
    · cases h
    split at h
    · cases h
    next hname =>
      refine ⟨by simpa using hname, ?_⟩
      split at h
      · next ho => cases h; exact ho
      · cases h
      · cases h
  · rintro ⟨hname, ho⟩
    have hkind : (kindOf name).isNone = false := by
      unfold pictureName at hname
      rw [Bool.and_eq_true] at hname
      simp [Option.isNone_eq_false_iff, hname.1]
    rw [hkind, if_neg Bool.false_ne_true, hname, if_neg (by decide), ho]

/-- `thumb` takes exactly the pictures that the rules do not match. -/
theorem admits_iff (hf : t.find path = some n) {dir : Bytes} {items : List (Option Item)} (hm : Meets disk target t n dir items)
    (item : Item) : Admits disk target t path item.name ↔
      Picture disk target t dir item ∧ excluded target (shown path item.name) = false := by
  unfold Admits Picture
  simp only [thumb_eq_ok hf, openPicture_eq_ok hm.1]
  constructor
  · rintro ⟨m, hname, hx, ho⟩
    exact ⟨⟨hname, m, ho⟩, hx⟩
  · rintro ⟨⟨hname, m, ho⟩, hx⟩
    exact ⟨m, hname, hx, ho⟩

/-- The walk counts a picture unless its rules leave it out. -/
theorem counted_of_picture {dir : Bytes} {items : List (Option Item)} (hm : Meets disk target t n dir items) {item : Item}
    (hi : some item ∈ items) (hp : Picture disk target t dir item) : counted target t n item = !leftOut target t n item.name := by
  obtain ⟨-, m, ho, hk, hd⟩ := hp
  have hmeta := disk.opens dir items item _ m hm.2 hi ho
  have hfile : item.file target t.rootDev = some m := by
    rw [Item.file_eq, hmeta]
    dsimp only
    rw [hd, hk]
    rfl
  unfold counted
  rw [hfile, Option.isSome_some, Bool.and_true]

theorem asWalked_iff (hf : t.find path = some n) : AsWalked disk target t n path ↔ MatchedAlike disk target t n path := by
  have hlisted : ∀ items : List (Option Item),
      ((items.take filesScanMax).filterMap id).filter (listed target t.rootDev path) =
          ((items.take filesScanMax).filterMap id).filter (counted target t n) ↔
        ∀ item, some item ∈ items.take filesScanMax → (item.file target t.rootDev).isSome = true →
          excluded target (pushComponent path item.name) = leftOut target t n item.name := by
    intro items
    rw [filter_eq_filter_iff]
    refine forall_congr' fun item => ?_
    rw [show item ∈ ((items.take filesScanMax).filterMap id) ↔ some item ∈ items.take filesScanMax by simp [List.mem_filterMap]]
    unfold listed counted
    refine imp_congr_right fun _ => ?_
    cases (item.file target t.rootDev).isSome with
    | false => simp
    | true => simp
  have hpictures : ∀ {dir : Bytes} {items : List (Option Item)}, Meets disk target t n dir items → ∀ {item : Item}, some item ∈ items →
      Picture disk target t dir item →
      ((Admits disk target t path item.name ↔ counted target t n item = true) ↔
        excluded target (shown path item.name) = leftOut target t n item.name) := by
    intro dir items hm item hi hp
    rw [admits_iff hf hm, counted_of_picture hm hi hp]
    cases excluded target (shown path item.name) <;> cases leftOut target t n item.name <;> simp [hp]
  constructor
  · intro h
    constructor
    · exact fun dir items hm => (hlisted items).1 (h.listed dir items hm)
    · exact fun dir items hm item hi hp => (hpictures hm hi hp).1 (h.pictures dir items hm item hi hp)
  · intro h
    constructor
    · exact fun dir items hm => (hlisted items).2 (h.listed dir items hm)
    · exact fun dir items hm item hi hp => (hpictures hm hi hp).2 (h.pictures dir items hm item hi hp)

/-- Requests served what the walk counts are served alike. -/
theorem AsWalked.alike {p q : Bytes} (hp : AsWalked disk target t n p) (hq : AsWalked disk target t n q) (hfp : t.find p = some n)
    (hfq : t.find q = some n) : ServedAlike disk target t n p q where
  files := by
    intro limit
    unfold files
    rw [walked_of_find hfp, walked_of_find hfq]
    have hlist : ∀ limit, listFiles disk target (t.scanPath n) p (t.rootDev, (t.node 0).ino) limit =
        listFiles disk target (t.scanPath n) q (t.rootDev, (t.node 0).ino) limit := by
      intro limit
      unfold listFiles
      cases hw : walkedFolder disk target (t.scanPath n) (t.rootDev, (t.node 0).ino) with
      | error e => rfl
      | ok dir =>
        dsimp only
        cases hr : disk.readDir dir with
        | error e => rfl
        | ok items =>
          dsimp only
          unfold listing
          rw [hp.listed dir items ⟨hw, hr⟩, hq.listed dir items ⟨hw, hr⟩]
    dsimp only
    rw [hlist]
  pictures := by
    intro dir items hm item hi
    by_cases hpic : Picture disk target t dir item
    · rw [hp.pictures dir items hm item hi hpic, hq.pictures dir items hm item hi hpic]
    · rw [admits_iff hfp hm, admits_iff hfq hm]
      simp [hpic]
  left := hp
  right := hq

theorem trimEnd_slash (path : Bytes) : trimEnd (path ++ [slash]) = trimEnd path := by
  unfold trimEnd
  simp

/-- A directory above the depth limit, asked for by its path as it is shown, a slash appended or not, is served
what the walk counts under whatever rules. -/
theorem matchedAlike_shown (hd : Walk.descends ⟨target, t.rootDev, fun _ => 0⟩ (t.node n).depth = true)
    (hlast : (t.displayPathBytes n).getLast? ≠ some slash) :
    MatchedAlike disk target t n (t.displayPathBytes n) ∧ MatchedAlike disk target t n (t.displayPathBytes n ++ [slash]) := by
  have hleft : ∀ name, leftOut target t n name = excluded target (pushComponent (t.displayPathBytes n) name) := by
    intro name
    unfold leftOut
    rw [hd, Bool.not_true, Bool.false_or]
  have hpush : ∀ name, pushComponent (t.displayPathBytes n) name = t.displayPathBytes n ++ [slash] ++ name := by
    intro name
    unfold pushComponent
    rw [if_neg hlast]
  have htrim : trimEnd (t.displayPathBytes n) = t.displayPathBytes n := by
    unfold trimEnd
    cases hr : (t.displayPathBytes n).reverse with
    | nil => rw [List.reverse_eq_nil_iff.1 hr]; rfl
    | cons b rest =>
      have hb : b ≠ slash := fun he => hlast (by rw [← List.head?_reverse, hr, he]; rfl)
      rw [List.dropWhile_cons_of_neg (by simpa using hb), ← hr, List.reverse_reverse]
  constructor
  · constructor
    · exact fun _ _ _ item _ _ => (hleft item.name).symm
    · intro _ _ _ item _ _
      unfold shown
      rw [htrim, hleft, hpush]
  · constructor
    · intro _ _ _ item _ _
      have hslash : pushComponent (t.displayPathBytes n ++ [slash]) item.name = t.displayPathBytes n ++ [slash] ++ item.name := by
        unfold pushComponent
        rw [if_pos (by simp)]
      rw [hslash, hleft, hpush]
    · intro _ _ _ item _ _
      unfold shown
      rw [trimEnd_slash, htrim, hleft, hpush]

def pictureStat : Stat := ⟨.file, 1, 7, 1, 4096, 4000, 0⟩

/-- `/data/a.jpg`. -/
def pictureItem : Item where
  name := ascii "a.jpg"
  symlink := false
  lstat := .ok pictureStat
  stat := .ok pictureStat
  proper := ⟨by decide, by decide, by decide, by decide⟩
  plain := fun _ => rfl

def pictureDisk : Disk where
  canonicalize path := .ok path
  lstat _ := .ok ⟨.directory, 1, 2, 1, 0, 0, 0⟩
  readDir _ := .ok [some pictureItem]
  open_ _ _ _ := .ok pictureStat
  opens := by
    intro dir items item follow m hr hi ho
    cases hr
    cases List.mem_singleton.1 hi
    rw [← ho]
    cases follow <;> rfl

/-- The target at `/data`, with `/data/a.jpg` excluded. -/
def pictureTarget : Target where
  displayPath := ascii "/data"
  scanPath := ascii "/data"
  exclude := ⟨false, fun path => path = ascii "/data/a.jpg"⟩
  followSymlinks := false
  noCrossFilesystem := false
  reportMode := .tree
  reportDepth := 1
  maxDepth := none
  scanThreads := 1
  treeMaxDirectories := 10
  collectHandles := false

def pictureTree : DirTree where
  displayRoot := ascii "/data"
  scanRoot := ascii "/data"
  rootDev := 1
  nodes := [{ (default : DirNode) with ino := 2, alive := true }]
  links := .empty
  handles := []
  plain := []
  untrackedLinks := []

end StorageHarvester.Atlas
