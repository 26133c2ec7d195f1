/-
The configuration (`src/config.rs`): what is checked of it when it is loaded (`validate`), and the
targets its settings come to (`resolve_target`), each from the target itself, from `defaults` or
built in. Strings are their UTF-8 bytes, durations milliseconds, and what YAML holds is any value.
-/
import StorageHarvester.Scan.Basic

namespace StorageHarvester

/-- An ASCII string's bytes. -/
def ascii (s : String) : Bytes := s.toList.map fun c => UInt8.ofNat c.toNat

/-- A number as it is printed. -/
def decimal (n : Nat) : Bytes := (Nat.toDigits 10 n).map fun c => UInt8.ofNat c.toNat

theorem decimal_range (n : Nat) {b : UInt8} (hb : b ∈ decimal n) : 48 ≤ b.toNat ∧ b.toNat ≤ 57 := by
  obtain ⟨c, hc, rfl⟩ := List.mem_map.1 hb
  have hd := Nat.isDigit_of_mem_toDigits (by decide) (by decide) hc
  rw [Char.isDigit, Bool.and_eq_true, decide_eq_true_eq, decide_eq_true_eq] at hd
  have hlow : 48 ≤ c.toNat := hd.1
  have hhigh : c.toNat ≤ 57 := hd.2
  rw [UInt8.toNat_ofNat']
  omega

namespace Bytes

def isAsciiAlphabetic (b : UInt8) : Bool := (65 ≤ b && b ≤ 90) || (97 ≤ b && b ≤ 122)
def isAsciiAlphanumeric (b : UInt8) : Bool := isAsciiAlphabetic b || (48 ≤ b && b ≤ 57)

/-- `str::starts_with`. -/
def startsWith (s p : Bytes) : Bool := s.take p.length = p

/-- `str::split_once`, at a slash. -/
def splitOnce : Bytes → Option (Bytes × Bytes)
  | [] => none
  | b :: rest => if b = slash then some ([], rest) else (splitOnce rest).map fun e => (b :: e.1, e.2)

end Bytes

/-! ## The written configuration -/

inductive SizeMode where
  | blocks | apparent
  deriving DecidableEq, Repr

structure PlexConfig where
  url : Bytes
  paths : List (Bytes × Bytes)

/-- The parts of `atlas:` that are checked. -/
structure AtlasConfig where
  peers : List Bytes := []
  /-- `thumbnails.jobs`. -/
  jobs : Nat := 2
  plex : Option PlexConfig := none

/-- The parts of `live:` that are checked. -/
structure LiveConfig where
  btrfsPollInterval : Nat := 3000
  blockPollInterval : Nat := 1000

structure Defaults where
  scanner : Bytes := ascii "native"
  baselineInterval : Nat := 60000
  timeout : Nat := 30000
  noCrossFilesystem : Bool := true
  followSymlinks : Bool := false
  reportMode : ReportMode := .tree
  reportDepth : Nat := 1
  maxDepth : Option Nat := none
  scanThreads : Option Nat := none
  sizeModes : List SizeMode := [.blocks]
  exclude : List Bytes := []
  treeMaxDirectories : Nat := 500000
  live : Bool := true
  sharingInterval : Option Nat := none
  thumbnails : Bool := false

structure TargetConfig where
  name : Bytes
  type : Bytes := ascii "filesystem"
  path : Bytes
  pool : Option Bytes := none
  pveConfig : Option Bytes := none
  scanner : Option Bytes := none
  baselineInterval : Option Nat := none
  timeout : Option Nat := none
  noCrossFilesystem : Option Bool := none
  followSymlinks : Option Bool := none
  reportMode : Option ReportMode := none
  reportDepth : Option Nat := none
  /-- Absent: inherit the default. `null`: no cap. A number: that cap. -/
  maxDepth : Option (Option Nat) := none
  scanThreads : Option Nat := none
  sizeModes : Option (List SizeMode) := none
  exclude : List Bytes := []
  treeMaxDirectories : Option Nat := none
  live : Option Bool := none
  /-- Absent: inherit. `null`: off. A duration: that interval. -/
  sharingInterval : Option (Option Nat) := none
  thumbnails : Option Bool := none
  labels : List (Bytes × Bytes) := []

structure Config where
  hostRoot : Bytes := [slash]
  metricsPath : Bytes := ascii "/metrics"
  atlas : AtlasConfig := {}
  live : LiveConfig := {}
  defaults : Defaults := {}
  targets : List TargetConfig

/-! ## Checks -/

/-- What `check_scan_threads` is about. -/
inductive Scope where
  | defaults
  | target (name : Bytes)
  deriving DecidableEq, Repr

/-- What a configuration is refused for. -/
inductive ConfigError where
  /-- "metrics_path must start with /" -/
  | metricsPath
  /-- "at least one target is required" -/
  | noTargets
  /-- "\x7bscope\x7d scan_threads must be between 1 and 256" -/
  | scanThreads (scope : Scope)
  /-- "atlas peer \x7bpeer\x7d must be an http(s) URL" -/
  | peer (peer : Bytes)
  /-- "atlas.thumbnails.jobs must be at least 1" -/
  | jobs
  /-- "atlas.plex.url \x7burl\x7d must be an http:// URL" -/
  | plexUrl (url : Bytes)
  /-- "atlas.plex.paths \x7bfrom\x7d: \x7bto\x7d must both be absolute" -/
  | plexPath (path shown : Bytes)
  /-- "live.btrfs_poll_interval must be greater than zero" -/
  | btrfsPollInterval
  /-- "live.block_poll_interval must be greater than zero" -/
  | blockPollInterval
  /-- "target name cannot be empty" -/
  | emptyName
  /-- "target \x7bname\x7d contains unsupported label characters" -/
  | nameCharacters (name : Bytes)
  /-- "duplicate target name \x7bname\x7d" -/
  | duplicateName (name : Bytes)
  /-- "target \x7bname\x7d path must be absolute" -/
  | relativePath (name : Bytes)
  /-- "target \x7bname\x7d baseline_interval must be greater than zero" -/
  | baselineInterval (name : Bytes)
  /-- "target \x7bname\x7d sharing_interval must be greater than zero" -/
  | sharingInterval (name : Bytes)
  /-- "target \x7bname\x7d timeout must be greater than zero" -/
  | timeout (name : Bytes)
  /-- "target \x7bname\x7d size_modes cannot be empty" -/
  | sizeModes (name : Bytes)
  /-- "target \x7bname\x7d label \x7bkey\x7d is not a valid Prometheus label name" -/
  | labelName (name key : Bytes)
  /-- "target \x7bname\x7d label \x7bkey\x7d collides with a built-in label" -/
  | builtinLabel (name key : Bytes)
  /-- "target \x7bname\x7d: pool and pve_config are for type lvm_thin" -/
  | poolOfFilesystem (name : Bytes)
  /-- "target \x7bname\x7d (lvm_thin) needs pool: <volume group>/<thin pool>" -/
  | poolMissing (name : Bytes)
  /-- "target \x7bname\x7d uses unsupported target type \x7btype\x7d" -/
  | targetType (name type : Bytes)
  /-- "target \x7bname\x7d (lvm_thin) cannot use scanner \x7bscanner\x7d" -/
  | lvmScanner (name scanner : Bytes)
  /-- "target \x7bname\x7d uses unsupported scanner \x7bscanner\x7d" -/
  | scanner (name scanner : Bytes)
  /-- "target path must be absolute" -/
  | targetPath
  /-- "target \x7bname\x7d max_depth (\x7bcap\x7d) must be greater than or equal to report_depth (\x7bdepth\x7d)" -/
  | maxDepth (name : Bytes) (cap depth : Nat)
  deriving DecidableEq, Repr

namespace Config

/-- `if !ok { bail!(..) }`. -/
def ensure (ok : Bool) (error : ConfigError) : Except ConfigError Unit := if ok then .ok () else .error error

def maxScanThreads : Nat := 256

def scanThreadsOk (threads : Nat) : Bool := 1 ≤ threads && threads ≤ maxScanThreads

def checkScanThreads (scope : Scope) (threads : Nat) : Except ConfigError Unit :=
  ensure (scanThreadsOk threads) (.scanThreads scope)

/-- Labels the exporter sets itself. -/
def builtinLabels : List Bytes :=
  ["target", "target_type", "path", "parent", "node", "depth", "size_mode", "backend", "entry_type", "issue"].map ascii

/-- A valid Prometheus label name that is not reserved. -/
def isLabelName (key : Bytes) : Bool :=
  (match key with
    | [] => false
    | b :: _ => Bytes.isAsciiAlphabetic b || b = 95) &&
    key.all (fun b => Bytes.isAsciiAlphanumeric b || b = 95) && !Bytes.startsWith key [95, 95]

def checkLabels (name : Bytes) : List (Bytes × Bytes) → Except ConfigError Unit
  | [] => .ok ()
  | (key, _) :: labels => do
    ensure (isLabelName key) (.labelName name key)
    ensure (!builtinLabels.contains key) (.builtinLabel name key)
    checkLabels name labels

def checkThreads (scope : Scope) : Option Nat → Except ConfigError Unit
  | none => .ok ()
  | some threads => checkScanThreads scope threads

def isAbsolute (path : Bytes) : Bool := path.head? = some slash

/-- One target's checks; `names` are the targets before it. -/
def checkTarget (names : List Bytes) (t : TargetConfig) : Except ConfigError Unit := do
  ensure (t.name ≠ []) .emptyName
  ensure (t.name.all fun b => Bytes.isAsciiAlphanumeric b || b = 95 || b = 45 || b = 46) (.nameCharacters t.name)
  ensure (!names.contains t.name) (.duplicateName t.name)
  ensure (isAbsolute t.path) (.relativePath t.name)
  ensure (t.baselineInterval ≠ some 0) (.baselineInterval t.name)
  ensure (t.sharingInterval ≠ some (some 0)) (.sharingInterval t.name)
  ensure (t.timeout ≠ some 0) (.timeout t.name)
  checkThreads (.target t.name) t.scanThreads
  ensure (t.sizeModes ≠ some []) (.sizeModes t.name)
  checkLabels t.name t.labels

def checkTargets : List Bytes → List TargetConfig → Except ConfigError Unit
  | _, [] => .ok ()
  | names, t :: targets => do
    checkTarget names t
    checkTargets (names ++ [t.name]) targets

def checkPeers : List Bytes → Except ConfigError Unit
  | [] => .ok ()
  | peer :: peers => do
    ensure (Bytes.startsWith peer (ascii "http://") || Bytes.startsWith peer (ascii "https://")) (.peer peer)
    checkPeers peers

def checkPlexPaths : List (Bytes × Bytes) → Except ConfigError Unit
  | [] => .ok ()
  | (path, shown) :: paths => do
    ensure (path.head? = some slash && shown.head? = some slash) (.plexPath path shown)
    checkPlexPaths paths

def checkPlex : Option PlexConfig → Except ConfigError Unit
  | none => .ok ()
  | some plex => do
    ensure (Bytes.startsWith plex.url (ascii "http://")) (.plexUrl plex.url)
    checkPlexPaths plex.paths

def validate (c : Config) : Except ConfigError Unit := do
  ensure (c.metricsPath.head? = some slash) .metricsPath
  ensure (!c.targets.isEmpty) .noTargets
  checkThreads .defaults c.defaults.scanThreads
  checkPeers c.atlas.peers
  ensure (c.atlas.jobs ≠ 0) .jobs
  checkPlex c.atlas.plex
  ensure (c.live.btrfsPollInterval ≠ 0) .btrfsPollInterval
  ensure (c.live.blockPollInterval ≠ 0) .blockPollInterval
  checkTargets [] c.targets

/-! ## Resolving -/

/-- `PathBuf::push`. -/
def pushPath (path part : Bytes) : Bytes :=
  if isAbsolute part || path = [] then part else pushComponent path part

/-- `path.components().collect()`, of an absolute path. -/
def normalizeDisplayPath (path : Bytes) : Except ConfigError Bytes :=
  if isAbsolute path then .ok (((pathComponents path).map PathComponent.bytes).foldl pushPath []) else .error .targetPath

/-- What follows the root of a path, from its first component on. -/
def belowRoot : Bytes → Bytes
  | [] => []
  | [b] => if b = slash ∨ b = 46 then [] else [b]
  | b :: b' :: rest =>
    if b = slash then belowRoot (b' :: rest)
    else if b = 46 ∧ b' = slash then belowRoot rest
    else b :: b' :: rest

def joinHostRoot (hostRoot path : Bytes) : Bytes := pushPath hostRoot (if isAbsolute path then belowRoot path else path)

/-- A Proxmox thin pool (`type: lvm_thin`). -/
structure LvmTarget where
  vg : Bytes
  pool : Bytes
  /-- `/etc/pve` under the host root. -/
  pveConfig : Bytes

/-- A target with all its settings. -/
structure Target where
  name : Bytes
  targetType : Bytes
  scanner : Bytes
  displayPath : Bytes
  scanPath : Bytes
  baselineInterval : Nat
  timeout : Nat
  noCrossFilesystem : Bool
  followSymlinks : Bool
  reportMode : ReportMode
  reportDepth : Nat
  maxDepth : Option Nat
  scanThreads : Nat
  sizeModes : List SizeMode
  exclude : List Bytes
  treeMaxDirectories : Nat
  live : Bool
  sharingInterval : Option Nat
  thumbnails : Bool
  collectHandles : Bool
  lvm : Option LvmTarget
  labels : List (Bytes × Bytes)

/-- One walker per available CPU, up to 16, where the system says how many there are. -/
def defaultScanThreads (parallelism : Option Nat) : Nat := min (max (parallelism.getD 4) 1) 16

/-- The thin pool a target maps, if it does. -/
def resolveLvm (c : Config) (t : TargetConfig) : Except ConfigError (Option LvmTarget) :=
  if t.type = ascii "filesystem" then
    if t.pool.isSome || t.pveConfig.isSome then .error (.poolOfFilesystem t.name) else .ok none
  else if t.type = ascii "lvm_thin" then
    match Bytes.splitOnce (t.pool.getD []) with
    | some (vg, lv) =>
      if vg = [] ∨ lv = [] ∨ slash ∈ lv then .error (.poolMissing t.name)
      else .ok (some ⟨vg, lv, joinHostRoot c.hostRoot (t.pveConfig.getD (ascii "/etc/pve"))⟩)
    | none => .error (.poolMissing t.name)
  else .error (.targetType t.name t.type)

def resolveScanner (c : Config) (t : TargetConfig) (lvm : Option LvmTarget) : Except ConfigError Bytes :=
  match lvm with
  | some _ =>
    match t.scanner with
    | none => .ok (ascii "lvm")
    | some scanner => if scanner = ascii "lvm" then .ok scanner else .error (.lvmScanner t.name scanner)
  | none =>
    let scanner := t.scanner.getD c.defaults.scanner
    if scanner ≠ ascii "native" then .error (.scanner t.name scanner) else .ok scanner

/-- The walk's depth, which reaches at least the reported directories. -/
def resolveDepth (c : Config) (t : TargetConfig) : Except ConfigError (Option Nat) :=
  let reportDepth := t.reportDepth.getD c.defaults.reportDepth
  match t.maxDepth.getD c.defaults.maxDepth with
  | none => .ok none
  | some cap => if cap < reportDepth then .error (.maxDepth t.name cap reportDepth) else .ok (some cap)

def resolveTarget (parallelism : Option Nat) (c : Config) (t : TargetConfig) : Except ConfigError Target := do
  let lvm ← resolveLvm c t
  let scanner ← resolveScanner c t lvm
  let displayPath ← normalizeDisplayPath t.path
  let maxDepth ← resolveDepth c t
  .ok
    { name := t.name
      targetType := t.type
      scanner := scanner
      displayPath := displayPath
      scanPath := joinHostRoot c.hostRoot displayPath
      baselineInterval := t.baselineInterval.getD c.defaults.baselineInterval
      timeout := t.timeout.getD c.defaults.timeout
      noCrossFilesystem := t.noCrossFilesystem.getD c.defaults.noCrossFilesystem
      followSymlinks := t.followSymlinks.getD c.defaults.followSymlinks
      reportMode := t.reportMode.getD c.defaults.reportMode
      reportDepth := t.reportDepth.getD c.defaults.reportDepth
      maxDepth := maxDepth
      scanThreads := (t.scanThreads.or c.defaults.scanThreads).getD (defaultScanThreads parallelism)
      sizeModes := t.sizeModes.getD c.defaults.sizeModes
      exclude := c.defaults.exclude ++ t.exclude
      treeMaxDirectories := t.treeMaxDirectories.getD c.defaults.treeMaxDirectories
      live := t.live.getD c.defaults.live
      sharingInterval := t.sharingInterval.getD c.defaults.sharingInterval
      -- a thin pool's nodes are guests and disks, not files
      thumbnails := lvm.isNone && t.thumbnails.getD c.defaults.thumbnails
      collectHandles := false
      lvm := lvm
      labels := t.labels }

/-- `resolved_targets`, from the targets given. -/
def resolveAll (parallelism : Option Nat) (c : Config) : List TargetConfig → Except ConfigError (List Target)
  | [] => .ok []
  | t :: targets => do
    let resolved ← resolveTarget parallelism c t
    let rest ← resolveAll parallelism c targets
    .ok (resolved :: rest)

def resolvedTargets (parallelism : Option Nat) (c : Config) : Except ConfigError (List Target) :=
  resolveAll parallelism c c.targets

/-! ## What accepted settings come to -/

/-- What the engine relies on in a target. -/
structure Target.Valid (t : Target) : Prop where
  baselineInterval : t.baselineInterval ≠ 0
  timeout : t.timeout ≠ 0
  sharingInterval : t.sharingInterval ≠ some 0
  sizeModes : t.sizeModes ≠ []
  scanThreads : scanThreadsOk t.scanThreads = true
  maxDepth : ∀ cap, t.maxDepth = some cap → t.reportDepth ≤ cap

/-- Each default is valid, or no target goes by it. -/
structure DefaultsHold (c : Config) : Prop where
  baselineInterval : c.defaults.baselineInterval ≠ 0 ∨ ∀ t ∈ c.targets, t.baselineInterval.isSome
  timeout : c.defaults.timeout ≠ 0 ∨ ∀ t ∈ c.targets, t.timeout.isSome
  sharingInterval : c.defaults.sharingInterval ≠ some 0 ∨ ∀ t ∈ c.targets, t.sharingInterval.isSome
  sizeModes : c.defaults.sizeModes ≠ [] ∨ ∀ t ∈ c.targets, t.sizeModes.isSome

theorem bind_eq_ok {α β : Type} {x : Except ConfigError α} {f : α → Except ConfigError β} {b : β} :
    (x >>= f) = .ok b ↔ ∃ a, x = .ok a ∧ f a = .ok b := by
  cases x with
  | error e =>
    constructor
    · rintro ⟨⟩
    · rintro ⟨a, ha, -⟩
      cases ha
  | ok a => simp [bind, Except.bind]

theorem ensure_eq_ok {ok : Bool} {error : ConfigError} {u : Unit} : ensure ok error = .ok u ↔ ok = true := by
  unfold ensure
  cases ok <;> simp

/-- What the checks of a target say of its own settings. -/
structure Checked (t : TargetConfig) : Prop where
  baselineInterval : t.baselineInterval ≠ some 0
  timeout : t.timeout ≠ some 0
  sharingInterval : t.sharingInterval ≠ some (some 0)
  sizeModes : t.sizeModes ≠ some []
  scanThreads : ∀ threads, t.scanThreads = some threads → scanThreadsOk threads = true

theorem checkThreads_eq_ok {scope : Scope} {threads : Option Nat} {u : Unit} (h : checkThreads scope threads = .ok u) :
    ∀ n, threads = some n → scanThreadsOk n = true := by
  rintro n rfl
  exact ensure_eq_ok.1 h

theorem checked_of_checkTarget {names : List Bytes} {t : TargetConfig} {u : Unit} (h : checkTarget names t = .ok u) : Checked t := by
  unfold checkTarget at h
  simp only [bind_eq_ok, ensure_eq_ok, decide_eq_true_eq, exists_and_left, exists_const] at h
  obtain ⟨-, -, -, -, hb, hs, ht, _, hthreads, hm, -⟩ := h
  exact ⟨hb, ht, hs, hm, checkThreads_eq_ok hthreads⟩

theorem checked_of_checkTargets : ∀ {names : List Bytes} {targets : List TargetConfig} {u : Unit},
    checkTargets names targets = .ok u → ∀ t ∈ targets, Checked t
  | _, [], _, _, t, ht => absurd ht (List.not_mem_nil)
  | names, t₀ :: targets, u, h, t, ht => by
    rw [checkTargets, bind_eq_ok] at h
    obtain ⟨_, h0, hrest⟩ := h
    rcases List.mem_cons.1 ht with rfl | ht
    · exact checked_of_checkTarget h0
    · exact checked_of_checkTargets hrest t ht

theorem checked_of_validate {c : Config} (h : c.validate = .ok ()) :
    (∀ t ∈ c.targets, Checked t) ∧ ∀ threads, c.defaults.scanThreads = some threads → scanThreadsOk threads = true := by
  unfold validate at h
  simp only [bind_eq_ok, ensure_eq_ok, exists_and_left, exists_const] at h
  obtain ⟨-, -, _, hthreads, _, -, -, _, -, -, -, htargets⟩ := h
  exact ⟨checked_of_checkTargets htargets, checkThreads_eq_ok hthreads⟩

/-- Where each setting of a resolved target comes from. -/
structure Resolved (parallelism : Option Nat) (c : Config) (t : TargetConfig) (r : Target) : Prop where
  baselineInterval : r.baselineInterval = t.baselineInterval.getD c.defaults.baselineInterval
  timeout : r.timeout = t.timeout.getD c.defaults.timeout
  sharingInterval : r.sharingInterval = t.sharingInterval.getD c.defaults.sharingInterval
  sizeModes : r.sizeModes = t.sizeModes.getD c.defaults.sizeModes
  scanThreads : r.scanThreads = (t.scanThreads.or c.defaults.scanThreads).getD (defaultScanThreads parallelism)
  maxDepth : ∀ cap, r.maxDepth = some cap → r.reportDepth ≤ cap

theorem resolved_of_resolveTarget {parallelism : Option Nat} {c : Config} {t : TargetConfig} {r : Target}
    (h : resolveTarget parallelism c t = .ok r) : Resolved parallelism c t r := by
  unfold resolveTarget at h
  simp only [bind_eq_ok] at h
  obtain ⟨lvm, -, scanner, -, displayPath, -, maxDepth, hdepth, h⟩ := h
  cases h
  refine ⟨rfl, rfl, rfl, rfl, rfl, ?_⟩
  rintro cap rfl
  unfold resolveDepth at hdepth
  simp only at hdepth
  split at hdepth
  · cases hdepth
  · split at hdepth
    · cases hdepth
    · cases hdepth
      exact Nat.le_of_not_lt ‹_›

theorem resolved_of_resolveAll {parallelism : Option Nat} {c : Config} : ∀ {targets : List TargetConfig} {resolved : List Target},
    resolveAll parallelism c targets = .ok resolved → List.Forall₂ (Resolved parallelism c) targets resolved
  | [], resolved, h => by cases h; exact .nil
  | t :: targets, resolved, h => by
    rw [resolveAll] at h
    simp only [bind_eq_ok] at h
    obtain ⟨r, hr, rest, hrest, h⟩ := h
    cases h
    exact .cons (resolved_of_resolveTarget hr) (resolved_of_resolveAll hrest)

theorem scanThreadsOk_default (parallelism : Option Nat) : scanThreadsOk (defaultScanThreads parallelism) = true := by
  unfold scanThreadsOk defaultScanThreads maxScanThreads
  simp only [Bool.and_eq_true, decide_eq_true_eq]
  omega

/-- A checked target's resolved settings are valid exactly where it goes by valid defaults. -/
theorem valid_iff {parallelism : Option Nat} {c : Config} {t : TargetConfig} {r : Target} (hc : Checked t)
    (hd : ∀ threads, c.defaults.scanThreads = some threads → scanThreadsOk threads = true) (hr : Resolved parallelism c t r) :
    r.Valid ↔ (c.defaults.baselineInterval ≠ 0 ∨ t.baselineInterval.isSome) ∧ (c.defaults.timeout ≠ 0 ∨ t.timeout.isSome) ∧
      (c.defaults.sharingInterval ≠ some 0 ∨ t.sharingInterval.isSome) ∧ (c.defaults.sizeModes ≠ [] ∨ t.sizeModes.isSome) := by
  have hb : r.baselineInterval ≠ 0 ↔ c.defaults.baselineInterval ≠ 0 ∨ t.baselineInterval.isSome := by
    have := hc.baselineInterval
    rw [hr.baselineInterval]
    cases h : t.baselineInterval <;> simp_all
  have ht : r.timeout ≠ 0 ↔ c.defaults.timeout ≠ 0 ∨ t.timeout.isSome := by
    have := hc.timeout
    rw [hr.timeout]
    cases h : t.timeout <;> simp_all
  have hs : r.sharingInterval ≠ some 0 ↔ c.defaults.sharingInterval ≠ some 0 ∨ t.sharingInterval.isSome := by
    have := hc.sharingInterval
    rw [hr.sharingInterval]
    cases h : t.sharingInterval <;> simp_all
  have hm : r.sizeModes ≠ [] ↔ c.defaults.sizeModes ≠ [] ∨ t.sizeModes.isSome := by
    have := hc.sizeModes
    rw [hr.sizeModes]
    cases h : t.sizeModes <;> simp_all
  have hthreads : scanThreadsOk r.scanThreads = true := by
    rw [hr.scanThreads]
    cases h : t.scanThreads with
    | some n => exact hc.scanThreads n h
    | none =>
      cases h' : c.defaults.scanThreads with
      | some n => exact hd n h'
      | none => exact scanThreadsOk_default parallelism
  rw [← hb, ← ht, ← hs, ← hm]
  constructor
  · intro h
    exact ⟨h.baselineInterval, h.timeout, h.sharingInterval, h.sizeModes⟩
  · rintro ⟨h1, h2, h3, h4⟩
    exact ⟨h1, h2, h3, h4, hthreads, hr.maxDepth⟩

/-- The targets of an accepted configuration are all valid exactly when no target goes by a default
that is not. -/
theorem resolved_valid_iff (parallelism : Option Nat) (c : Config) (targets : List Target) (hv : c.validate = .ok ())
    (hr : c.resolvedTargets parallelism = .ok targets) : (∀ t ∈ targets, t.Valid) ↔ c.DefaultsHold := by
  obtain ⟨hchecked, hthreads⟩ := checked_of_validate hv
  have hall := resolved_of_resolveAll hr
  have hpair : (∀ r ∈ targets, r.Valid) ↔ ∀ t ∈ c.targets,
      (c.defaults.baselineInterval ≠ 0 ∨ t.baselineInterval.isSome) ∧ (c.defaults.timeout ≠ 0 ∨ t.timeout.isSome) ∧
        (c.defaults.sharingInterval ≠ some 0 ∨ t.sharingInterval.isSome) ∧ (c.defaults.sizeModes ≠ [] ∨ t.sizeModes.isSome) := by
    clear hr
    revert hchecked hall
    generalize c.targets = written
    intro hchecked hall
    induction hall with
    | nil => simp
    | cons h _ ih =>
      rw [List.forall_mem_cons, List.forall_mem_cons, valid_iff (hchecked _ (List.mem_cons_self ..)) hthreads h,
        ih fun t ht => hchecked t (List.mem_cons_of_mem _ ht)]
  rw [hpair]
  constructor
  · intro h
    exact ⟨Classical.or_iff_not_imp_left.2 fun hn t ht => (h t ht).1.resolve_left hn,
      Classical.or_iff_not_imp_left.2 fun hn t ht => (h t ht).2.1.resolve_left hn,
      Classical.or_iff_not_imp_left.2 fun hn t ht => (h t ht).2.2.1.resolve_left hn,
      Classical.or_iff_not_imp_left.2 fun hn t ht => (h t ht).2.2.2.resolve_left hn⟩
  · intro h t ht
    exact ⟨h.baselineInterval.imp_right fun h => h t ht, h.timeout.imp_right fun h => h t ht,
      h.sharingInterval.imp_right fun h => h t ht, h.sizeModes.imp_right fun h => h t ht⟩

/-- One target, with `baseline_interval: 0s` under `defaults`. -/
def zeroInterval : Config where
  defaults := { baselineInterval := 0 }
  targets := [{ name := ascii "data", path := ascii "/data" }]

/-- With a zero default that its target sets itself. -/
def ownInterval : Config where
  defaults := { baselineInterval := 0 }
  targets := [{ name := ascii "data", path := ascii "/data", baselineInterval := some 1000 }]

theorem resolved_valid_own :
    ∃ targets, ownInterval.validate = .ok () ∧ ownInterval.resolvedTargets none = .ok targets ∧
      ((∀ t ∈ targets, t.Valid) ↔ ownInterval.DefaultsHold) :=
  ⟨_, by decide, rfl, resolved_valid_iff none ownInterval _ (by decide) rfl⟩

/-- A zero interval under `defaults` is accepted and reaches the target. -/
theorem zero_interval_accepted :
    ∃ targets, zeroInterval.validate = .ok () ∧ zeroInterval.resolvedTargets none = .ok targets ∧ ∃ t ∈ targets, ¬t.Valid :=
  ⟨_, by decide, rfl, _, List.mem_singleton_self _, fun h => h.baselineInterval rfl⟩

end Config

end StorageHarvester
