/-
Polling a subvolume for changed directories (`Watcher` in `src/btrfs.rs`). The file system takes changes
and commits in any order with the calls a poll makes; a poll searches the leaves of the generations since
the last successful one and looks up the directories of every changed file. The first successful poll
whose generation reading a change had reached reports it, if the inode is still committed when the
search passes it.
-/
import StorageHarvester.Btrfs.Search

namespace StorageHarvester.Btrfs

/-! ## The items of an inode -/

def inodeItem : Nat := 1
def dirItem : Nat := 84
def dirIndex : Nat := 96

def u32At (data : Bytes) (at_ : Nat) : Nat := ((LittleEndian.window data at_ 4).map LittleEndian.read).getD 0

/-- `S_IFMT` and `S_IFDIR`. -/
def modeMask : Nat := 61440
def modeDir : Nat := 16384

def inodeKey (o : Nat) : Key := ⟨o, inodeItem, 0⟩

/-- The transaction that changed an inode last. -/
def Item.transid (i : Item) : Nat := u64At i.data 8

def Item.isDir (i : Item) : Bool := u32At i.data 52 &&& modeMask == modeDir

/-- The parent directories of an item of names. -/
def Item.parents (i : Item) : List Nat :=
  if i.key.kind = inodeRef then [i.key.offset]
  else (records 18 i.data (i.data.length + 1) 0).map fun r => u64At i.data r.1

namespace Tree

def Alive (t : Tree) (o : Nat) : Prop := ∃ l ∈ t.leaves, l.item.key = inodeKey o

def IsDirectory (t : Tree) (o : Nat) : Prop := ∃ l ∈ t.leaves, l.item.key = inodeKey o ∧ l.item.isDir = true

/-- The inode was changed at transaction `n` or later, and its leaf was written since. -/
def Stamped (t : Tree) (o n : Nat) : Prop :=
  ∃ l ∈ t.leaves, l.item.key = inodeKey o ∧ n ≤ l.item.transid ∧ n ≤ l.generation

/-- The directories holding a link of an inode. -/
def parentsOf (t : Tree) (o : Nat) : List Nat :=
  ((t.wanted ⟨o, inodeRef, 0⟩ ⟨o, inodeExtref, u64Max⟩ 0).map Leaf.item).flatMap Item.parents

theorem mem_parentsOf {t : Tree} {o d : Nat} :
    d ∈ t.parentsOf o ↔ ∃ l ∈ t.wanted ⟨o, inodeRef, 0⟩ ⟨o, inodeExtref, u64Max⟩ 0, d ∈ l.item.parents := by
  simp [parentsOf]

theorem Stamped.mono {t : Tree} {o n m : Nat} (h : t.Stamped o m) (hm : n ≤ m) : t.Stamped o n := by
  obtain ⟨l, hl, hk, ht, hg⟩ := h
  exact ⟨l, hl, hk, Nat.le_trans hm ht, Nat.le_trans hm hg⟩

end Tree

/-! ## The file system -/

/-- A subvolume: `generation` is the one its root item names, `running` the open transaction. -/
structure Fs where
  generation : Nat
  running : Nat
  committed : Tree
  current : Tree
  /-- Every change so far: the transaction it ran in, and the inode. -/
  changes : List (Nat × Nat)

/-- What one change to inode `o` does to the tree. -/
structure Changed (fs : Fs) (o : Nat) (new : Tree) : Prop where
  number : o ≤ u64Max
  /-- The items of other inodes stay; their leaves may be written anew. -/
  keeps : ∀ l ∈ fs.current.leaves, l.item.key.objectid ≠ o → ∃ l' ∈ new.leaves, l'.item = l.item ∧ l.generation ≤ l'.generation
  adds : ∀ l' ∈ new.leaves, l'.item.key.objectid ≠ o → ∃ l ∈ fs.current.leaves, l.item = l'.item
  stamps : ∀ l ∈ new.leaves, l.item.key = inodeKey o → l.item.transid = fs.running ∧ l.generation = fs.running
  /-- An inode keeps its type. -/
  kind : ∀ l ∈ fs.current.leaves, ∀ l' ∈ new.leaves, l.item.key = inodeKey o → l'.item.key = inodeKey o → l'.item.isDir = l.item.isDir
  /-- An inode number is not used again. -/
  unused : new.Alive o → fs.current.Alive o ∨ ∀ t, (t, o) ∉ fs.changes

inductive FsStep : Fs → Fs → Prop
  | change {fs : Fs} {o : Nat} {new : Tree} (hc : Changed fs o new) :
      FsStep fs { fs with current := new, changes := (fs.running, o) :: fs.changes }
  /-- The root item is written by a transaction that changed the subvolume. -/
  | commit {fs : Fs} {generation : Nat}
      (hg : generation = fs.running ∨ (generation = fs.generation ∧ ∀ c ∈ fs.changes, c.1 < fs.running)) :
      FsStep fs { fs with committed := fs.current, generation := generation, running := fs.running + 1 }

/-- A file system as it is mounted, and every later state of it. -/
inductive Fs.Reachable : Fs → Prop
  | mounted {fs : Fs} (hg : fs.generation < fs.running) (hc : fs.current = fs.committed) (hn : fs.changes = []) : Reachable fs
  | step {fs fs' : Fs} (h : Reachable fs) (hs : FsStep fs fs') : Reachable fs'

/-- An item of names that names `d`. -/
def Item.Names (i : Item) (d : Nat) : Prop := (i.key.kind = inodeRef ∨ i.key.kind = inodeExtref) ∧ d ∈ i.parents

/-- What a call sees: every committed item, or the newer one the running transaction has under its key, as
long as that keeps its names; of the running transaction as much as it may be. -/
structure Fs.Sees (fs : Fs) (view : Tree) : Prop where
  committed : ∀ l ∈ fs.committed.leaves, l ∈ view.leaves ∨ ∃ l' ∈ view.leaves, l' ∈ fs.current.leaves ∧
    l'.item.key = l.item.key ∧ ∀ d, l.item.Names d → l'.item.Names d
  only : ∀ l ∈ view.leaves, l ∈ fs.committed.leaves ∨ l ∈ fs.current.leaves

/-! ## The watcher -/

/-- The inodes a search found changed. -/
structure Found where
  dirs : List Nat := []
  files : List Nat := []
  deriving DecidableEq, Repr

/-- What one item of a search says. -/
def Found.item (floor : Nat) (g : Found) (i : Item) : Found :=
  let o := i.key.objectid
  if i.key.kind = inodeItem ∧ floor ≤ i.transid then
    if i.isDir then { g with dirs := g.dirs.insert o } else { g with files := g.files.insert o }
  else if (i.key.kind = dirItem ∨ i.key.kind = dirIndex) ∧ floor ≤ u64At i.data 17 then { g with dirs := g.dirs.insert o }
  else if i.key.kind = extentData ∧ floor ≤ u64At i.data 0 then { g with files := g.files.insert o }
  else g

def Found.items (floor : Nat) (g : Found) (is : List Item) : Found := is.foldl (Found.item floor) g

/-- One call of a search: the keys it passed, and how the file system was. -/
structure Passage where
  first : Key
  last : Key
  fs : Fs

def Passage.Covers (p : Passage) (k : Key) : Prop := p.first.le k ∧ k.le p.last

inductive Watcher.Phase where
  | idle
  /-- In the search, from `next` on; the generation read was `committed`. `passed` are its calls so far. -/
  | searching (committed : Nat) (next : Key) (found : Found) (passed : List Passage)
  /-- Looking up the directories of `files`; `looked` are the files looked up, and when. -/
  | looking (committed : Nat) (dirs files : List Nat) (passed : List Passage) (looked : List (Nat × Fs))

/-- A successful poll: the generation it read, the directories it named, and for the record the calls of its
search, when it looked up each file and how the file system was at its end. -/
structure Report where
  committed : Nat
  dirs : List Nat
  passed : List Passage
  looked : List (Nat × Fs)
  fs : Fs

structure Watcher where
  fs : Fs
  /-- The generation read when it was opened. -/
  opened : Nat
  floor : Nat
  phase : Watcher.Phase
  reports : List Report

def Watcher.open_ (fs : Fs) : Watcher := ⟨fs, fs.generation, fs.generation, .idle, []⟩

/-- Where a search goes on after its last item. -/
def Watcher.Phase.goOn (committed : Nat) (found : Found) (passed : List Passage) : Option Key → Watcher.Phase
  | some next => .searching committed next found passed
  | none => .looking committed found.dirs found.files passed []

inductive Step : Watcher → Watcher → Prop
  | fs {w : Watcher} {fs' : Fs} (hs : FsStep w.fs fs') : Step w { w with fs := fs' }
  | readFails {w : Watcher} (hp : w.phase = .idle) : Step w w
  | start {w : Watcher} (hp : w.phase = .idle) : Step w { w with phase := .searching w.fs.generation .least {} [] }
  /-- One call of a search answered with items. -/
  | answer {w : Watcher} {committed room : Nat} {next : Key} {found : Found} {passed : List Passage} {view : Tree} {last : Item}
      (hp : w.phase = .searching committed next found passed) (hv : w.fs.Sees view)
      (hl : (view.search next .greatest w.floor room).getLast? = some last) :
      Step w { w with
        phase := .goOn committed (found.items w.floor (view.search next .greatest w.floor room)) (⟨next, last.key, w.fs⟩ :: passed)
          last.key.successor }
  /-- There are no more items. -/
  | searched {w : Watcher} {committed room : Nat} {next : Key} {found : Found} {passed : List Passage} {view : Tree}
      (hp : w.phase = .searching committed next found passed) (hv : w.fs.Sees view) (hr : 0 < room)
      (hn : view.search next .greatest w.floor room = []) :
      Step w { w with phase := .goOn committed found (⟨next, .greatest, w.fs⟩ :: passed) none }
  | searchFails {w : Watcher} {committed : Nat} {next : Key} {found : Found} {passed : List Passage}
      (hp : w.phase = .searching committed next found passed) : Step w { w with phase := .idle }
  | lookUp {w : Watcher} {committed file : Nat} {dirs files : List Nat} {passed : List Passage} {looked : List (Nat × Fs)} {view : Tree}
      (hp : w.phase = .looking committed dirs files passed looked) (hf : file ∈ files) (hv : w.fs.Sees view) :
      Step w { w with phase := .looking committed (dirs ∪ view.parentsOf file) (files.erase file) passed ((file, w.fs) :: looked) }
  | lookUpFails {w : Watcher} {committed : Nat} {dirs files : List Nat} {passed : List Passage} {looked : List (Nat × Fs)}
      (hp : w.phase = .looking committed dirs files passed looked) : Step w { w with phase := .idle }
  | finish {w : Watcher} {committed : Nat} {dirs : List Nat} {passed : List Passage} {looked : List (Nat × Fs)}
      (hp : w.phase = .looking committed dirs [] passed looked) :
      Step w { w with
        floor := committed + 1
        phase := .idle
        reports := w.reports ++ [⟨committed, dirs, passed, looked, w.fs⟩] }

inductive Reachable : Watcher → Prop
  | opened {fs : Fs} (hf : fs.Reachable) : Reachable (.open_ fs)
  | step {w w' : Watcher} (h : Reachable w) (hs : Step w w') : Reachable w'

/-- A directory is reported itself, a file as every directory that held a link when it was looked up. -/
def Report.Tells (r : Report) (fs : Fs) (o : Nat) : Prop :=
  (fs.committed.IsDirectory o ∧ o ∈ r.dirs) ∨
    (¬ fs.committed.IsDirectory o ∧ ∃ at_, (o, at_) ∈ r.looked ∧ ∀ d ∈ at_.committed.parentsOf o, d ∈ r.dirs)

/-- The search has passed the inode, and tells of it if it was committed then. -/
def Report.Accounts (r : Report) (o : Nat) : Prop :=
  (∃ p ∈ r.passed, p.Covers (inodeKey o)) ∧
    ∀ p ∈ r.passed, p.Covers (inodeKey o) → p.fs.committed.Alive o → r.Tells p.fs o

/-! ## What the file system keeps -/

namespace Changed

variable {fs : Fs} {o : Nat} {new : Tree}

theorem alive_of_ne (h : Changed fs o new) {o' : Nat} (hne : o' ≠ o) (ha : new.Alive o') : fs.current.Alive o' := by
  obtain ⟨l', hl', hk⟩ := ha
  obtain ⟨l, hl, hi⟩ := h.adds l' hl' (by rw [hk]; exact hne)
  exact ⟨l, hl, by rw [hi, hk]⟩

/-- An inode that was changed before and is there now has been there all the time. -/
theorem alive (h : Changed fs o new) {t o' : Nat} (hc : (t, o') ∈ fs.changes) (ha : new.Alive o') : fs.current.Alive o' := by
  by_cases hne : o' = o
  · subst hne
    exact (h.unused ha).resolve_right fun hno => hno t hc
  · exact h.alive_of_ne hne ha

/-- A change leaves no older stamp behind. -/
theorem stamped (h : Changed fs o new) {n o' : Nat} (hs : fs.current.Stamped o' n) (hn : n ≤ fs.running) (ha : new.Alive o') :
    new.Stamped o' n := by
  by_cases hne : o' = o
  · subst hne
    obtain ⟨l', hl', hk'⟩ := ha
    obtain ⟨ht, hg⟩ := h.stamps l' hl' hk'
    exact ⟨l', hl', hk', by omega, by omega⟩
  · obtain ⟨l, hl, hk, ht, hg⟩ := hs
    obtain ⟨l', hl', hi, hg'⟩ := h.keeps l hl (by rw [hk]; exact hne)
    exact ⟨l', hl', by rw [hi, hk], by rw [hi]; exact ht, Nat.le_trans hg hg'⟩

end Changed

namespace Fs

/-- What holds of every file system: a change is stamped in the current tree, and once its transaction is
over also in the committed one. -/
structure Inv (fs : Fs) : Prop where
  behind : fs.generation < fs.running
  begun : ∀ c ∈ fs.changes, c.1 ≤ fs.running
  numbers : ∀ c ∈ fs.changes, c.2 ≤ u64Max
  current : ∀ c ∈ fs.changes, fs.current.Alive c.2 → fs.current.Stamped c.2 c.1
  committed : ∀ c ∈ fs.changes, c.1 < fs.running → fs.committed.Alive c.2 → fs.committed.Stamped c.2 c.1
  kind : ∀ o, ∀ l ∈ fs.current.leaves, ∀ l' ∈ fs.committed.leaves, l.item.key = inodeKey o → l'.item.key = inodeKey o →
    l'.item.isDir = l.item.isDir
  untouched : ∀ o, (∀ t, (t, o) ∉ fs.changes) → fs.committed.Alive o → fs.current.Alive o

theorem Inv.change {fs : Fs} (h : fs.Inv) {o : Nat} {new : Tree} (hc : Changed fs o new) :
    Inv { fs with current := new, changes := (fs.running, o) :: fs.changes } where
  behind := h.behind
  begun := by
    rintro c (- | ⟨-, hm⟩)
    · exact Nat.le_refl _
    · exact h.begun c hm
  numbers := by
    rintro c (- | ⟨-, hm⟩)
    · exact hc.number
    · exact h.numbers c hm
  current := by
    rintro c (- | ⟨-, hm⟩) ha
    · obtain ⟨l, hl, hk⟩ := ha
      obtain ⟨ht, hg⟩ := hc.stamps l hl hk
      exact ⟨l, hl, hk, Nat.le_of_eq ht.symm, Nat.le_of_eq hg.symm⟩
    · exact hc.stamped (h.current c hm (hc.alive hm ha)) (h.begun c hm) ha
  committed := by
    rintro c (- | ⟨-, hm⟩) hlt ha
    · exact absurd hlt (Nat.lt_irrefl _)
    · exact h.committed c hm hlt ha
  kind := by
    intro o' l hl l' hl' hk hk'
    by_cases hne : o' = o
    · subst hne
      -- the inode is there before the change: else its number would be used again
      have ha : fs.current.Alive o' :=
        (hc.unused ⟨l, hl, hk⟩).elim id fun hno => h.untouched o' hno ⟨l', hl', hk'⟩
      obtain ⟨x, hx, hxk⟩ := ha
      rw [hc.kind x hx l hl hxk hk]
      exact h.kind o' x hx l' hl' hxk hk'
    · obtain ⟨x, hx, hi⟩ := hc.adds l hl (by rw [hk]; exact hne)
      rw [← hi]
      exact h.kind o' x hx l' hl' (by rw [hi, hk]) hk'
  untouched := by
    intro o' hno ha
    have hne : o' ≠ o := fun he => hno fs.running (by simp [he])
    obtain ⟨l, hl, hk⟩ := h.untouched o' (fun t ht => hno t (List.mem_cons_of_mem _ ht)) ha
    obtain ⟨l', hl', hi, -⟩ := hc.keeps l hl (by rw [hk]; exact hne)
    exact ⟨l', hl', by rw [hi, hk]⟩

theorem Inv.commit {fs : Fs} (h : fs.Inv) {generation : Nat} (hg : generation ≤ fs.running) :
    Inv { fs with committed := fs.current, generation := generation, running := fs.running + 1 } where
  behind := Nat.lt_succ_of_le hg
  begun := fun c hc => Nat.le_succ_of_le (h.begun c hc)
  numbers := h.numbers
  current := h.current
  committed := fun c hc _ ha => h.current c hc ha
  kind := fun o l hl l' hl' hk hk' => by rw [Tree.eq_of_key_eq hl hl' (hk.trans hk'.symm)]
  untouched := fun _ _ ha => ha

theorem Inv.step {fs fs' : Fs} (h : fs.Inv) (hs : FsStep fs fs') : fs'.Inv := by
  cases hs with
  | change hc => exact h.change hc
  | commit hg =>
    have := h.behind
    exact h.commit (by omega)

theorem Reachable.inv {fs : Fs} (h : fs.Reachable) : fs.Inv := by
  induction h with
  | @mounted fs hg hc hn =>
    constructor
    · exact hg
    · simp [hn]
    · simp [hn]
    · simp [hn]
    · simp [hn]
    · intro o l hl l' hl' hk hk'
      rw [hc] at hl
      rw [Tree.eq_of_key_eq hl hl' (hk.trans hk'.symm)]
    · intro o _ ha
      rw [hc]
      exact ha
  | step _ hs ih => exact ih.step hs

/-- A step changes nothing that a poll has to report: its transaction is not over. -/
theorem changes_of_step {fs fs' : Fs} (hs : FsStep fs fs') {t o : Nat} (ht : t < fs.running) (hm : (t, o) ∈ fs'.changes) :
    (t, o) ∈ fs.changes := by
  cases hs with
  | change hc =>
    rcases List.mem_cons.1 hm with he | hm
    · cases he
      exact absurd ht (Nat.lt_irrefl _)
    · exact hm
  | commit => exact hm

theorem running_le {fs fs' : Fs} (hs : FsStep fs fs') : fs.running ≤ fs'.running := by
  cases hs with
  | change => exact Nat.le_refl _
  | commit => exact Nat.le_succ _

/-- Whatever a call sees, it sees the item of every inode that is committed, stamped with the changes to it. -/
theorem Inv.sees {fs : Fs} (h : fs.Inv) {view : Tree} (hv : fs.Sees view) {t o : Nat} (ht : (t, o) ∈ fs.changes)
    (hc : t < fs.running) (ha : fs.committed.Alive o) :
    ∃ l ∈ view.leaves, l.item.key = inodeKey o ∧ t ≤ l.item.transid ∧ t ≤ l.generation ∧
      (l.item.isDir = true ↔ fs.committed.IsDirectory o) := by
  obtain ⟨l, hl, hk, hlt, hlg⟩ := h.committed _ ht hc ha
  have hdir : l.item.isDir = true ↔ fs.committed.IsDirectory o := by
    constructor
    · exact fun hi => ⟨l, hl, hk, hi⟩
    · rintro ⟨x, hx, hxk, hxd⟩
      rw [Tree.eq_of_key_eq hl hx (hk.trans hxk.symm)]
      exact hxd
  rcases hv.committed l hl with hin | ⟨l', hin, hcur, hk', -⟩
  · exact ⟨l, hin, hk, hlt, hlg, hdir⟩
  · -- the newer item carries the stamp as well
    obtain ⟨x, hx, hxk, hxt, hxg⟩ := h.current _ ht ⟨l', hcur, hk'.trans hk⟩
    obtain rfl : l' = x := Tree.eq_of_key_eq hcur hx (hk'.trans (hk.trans hxk.symm))
    refine ⟨l', hin, hxk, hxt, hxg, ?_⟩
    rw [← h.kind o l' hcur l hl hxk hk]
    exact hdir

/-- A lookup names every directory that holds a link. -/
theorem Sees.parentsOf {fs : Fs} {view : Tree} (hv : fs.Sees view) {o d : Nat} (h : d ∈ fs.committed.parentsOf o) :
    d ∈ view.parentsOf o := by
  obtain ⟨l, hl, hd⟩ := Tree.mem_parentsOf.1 h
  obtain ⟨hm, hlow, hhigh, -⟩ := Tree.mem_wanted.1 hl
  have hnames : l.item.Names d := by
    refine ⟨?_, hd⟩
    simp only [Key.le, inodeRef, inodeExtref] at hlow hhigh ⊢
    omega
  rcases hv.committed l hm with hin | ⟨l', hin, -, hk, hkeeps⟩
  · exact Tree.mem_parentsOf.2 ⟨l, Tree.mem_wanted.2 ⟨hin, hlow, hhigh, Nat.zero_le _⟩, hd⟩
  · exact Tree.mem_parentsOf.2 ⟨l', Tree.mem_wanted.2 ⟨hin, by rw [hk]; exact hlow, by rw [hk]; exact hhigh, Nat.zero_le _⟩,
      (hkeeps d hnames).2⟩

end Fs

/-! ## What a search finds -/

namespace Found

theorem item_mono (floor : Nat) (g : Found) (i : Item) : g.dirs ⊆ (g.item floor i).dirs ∧ g.files ⊆ (g.item floor i).files := by
  unfold item
  constructor
  · split
    · split
      · exact fun x hx => List.mem_insert_of_mem hx
      · exact fun x hx => hx
    · split
      · exact fun x hx => List.mem_insert_of_mem hx
      · split <;> exact fun x hx => hx
  · split
    · split
      · exact fun x hx => hx
      · exact fun x hx => List.mem_insert_of_mem hx
    · split
      · exact fun x hx => hx
      · split
        · exact fun x hx => List.mem_insert_of_mem hx
        · exact fun x hx => hx

theorem items_mono (floor : Nat) (is : List Item) (g : Found) : g.dirs ⊆ (g.items floor is).dirs ∧ g.files ⊆ (g.items floor is).files := by
  induction is generalizing g with
  | nil => exact ⟨fun x hx => hx, fun x hx => hx⟩
  | cons i is ih =>
    have h1 := item_mono floor g i
    have h2 := ih (g.item floor i)
    exact ⟨fun x hx => h2.1 (h1.1 hx), fun x hx => h2.2 (h1.2 hx)⟩

/-- The inode is noted, as a directory or as a file. -/
def Has (g : Found) (fs : Fs) (o : Nat) : Prop :=
  (fs.committed.IsDirectory o ∧ o ∈ g.dirs) ∨ (¬ fs.committed.IsDirectory o ∧ o ∈ g.files)

theorem Has.mono {g g' : Found} {fs : Fs} {o : Nat} (h : g.Has fs o) (hd : g.dirs ⊆ g'.dirs) (hf : g.files ⊆ g'.files) : g'.Has fs o :=
  h.imp (fun h => ⟨h.1, hd h.2⟩) fun h => ⟨h.1, hf h.2⟩

/-- An inode item of a fresh transaction notes its inode. -/
theorem item_has {floor o : Nat} (g : Found) {i : Item} {fs : Fs} (hk : i.key = inodeKey o) (ht : floor ≤ i.transid)
    (hd : i.isDir = true ↔ fs.committed.IsDirectory o) : (g.item floor i).Has fs o := by
  have ho : i.key.objectid = o := by rw [hk]; rfl
  have hkind : i.key.kind = inodeItem := by rw [hk]; rfl
  unfold item
  rw [if_pos ⟨hkind, ht⟩, ho]
  by_cases hi : i.isDir = true
  · rw [if_pos hi]
    exact .inl ⟨hd.1 hi, List.mem_insert_self⟩
  · rw [if_neg hi]
    exact .inr ⟨fun h => hi (hd.2 h), List.mem_insert_self⟩

theorem items_has {floor o : Nat} {i : Item} {fs : Fs} (hk : i.key = inodeKey o) (ht : floor ≤ i.transid)
    (hd : i.isDir = true ↔ fs.committed.IsDirectory o) {is : List Item} (hi : i ∈ is) (g : Found) : (g.items floor is).Has fs o := by
  obtain ⟨before, after, rfl⟩ := List.append_of_mem hi
  have hgo : g.items floor (before ++ i :: after) = ((g.items floor before).item floor i).items floor after := by
    simp [items, List.foldl_append]
  rw [hgo]
  have hm := items_mono floor after ((g.items floor before).item floor i)
  exact (item_has _ hk ht hd).mono hm.1 hm.2

end Found

/-! ## Polls -/

namespace Watcher

/-- An inode found changed is in the report to be, or its links will be looked up, or have been. -/
def Noted (fs : Fs) (dirs files : List Nat) (looked : List (Nat × Fs)) (o : Nat) : Prop :=
  (fs.committed.IsDirectory o ∧ o ∈ dirs) ∨
    (¬ fs.committed.IsDirectory o ∧ (o ∈ files ∨ ∃ at_, (o, at_) ∈ looked ∧ ∀ d ∈ at_.committed.parentsOf o, d ∈ dirs))

/-- Every changed inode that a call passed while it was committed. -/
def Passes (fs : Fs) (floor committed : Nat) (passed : List Passage) (noted : Fs → Nat → Prop) : Prop :=
  ∀ t o, (t, o) ∈ fs.changes → floor ≤ t → t ≤ committed → ∀ p ∈ passed, p.Covers (inodeKey o) → p.fs.committed.Alive o → noted p.fs o

/-- What a poll has reached: every inode it has passed is noted, and all before `next` are passed. -/
def OnWay (fs : Fs) (floor : Nat) : Phase → Prop
  | .idle => True
  | .searching committed next found passed =>
    committed < fs.running ∧ (∀ k : Key, k.Valid → next.le k ∨ ∃ p ∈ passed, p.Covers k) ∧
      Passes fs floor committed passed found.Has
  | .looking committed dirs files passed looked =>
    committed < fs.running ∧ (∀ k : Key, k.Valid → ∃ p ∈ passed, p.Covers k) ∧
      Passes fs floor committed passed (Noted · dirs files looked)

theorem Passes.fs {fs fs' : Fs} {floor committed : Nat} {passed : List Passage} {noted : Fs → Nat → Prop}
    (h : Passes fs floor committed passed noted) (hc : committed < fs.running) (hs : FsStep fs fs') :
    Passes fs' floor committed passed noted := fun t o ht hf hle =>
  h t o (Fs.changes_of_step hs (Nat.lt_of_le_of_lt hle hc) ht) hf hle

theorem Passes.imp {fs : Fs} {floor committed : Nat} {passed : List Passage} {noted noted' : Fs → Nat → Prop}
    (h : Passes fs floor committed passed noted) (hn : ∀ fs o, noted fs o → noted' fs o) :
    Passes fs floor committed passed noted' := fun t o ht hf hle p hp hcov ha => hn _ _ (h t o ht hf hle p hp hcov ha)

theorem OnWay.fs {fs fs' : Fs} {floor : Nat} {phase : Phase} (h : OnWay fs floor phase) (hs : FsStep fs fs') :
    OnWay fs' floor phase := by
  cases phase with
  | idle => trivial
  | searching committed next found passed =>
    exact ⟨Nat.lt_of_lt_of_le h.1 (Fs.running_le hs), h.2.1, h.2.2.fs h.1 hs⟩
  | looking committed dirs files passed looked =>
    exact ⟨Nat.lt_of_lt_of_le h.1 (Fs.running_le hs), h.2.1, h.2.2.fs h.1 hs⟩

/-- Where a search goes on, when its last call has passed everything up to `upto`. -/
theorem OnWay.goOn {fs : Fs} {floor committed : Nat} {found : Found} {passed : List Passage} {next : Option Key}
    (hc : committed < fs.running) (hcov : ∀ k : Key, k.Valid → (∃ n, next = some n ∧ n.le k) ∨ ∃ p ∈ passed, p.Covers k)
    (h : Passes fs floor committed passed found.Has) : OnWay fs floor (.goOn committed found passed next) := by
  cases next with
  | none => exact ⟨hc, fun k hk => (hcov k hk).resolve_left (by simp), h.imp fun _ _ hf => hf.imp id fun hf => ⟨hf.1, .inl hf.2⟩⟩
  | some n => exact ⟨hc, fun k hk => (hcov k hk).imp (by simp) id, h⟩

/-- One answer of the search: what it passes over was not asked for. -/
theorem OnWay.answer {fs : Fs} (hi : fs.Inv) {floor committed room : Nat} {next : Key} {found : Found} {passed : List Passage}
    {view : Tree} {last : Item} (h : OnWay fs floor (.searching committed next found passed)) (hv : fs.Sees view)
    (hl : (view.search next .greatest floor room).getLast? = some last) :
    OnWay fs floor (.goOn committed (found.items floor (view.search next .greatest floor room))
      (⟨next, last.key, fs⟩ :: passed) last.key.successor) := by
  obtain ⟨hc, hcov, hpasses⟩ := h
  refine .goOn hc (fun k hk => ?_) fun t o ht hf hle p hp hpc ha => ?_
  · rcases hcov k hk with hn | ⟨p, hp, hpc⟩
    · by_cases hkl : k.le last.key
      · exact .inr ⟨_, List.mem_cons_self, hn, hkl⟩
      · cases hs : last.key.successor with
        | none => exact absurd (Key.le_of_successor_none hs hk) hkl
        | some n => exact .inl ⟨n, rfl, (Key.successor_le hs hk).2 hkl⟩
    · exact .inr ⟨p, List.mem_cons_of_mem _ hp, hpc⟩
  · rcases List.mem_cons.1 hp with rfl | hp
    · obtain ⟨l, hlv, hk, hlt, hlg, hdir⟩ := hi.sees hv ht (Nat.lt_of_le_of_lt hle hc) ha
      obtain ⟨hfirst, hlast⟩ := hpc
      have hw : l ∈ view.wanted next .greatest floor := Tree.mem_wanted.2
        ⟨hlv, by rw [hk]; exact hfirst, (view.valid l hlv).le_greatest, Nat.le_trans hf hlg⟩
      rcases Tree.mem_search_or_after hl hw with hin | hafter
      · exact Found.items_has hk (Nat.le_trans hf hlt) hdir hin found
      · exact absurd (by rw [hk]; exact hlast) hafter
    · have hmono := Found.items_mono floor (view.search next .greatest floor room) found
      exact (hpasses t o ht hf hle p hp hpc ha).mono hmono.1 hmono.2

/-- An answer without items: nothing was asked for from `next` on. -/
theorem OnWay.searched {fs : Fs} (hi : fs.Inv) {floor committed room : Nat} {next : Key} {found : Found} {passed : List Passage}
    {view : Tree} (h : OnWay fs floor (.searching committed next found passed)) (hv : fs.Sees view) (hr : 0 < room)
    (hn : view.search next .greatest floor room = []) :
    OnWay fs floor (.goOn committed found (⟨next, .greatest, fs⟩ :: passed) none) := by
  obtain ⟨hc, hcov, hpasses⟩ := h
  refine .goOn hc (fun k hk => .inr ?_) fun t o ht hf hle p hp hpc ha => ?_
  · rcases hcov k hk with hnext | ⟨p, hp, hpc⟩
    · exact ⟨_, List.mem_cons_self, hnext, hk.le_greatest⟩
    · exact ⟨p, List.mem_cons_of_mem _ hp, hpc⟩
  · rcases List.mem_cons.1 hp with rfl | hp
    · obtain ⟨l, hlv, hk, -, hlg, -⟩ := hi.sees hv ht (Nat.lt_of_le_of_lt hle hc) ha
      have hgen := Tree.search_eq_nil hr hn hlv (by rw [hk]; exact hpc.1) (Tree.valid _ l hlv).le_greatest
      omega
    · exact hpasses t o ht hf hle p hp hpc ha

theorem OnWay.lookUp {fs : Fs} {floor committed file : Nat} {dirs files : List Nat} {passed : List Passage}
    {looked : List (Nat × Fs)} {view : Tree} (h : OnWay fs floor (.looking committed dirs files passed looked)) (hv : fs.Sees view) :
    OnWay fs floor (.looking committed (dirs ∪ view.parentsOf file) (files.erase file) passed ((file, fs) :: looked)) := by
  refine ⟨h.1, h.2.1, h.2.2.imp fun at_ o ho => ?_⟩
  rcases ho with ⟨hdir, hm⟩ | ⟨hdir, hm | ⟨at_, hat, hheld⟩⟩
  · exact .inl ⟨hdir, List.mem_union_left hm _⟩
  · right
    refine ⟨hdir, ?_⟩
    by_cases he : o = file
    · subst he
      exact .inr ⟨fs, List.mem_cons_self, fun d hd => List.mem_union_right _ (hv.parentsOf hd)⟩
    · exact .inl ((List.mem_erase_of_ne he).2 hm)
  · exact .inr ⟨hdir, .inr ⟨at_, List.mem_cons_of_mem _ hat, fun d hd => List.mem_union_left (hheld d hd) _⟩⟩

/-- The `i`-th report accounts for every inode changed at a transaction it was the first to reach. -/
def Exact (opened : Nat) (reports : List Report) : Prop :=
  ∀ (i : Nat) (r : Report), reports[i]? = some r → ∀ t o, (t, o) ∈ r.fs.changes → opened ≤ t → t ≤ r.committed →
    (∀ j < i, ∀ e : Report, reports[j]? = some e → e.committed < t) → r.Accounts o

theorem Exact.concat {opened : Nat} {reports : List Report} (h : Exact opened reports) {r : Report}
    (hr : ∀ t o, (t, o) ∈ r.fs.changes → opened ≤ t → t ≤ r.committed → (∀ e ∈ reports, e.committed < t) →
      r.Accounts o) : Exact opened (reports ++ [r]) := by
  intro i x hx t o ht hopened hle hfirst
  have hlen : i < reports.length ∨ i = reports.length := by
    have := (List.getElem?_eq_some_iff.1 hx).1
    rw [List.length_append] at this
    exact Nat.lt_or_eq_of_le (Nat.le_of_lt_succ this)
  rcases hlen with hlt | he
  · rw [List.getElem?_append_left hlt] at hx
    refine h i x hx t o ht hopened hle fun j hj e hje => hfirst j hj e ?_
    rw [List.getElem?_append_left (Nat.lt_trans hj hlt)]
    exact hje
  · subst he
    rw [List.getElem?_concat_length] at hx
    cases hx
    refine hr t o ht hopened hle fun e he => ?_
    obtain ⟨j, hj, hje⟩ := List.mem_iff_getElem.1 he
    refine hfirst j hj e ?_
    rw [List.getElem?_append_left hj, List.getElem?_eq_getElem hj, hje]

structure Inv (w : Watcher) : Prop where
  fs : w.fs.Inv
  /-- The floor comes from the last successful poll, or from opening the watcher. -/
  floor : w.floor = w.opened ∨ ∃ r ∈ w.reports, w.floor = r.committed + 1
  onWay : OnWay w.fs w.floor w.phase
  reports : Exact w.opened w.reports

theorem Inv.open_ {fs : Fs} (h : fs.Inv) : (Watcher.open_ fs).Inv where
  fs := h
  floor := .inl rfl
  onWay := trivial
  reports := fun i r hr => by simp [Watcher.open_] at hr

/-- A poll's end: everything it passed is in the report. -/
theorem Inv.finish {w : Watcher} (h : w.Inv) {committed : Nat} {dirs : List Nat} {passed : List Passage} {looked : List (Nat × Fs)}
    (hp : w.phase = .looking committed dirs [] passed looked) :
    Inv { w with
      floor := committed + 1
      phase := .idle
      reports := w.reports ++ [⟨committed, dirs, passed, looked, w.fs⟩] } where
  fs := h.fs
  floor := .inr ⟨⟨committed, dirs, passed, looked, w.fs⟩, List.mem_append_right _ List.mem_cons_self, rfl⟩
  onWay := trivial
  reports := by
    refine h.reports.concat fun t o ht hopened hle hfirst => ?_
    have hfloor : w.floor ≤ t := by
      rcases h.floor with he | ⟨r, hr, he⟩
      · exact he ▸ hopened
      · exact he ▸ hfirst r hr
    have hway := h.onWay
    rw [hp] at hway
    have hvalid : (inodeKey o).Valid := ⟨h.fs.numbers _ ht, (by decide : inodeItem ≤ 255), Nat.zero_le _⟩
    refine ⟨hway.2.1 _ hvalid, fun p hpm hcov ha => ?_⟩
    rcases hway.2.2 t o ht hfloor hle p hpm hcov ha with hdir | ⟨hdir, hm | hlooked⟩
    · exact .inl hdir
    · cases hm
    · exact .inr ⟨hdir, hlooked⟩

theorem Inv.step {w w' : Watcher} (h : w.Inv) (hs : Step w w') : w'.Inv := by
  have hway := h.onWay
  cases hs with
  | fs hs => exact ⟨h.fs.step hs, h.floor, hway.fs hs, h.reports⟩
  | readFails hp => exact h
  | start hp =>
    exact ⟨h.fs, h.floor, ⟨h.fs.behind, fun k _ => .inl (Key.least_le k), fun _ _ _ _ _ p hp => absurd hp List.not_mem_nil⟩, h.reports⟩
  | answer hp hv hl =>
    rw [hp] at hway
    exact ⟨h.fs, h.floor, hway.answer h.fs hv hl, h.reports⟩
  | searched hp hv hr hn =>
    rw [hp] at hway
    exact ⟨h.fs, h.floor, hway.searched h.fs hv hr hn, h.reports⟩
  | searchFails hp => exact ⟨h.fs, h.floor, trivial, h.reports⟩
  | lookUp hp hf hv =>
    rw [hp] at hway
    exact ⟨h.fs, h.floor, hway.lookUp hv, h.reports⟩
  | lookUpFails hp => exact ⟨h.fs, h.floor, trivial, h.reports⟩
  | finish hp => exact h.finish hp

end Watcher

theorem Reachable.inv {w : Watcher} (h : Reachable w) : w.Inv := by
  induction h with
  | opened hf => exact .open_ hf.inv
  | step _ hs ih => exact ih.step hs

/-- Only a poll's successful end reports something and moves the floor. -/
theorem Step.quiet {w w' : Watcher} (h : Step w w') : (w'.reports = w.reports ∧ w'.floor = w.floor) ∨
    ∃ committed dirs passed looked, w.phase = .looking committed dirs [] passed looked ∧ w'.phase = .idle ∧
      w'.reports = w.reports ++ [⟨committed, dirs, passed, looked, w.fs⟩] ∧ w'.floor = committed + 1 := by
  cases h with
  | @finish committed dirs passed looked hp => exact .inr ⟨committed, dirs, passed, looked, hp, rfl, rfl, rfl⟩
  | _ => exact .inl ⟨rfl, rfl⟩

/-- In every run, the first successful poll whose generation reading is at least that of a change reports the
change if its inode is committed when the search passes it; a poll that fails reports nothing and leaves the
floor. -/
theorem polls_miss_nothing {w : Watcher} (h : Reachable w) :
    (∀ (i : Nat) (r : Report), w.reports[i]? = some r → ∀ t o, (t, o) ∈ r.fs.changes → w.opened ≤ t → t ≤ r.committed →
      (∀ j < i, ∀ e : Report, w.reports[j]? = some e → e.committed < t) → r.Accounts o) ∧
    ∀ w', Step w w' → (w'.reports = w.reports ∧ w'.floor = w.floor) ∨
      ∃ committed dirs passed looked, w.phase = .looking committed dirs [] passed looked ∧ w'.phase = .idle ∧
        w'.reports = w.reports ++ [⟨committed, dirs, passed, looked, w.fs⟩] ∧ w'.floor = committed + 1 :=
  ⟨h.inv.reports, fun _ hs => hs.quiet⟩

/-! ## Runs over two directories -/

/-- An inode item, last changed at `transid`; `mode` is the upper byte of its mode. -/
def inodeLeaf (o : Nat) (mode transid : UInt8) : Leaf where
  item := ⟨inodeKey o, List.replicate 8 0 ++ transid :: (List.replicate 44 0 ++ [mode, 0, 0])⟩
  generation := transid.toNat

/-- A link of `o` in directory `d`. -/
def refLeaf (o d generation : Nat) : Leaf := ⟨⟨⟨o, inodeRef, d⟩, []⟩, generation⟩

/-- The tree of some leaves, whose keys are in order and are numbers of their size. -/
def treeOf (leaves : List Leaf) (keys : List Key) (hk : keys = leaves.map fun l => l.item.key)
    (hs : keys.Pairwise fun a b => ¬ b.le a)
    (hv : ∀ k ∈ keys, k.objectid ≤ u64Max ∧ k.kind ≤ 255 ∧ k.offset ≤ u64Max) : Tree where
  leaves := leaves
  sorted := by
    rw [hk] at hs
    exact List.pairwise_map.1 hs
  valid := by
    intro l hl
    obtain ⟨ho, hkind, hoff⟩ := hv l.item.key (by rw [hk]; exact List.mem_map_of_mem hl)
    exact ⟨ho, hkind, hoff⟩

/-- Directory 256 alone. -/
def rootTree (transid : UInt8) : Tree :=
  treeOf [inodeLeaf 256 64 transid] [inodeKey 256] rfl (by decide) (by decide)

/-- Directories 256 and 257, each last changed at a transaction of its own. -/
def dirsTree (first second : UInt8) : Tree :=
  treeOf [inodeLeaf 256 64 first, inodeLeaf 257 64 second] [inodeKey 256, inodeKey 257] rfl (by decide) (by decide)

/-- File 258 as well, with a link in either directory. -/
def linkedTree (transid : UInt8) : Tree :=
  treeOf [inodeLeaf 256 64 3, inodeLeaf 257 64 3, inodeLeaf 258 128 transid, refLeaf 258 256 transid.toNat,
      refLeaf 258 257 transid.toNat]
    [inodeKey 256, inodeKey 257, inodeKey 258, ⟨258, inodeRef, 256⟩, ⟨258, inodeRef, 257⟩] rfl (by decide) (by decide)

/-- A call that sees what is committed, when nothing is running. -/
theorem sees_committed (fs : Fs) : fs.Sees fs.committed := ⟨fun _ hl => .inl hl, fun _ hl => .inl hl⟩

/-- The file is written in transaction 8. -/
theorem changed_linked : Changed ⟨7, 8, linkedTree 7, linkedTree 7, []⟩ 258 (linkedTree 8) where
  number := by decide
  keeps := by decide
  adds := by decide
  stamps := by decide
  kind := by decide
  unused := fun _ => .inr fun _ => List.not_mem_nil

/-- A file with two links changed in transaction 8, which is committed: the search finds it, and looking it up
names both directories. -/
theorem polls_miss_nothing_found : ∃ w r, Reachable w ∧ w.reports = [r] ∧ (8, 258) ∈ r.fs.changes ∧ r.dirs = [256, 257] ∧
    r.Accounts 258 := by
  have h0 : Reachable (.open_ ⟨7, 8, linkedTree 7, linkedTree 7, []⟩) := .opened (.mounted (by decide) rfl rfl)
  have h1 := (h0.step (.fs (.change changed_linked))).step (.fs (.commit (.inl rfl)))
  have h2 := h1.step (.start rfl)
  have h3 := h2.step (@Step.answer _ _ 1 _ _ _ (linkedTree 8) (inodeLeaf 258 128 8).item rfl (sees_committed _) rfl)
  have h4 := h3.step (@Step.answer _ _ 9 _ _ _ (linkedTree 8) (refLeaf 258 257 8).item rfl (sees_committed _) rfl)
  have h5 := h4.step (@Step.searched _ _ 1 _ _ _ (linkedTree 8) rfl (sees_committed _) Nat.one_pos rfl)
  have h6 := h5.step (@Step.lookUp _ _ 258 _ _ _ _ (linkedTree 8) rfl (by decide) (sees_committed _))
  have h7 := h6.step (.finish rfl)
  exact ⟨_, _, h7, rfl, List.mem_cons_self, rfl, (polls_miss_nothing h7).1 0 _ rfl 8 258 List.mem_cons_self (by decide) (by decide)
    (fun j hj => absurd hj (Nat.not_lt_zero j))⟩

/-- Directory 257 is changed in transaction 8; in the next one it is removed, and directory 256 changed by that. -/
theorem changed_dirs : Changed ⟨7, 8, dirsTree 3 3, dirsTree 3 3, []⟩ 257 (dirsTree 3 8) where
  number := by decide
  keeps := by decide
  adds := by decide
  stamps := by decide
  kind := by decide
  unused := fun _ => .inr fun _ => List.not_mem_nil

theorem changed_removed : Changed ⟨8, 9, dirsTree 3 8, dirsTree 3 8, [(8, 257)]⟩ 257 (rootTree 3) where
  number := by decide
  keeps := by decide
  adds := by decide
  stamps := by decide
  kind := by decide
  unused := by
    rintro ⟨l, hl, hk⟩
    rw [List.mem_singleton.1 hl] at hk
    exact absurd hk (by decide)

theorem changed_root : Changed ⟨8, 9, dirsTree 3 8, rootTree 3, [(9, 257), (8, 257)]⟩ 256 (rootTree 9) where
  number := by decide
  keeps := by decide
  adds := by decide
  stamps := by decide
  kind := by decide
  unused := fun _ => .inl ⟨_, List.mem_cons_self, rfl⟩

/-- Both transactions are committed before the poll: the directory itself is not reported, the one it was in is. -/
theorem removed_directory_unreported : ∃ w r, Reachable w ∧ w.reports = [r] ∧ (8, 257) ∈ r.fs.changes ∧ w.opened ≤ 8 ∧
    8 ≤ r.committed ∧ r.dirs = [256] := by
  have h0 : Reachable (.open_ ⟨7, 8, dirsTree 3 3, dirsTree 3 3, []⟩) := .opened (.mounted (by decide) rfl rfl)
  have h1 := (h0.step (.fs (.change changed_dirs))).step (.fs (.commit (.inl rfl)))
  have h2 := (h1.step (.fs (.change changed_removed))).step (.fs (.change changed_root))
  have h3 := (h2.step (.fs (.commit (.inl rfl)))).step (.start rfl)
  have h4 := h3.step (@Step.answer _ _ 1 _ _ _ (rootTree 9) (inodeLeaf 256 64 9).item rfl (sees_committed _) rfl)
  have h5 := h4.step (@Step.searched _ _ 1 _ _ _ (rootTree 9) rfl (sees_committed _) Nat.one_pos rfl)
  have h6 := h5.step (.finish rfl)
  exact ⟨_, _, h6, rfl, by decide, by decide, by decide, rfl⟩

end StorageHarvester.Btrfs
