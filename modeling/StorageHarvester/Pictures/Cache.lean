/-
The pictures kept on disk (`Cache` in `src/pictures.rs`): a file for each key in one of 256
directories, and `used`, measured on the first put and counted on from there. Past `max` bytes the
oldest go, down to 80% of it.

File operations succeed: what the cache's directory holds are directories (`read_dir` reads them)
of files (`remove_file` removes them).
-/
import StorageHarvester.Config.Resolve

namespace StorageHarvester.Pictures

def hexDigit (d : Nat) : UInt8 := UInt8.ofNat (if d < 10 then 48 + d else 87 + d)

/-- `n` in that many hexadecimal digits. -/
def hex : Nat → Nat → Bytes
  | 0, _ => []
  | width + 1, n => hex width (n / 16) ++ [hexDigit (n % 16)]

/-- A file's path in the cache's directory: the directory it is in, and its name. -/
structure Path where
  shard : Bytes
  name : Bytes
  deriving DecidableEq, Repr

/-- `Cache::path`. -/
def path (key : UInt64) (ext : String) : Path where
  shard := hex 2 (key.toNat / 2 ^ 56)
  name := hex 16 key.toNat ++ ascii ("." ++ ext)

/-- The name a picture is written under before it is renamed: the process, and a running number. -/
def partialPath (key : UInt64) (pid next : Nat) : Path where
  shard := hex 2 (key.toNat / 2 ^ 56)
  name := hex 16 key.toNat ++ ascii ".part" ++ decimal pid ++ ascii "-" ++ decimal next

/-- A file the cache holds: when it was made (nanoseconds), its bytes, its path. -/
structure Entry where
  made : Int
  size : Nat
  path : Path
  deriving DecidableEq, Repr

def sizes (entries : List Entry) : Nat := (entries.map Entry.size).sum

/-! ## The directory -/

/-- The files of the cache's directory, one for each path. -/
structure Dir where
  entries : List Entry
  distinct : (entries.map Entry.path).Nodup

namespace Dir

/-- The bytes the directory holds. -/
def held (d : Dir) : Nat := sizes d.entries

/-- `remove_file`. -/
def remove (d : Dir) (p : Path) : Dir where
  entries := d.entries.filter fun e => e.path ≠ p
  distinct := d.distinct.sublist (List.filter_sublist.map _)

/-- A file put in the place of any other of its path. -/
def insert (d : Dir) (e : Entry) : Dir where
  entries := (d.remove e.path).entries ++ [e]
  distinct := by
    rw [List.map_append, List.nodup_append]
    refine ⟨(d.remove e.path).distinct, by simp, ?_⟩
    rintro p hp q hq rfl
    obtain ⟨e', he', rfl⟩ := List.mem_map.1 hp
    have hne := (List.mem_filter.1 he').2
    simp_all

/-- `rename`. -/
def rename (d : Dir) (p q : Path) : Dir :=
  match d.entries.find? fun e => e.path = p with
  | none => d
  | some e => (d.remove p).insert { e with path := q }

end Dir

/-! ## Eviction -/

/-- The oldest files removed until the total is at most `limit`. -/
def evictLoop (limit : Nat) : List Entry → Dir → Nat → Dir × Nat
  | [], d, total => (d, total)
  | e :: rest, d, total =>
    if total ≤ limit then (d, total)
    else evictLoop limit rest (d.remove e.path) ((total + 2 ^ 64 - e.size) % 2 ^ 64)

/-- `Cache::evict`, over the directory's files as `sort_unstable_by_key` left them. -/
def evict (max : Nat) (d : Dir) (sorted : List Entry) : Dir × Nat :=
  evictLoop (max / 10 * 8) sorted d (sizes sorted % 2 ^ 64)

/-- The files in some order of age: which of several of one age is first is not said. -/
structure Sorted (d : Dir) (sorted : List Entry) : Prop where
  perm : sorted.Perm d.entries
  byAge : sorted.Pairwise fun a b => a.made ≤ b.made

/-! ## Puts -/

structure Cache where
  dir : Dir
  max : Nat
  /-- Bytes held, measured on first use. -/
  used : Option Nat

/-- A call of `put`: the key, the picture or none, and what it gets from the process and the
filesystem. -/
structure Put where
  key : UInt64
  picture : Option Bytes
  pid : Nat
  next : Nat
  made : Int

namespace Put

def bytes (p : Put) : Bytes := p.picture.getD []

def ext (p : Put) : String := if p.picture.isSome then "jpg" else "none"

def size (p : Put) : Nat := p.bytes.length

end Put

namespace Cache

/-- The directory once the picture is written and renamed. -/
def written (c : Cache) (p : Put) : Dir :=
  (c.dir.insert ⟨p.made, p.size, partialPath p.key p.pid p.next⟩).rename
    (partialPath p.key p.pid p.next) (path p.key p.ext)

/-- `used` with the picture's bytes: measured if it was not yet. -/
def total (c : Cache) (p : Put) : Nat :=
  (c.used.getD (sizes (c.written p).entries % 2 ^ 64) + p.size) % 2 ^ 64

def evicts (c : Cache) (p : Put) : Prop := c.max < c.total p

instance (c : Cache) (p : Put) : Decidable (c.evicts p) := inferInstanceAs (Decidable (_ < _))

/-- `Cache::put`; an eviction takes the files in the order `sorted`. -/
def put (c : Cache) (p : Put) (sorted : List Entry) : Cache :=
  if c.evicts p then
    { c with dir := (evict c.max (c.written p) sorted).1, used := some (evict c.max (c.written p) sorted).2 }
  else { c with dir := c.written p, used := some (c.total p) }

/-- A put, in any order of the files an eviction may find. -/
def Step (c : Cache) (p : Put) (c' : Cache) : Prop :=
  ∃ sorted, Sorted (c.written p) sorted ∧ c' = c.put p sorted

end Cache

/-- Puts one after another. -/
inductive Run (c₀ : Cache) : List Put → Cache → Prop
  | nil : Run c₀ [] c₀
  | snoc {ps : List Put} {p : Put} {c c' : Cache} : Run c₀ ps c → c.Step p c' → Run c₀ (ps ++ [p]) c'

/-! ## What each operation leaves -/

theorem sizes_perm {l l' : List Entry} (h : l.Perm l') : sizes l = sizes l' := (h.map _).sum_nat

theorem sizes_sublist {l l' : List Entry} (h : l.Sublist l') : sizes l ≤ sizes l' :=
  (h.map _).sum_le_sum (by simp)

namespace Dir

/-- A file out of the directory leaves the others, in whatever order they are listed. -/
theorem remove_perm {d : Dir} {e : Entry} {rest : List Entry} (h : d.entries.Perm (e :: rest)) :
    (d.remove e.path).entries.Perm rest := by
  have hnodup : ((e :: rest).map Entry.path).Nodup := (h.map _).nodup_iff.1 d.distinct
  have hothers : ∀ e' ∈ rest, e'.path ≠ e.path := by
    rintro e' he' heq
    exact (List.nodup_cons.1 hnodup).1 (heq ▸ List.mem_map_of_mem he')
  have hfilter : (e :: rest).filter (fun e' => decide (e'.path ≠ e.path)) = rest := by
    rw [List.filter_cons_of_neg (by simp), List.filter_eq_self]
    intro e' he'
    simpa using hothers e' he'
  calc (d.remove e.path).entries.Perm ((e :: rest).filter fun e' => decide (e'.path ≠ e.path)) := h.filter _
    _ = rest := hfilter

theorem held_remove_le (d : Dir) (p : Path) : (d.remove p).held ≤ d.held :=
  sizes_sublist List.filter_sublist

theorem held_remove {d : Dir} {e : Entry} (h : e ∈ d.entries) : (d.remove e.path).held + e.size = d.held := by
  obtain ⟨before, after, hsplit⟩ := List.append_of_mem h
  have hperm : d.entries.Perm (e :: (before ++ after)) := hsplit ▸ List.perm_middle
  have hleft := sizes_perm (remove_perm hperm)
  have hall := sizes_perm hperm
  simp only [held, sizes, List.map_cons, List.sum_cons] at hleft hall ⊢
  omega

theorem held_insert_le (d : Dir) (e : Entry) : (d.insert e).held ≤ d.held + e.size := by
  have h : (d.insert e).held = (d.remove e.path).held + e.size := by
    simp [held, insert, sizes]
  have := d.held_remove_le e.path
  omega

theorem held_rename_le (d : Dir) (p q : Path) : (d.rename p q).held ≤ d.held := by
  unfold rename
  cases hfind : d.entries.find? (fun e => e.path = p) with
  | none => exact le_rfl
  | some e =>
    have hpath : e.path = p := by simpa using List.find?_some hfind
    have hout := held_remove (List.mem_of_find?_eq_some hfind)
    have hin := (d.remove p).held_insert_le { e with path := q }
    subst hpath
    simp only at hin ⊢
    omega

end Dir

/-- An eviction removes a first part of the files it goes through, and tracks what the others
hold. -/
theorem evictLoop_spec (limit : Nat) : ∀ (sorted : List Entry) (d : Dir), d.entries.Perm sorted →
    sizes sorted < 2 ^ 64 → ∃ removed kept, sorted = removed ++ kept ∧
      (evictLoop limit sorted d (sizes sorted)).1.entries.Perm kept ∧
      (evictLoop limit sorted d (sizes sorted)).2 = sizes kept ∧ sizes kept ≤ limit := by
  intro sorted
  induction sorted with
  | nil =>
    intro d hperm _
    exact ⟨[], [], rfl, hperm, rfl, Nat.zero_le _⟩
  | cons e rest ih =>
    intro d hperm hfits
    rw [evictLoop]
    split
    case isTrue hle => exact ⟨[], e :: rest, rfl, hperm, rfl, hle⟩
    case isFalse =>
      have hsum : sizes (e :: rest) = e.size + sizes rest := by simp [sizes]
      have hleft : (sizes (e :: rest) + 2 ^ 64 - e.size) % 2 ^ 64 = sizes rest := by omega
      rw [hleft]
      obtain ⟨removed, kept, hsplit, hkept, htotal, hlimit⟩ := ih (d.remove e.path) (Dir.remove_perm hperm) (by omega)
      exact ⟨e :: removed, kept, by rw [hsplit]; rfl, hkept, htotal, hlimit⟩

theorem evict_spec (max : Nat) {d : Dir} {sorted : List Entry} (hsorted : Sorted d sorted)
    (hfits : d.held < 2 ^ 64) : ∃ removed kept, sorted = removed ++ kept ∧
      (evict max d sorted).1.entries.Perm kept ∧ (evict max d sorted).2 = (evict max d sorted).1.held ∧
      (evict max d sorted).1.held ≤ max / 10 * 8 := by
  have hsum : sizes sorted = d.held := sizes_perm hsorted.perm
  have hmod : sizes sorted % 2 ^ 64 = sizes sorted := Nat.mod_eq_of_lt (by omega)
  obtain ⟨removed, kept, hsplit, hkept, htotal, hlimit⟩ :=
    evictLoop_spec (max / 10 * 8) sorted d hsorted.perm.symm (by omega)
  have hheld := sizes_perm hkept
  rw [evict, hmod]
  exact ⟨removed, kept, hsplit, hkept, by rw [htotal, Dir.held, hheld], by rw [Dir.held, hheld]; exact hlimit⟩

/-- An eviction leaves no file older than one it removes. -/
theorem evict_byAge {max : Nat} {d : Dir} {sorted : List Entry} (hsorted : Sorted d sorted)
    (hfits : d.held < 2 ^ 64) {removed kept : Entry} (hr : removed ∈ d.entries)
    (hgone : removed ∉ (evict max d sorted).1.entries) (hk : kept ∈ (evict max d sorted).1.entries) :
    removed.made ≤ kept.made := by
  obtain ⟨first, last, hsplit, hlast, _⟩ := evict_spec max hsorted hfits
  have hbyAge := hsorted.byAge
  rw [hsplit] at hbyAge
  have hin : removed ∈ first ++ last := hsplit ▸ hsorted.perm.mem_iff.2 hr
  have hfirst : removed ∈ first := by
    rcases List.mem_append.1 hin with h | h
    · exact h
    · exact absurd (hlast.mem_iff.2 h) hgone
  exact (List.pairwise_append.1 hbyAge).2.2 removed hfirst kept (hlast.mem_iff.1 hk)

/-! ## The bound -/

namespace Cache

/-- The figure tracked covers what the directory holds, and is within the bound. -/
def Tracks (c : Cache) (used : Nat) : Prop := c.dir.held ≤ used ∧ used ≤ c.max

theorem held_written_le (c : Cache) (p : Put) : (c.written p).held ≤ c.dir.held + p.size :=
  (Dir.held_rename_le _ _ _).trans (Dir.held_insert_le _ _)

/-- What a put needs of the sums it takes: that they fit `u64`. -/
def Fits (c : Cache) (p : Put) : Prop :=
  match c.used with
  | none => c.dir.held + 2 * p.size < 2 ^ 64
  | some _ => c.max + p.size < 2 ^ 64

/-- The total covers what the directory holds, the picture counted twice if it was measured just
now. -/
theorem held_written_le_total {c : Cache} {p : Put} (hfits : c.Fits p)
    (htracks : ∀ used, c.used = some used → c.Tracks used) :
    (c.written p).held ≤ c.total p ∧ (c.written p).held < 2 ^ 64 := by
  have hwritten := c.held_written_le p
  unfold Fits at hfits
  unfold total
  cases hused : c.used with
  | none =>
    simp only [hused] at hfits
    have hmeasured : sizes (c.written p).entries = (c.written p).held := rfl
    rw [Option.getD_none, hmeasured, Nat.mod_eq_of_lt (by omega : (c.written p).held < 2 ^ 64),
      Nat.mod_eq_of_lt (by omega)]
    omega
  | some used =>
    obtain ⟨hheld, hmax⟩ := htracks used hused
    simp only [hused] at hfits
    rw [Option.getD_some, Nat.mod_eq_of_lt (by omega)]
    omega

theorem max_put (c : Cache) (p : Put) (sorted : List Entry) : (c.put p sorted).max = c.max := by
  unfold put
  split <;> rfl

/-- A put leaves the figure tracked, over whatever it kept or evicted. -/
theorem put_tracks {c : Cache} {p : Put} {sorted : List Entry} (hsorted : Sorted (c.written p) sorted)
    (hfits : c.Fits p) (htracks : ∀ used, c.used = some used → c.Tracks used) :
    ∃ used, (c.put p sorted).used = some used ∧ (c.put p sorted).Tracks used := by
  obtain ⟨hcovered, hfit⟩ := held_written_le_total hfits htracks
  unfold put
  split
  case isTrue =>
    obtain ⟨_, _, _, _, htotal, hlimit⟩ := evict_spec c.max hsorted hfit
    refine ⟨_, rfl, by rw [htotal], ?_⟩
    show (evict c.max (c.written p) sorted).2 ≤ c.max
    omega
  case isFalse hle => exact ⟨_, rfl, hcovered, not_lt.1 hle⟩

end Cache

namespace Run

variable {c₀ c : Cache} {ps : List Put}

theorem max_eq (h : Run c₀ ps c) : c.max = c₀.max := by
  induction h with
  | nil => rfl
  | snoc _ hstep ih =>
    obtain ⟨sorted, _, rfl⟩ := hstep
    rw [Cache.max_put, ih]

/-- Nothing put yet, or the figure is tracked. -/
def Started (c₀ : Cache) (ps : List Put) (c : Cache) : Prop :=
  (ps = [] ∧ c = c₀) ∨ ∃ used, c.used = some used ∧ c.Tracks used

theorem ready {p : Put} (h : Run c₀ ps c) (hstarted : Started c₀ ps c) (hnew : c₀.used = none)
    (hfirst : ∀ q ∈ (ps ++ [p]).head?, c₀.dir.held + 2 * q.size < 2 ^ 64)
    (hfits : ∀ q ∈ ps ++ [p], c₀.max + q.size < 2 ^ 64) :
    c.Fits p ∧ ∀ used, c.used = some used → c.Tracks used := by
  rcases hstarted with ⟨rfl, rfl⟩ | ⟨used, hused, htracks⟩
  · refine ⟨?_, by simp [hnew]⟩
    simpa [Cache.Fits, hnew] using hfirst p (by simp)
  · constructor
    · simpa [Cache.Fits, hused, h.max_eq] using hfits p (by simp)
    · rintro used' hused'
      rw [hused] at hused'
      obtain rfl := Option.some.inj hused'
      exact htracks

/-- The figure is tracked from the first put on, whatever the directory held before. -/
theorem started (h : Run c₀ ps c) (hnew : c₀.used = none)
    (hfirst : ∀ p ∈ ps.head?, c₀.dir.held + 2 * p.size < 2 ^ 64) (hfits : ∀ p ∈ ps, c₀.max + p.size < 2 ^ 64) :
    Started c₀ ps c := by
  induction h with
  | nil => exact .inl ⟨rfl, rfl⟩
  | @snoc ps p c c' hrun hstep ih =>
    obtain ⟨sorted, hsorted, rfl⟩ := hstep
    have hbefore := ih (fun q hq => hfirst q (by rw [List.head?_append, Option.mem_def.1 hq]; rfl))
      (fun q hq => hfits q (by simp [hq]))
    obtain ⟨hfit, htracks⟩ := hrun.ready hbefore hnew hfirst hfits
    exact .inr (Cache.put_tracks hsorted hfit htracks)

end Run

/-- However many pictures are put, and whatever the directory held at the start: after each put
what it holds is within the figure tracked, and that within the bound; an eviction leaves at most
80% of the bound, and no picture older than one it removes. -/
theorem cache_bounded {dir : Dir} {max : Nat} {ps : List Put} {p : Put} {c c' : Cache}
    (hrun : Run ⟨dir, max, none⟩ ps c) (hstep : c.Step p c')
    (hfirst : ∀ q ∈ (ps ++ [p]).head?, dir.held + 2 * q.size < 2 ^ 64)
    (hfits : ∀ q ∈ ps ++ [p], max + q.size < 2 ^ 64) :
    (∃ used, c'.used = some used ∧ c'.dir.held ≤ used ∧ used ≤ max) ∧
      (c.evicts p → 10 * c'.dir.held ≤ 8 * max) ∧
      ∀ removed ∈ (c.written p).entries, removed ∉ c'.dir.entries → ∀ kept ∈ c'.dir.entries,
        removed.made ≤ kept.made := by
  have hstarted := hrun.started rfl (fun q hq => hfirst q (by rw [List.head?_append, Option.mem_def.1 hq]; rfl))
    (fun q hq => hfits q (by simp [hq]))
  obtain ⟨hfit, htracks⟩ := hrun.ready hstarted rfl hfirst hfits
  obtain ⟨_, hwritten⟩ := Cache.held_written_le_total hfit htracks
  have hmax : c.max = max := hrun.max_eq
  obtain ⟨sorted, hsorted, rfl⟩ := hstep
  refine ⟨?_, ?_, ?_⟩
  · obtain ⟨used, hused, hheld, hle⟩ := Cache.put_tracks hsorted hfit htracks
    rw [Cache.max_put, hmax] at hle
    exact ⟨used, hused, hheld, hle⟩
  · rintro hevicts
    obtain ⟨_, _, _, _, _, hlimit⟩ := evict_spec c.max hsorted hwritten
    rw [Cache.put, if_pos hevicts]
    show 10 * (evict c.max (c.written p) sorted).1.held ≤ 8 * max
    omega
  · rintro removed hr hgone kept hk
    unfold Cache.put at hgone hk
    split at hk
    case isTrue hevicts =>
      rw [if_pos hevicts] at hgone
      exact evict_byAge hsorted hwritten hr hgone hk
    case isFalse hevicts =>
      rw [if_neg hevicts] at hgone
      exact absurd hr hgone

/-! ## An eviction, and sums past `u64` -/

/-- A put that finds there is no picture of the key. -/
def noPicture : Put := { key := 7, picture := none, pid := 1, next := 0, made := 9 }

/-- One old file, past a bound of 10000 bytes. -/
def agedDir : Dir := { entries := [⟨3, 12000, path 1 "jpg"⟩], distinct := by decide }

theorem evicting_aged : (Cache.mk agedDir 10000 none).Step noPicture
    ((Cache.mk agedDir 10000 none).put noPicture [⟨3, 12000, path 1 "jpg"⟩, ⟨9, 0, path 7 "none"⟩]) :=
  ⟨_, ⟨by decide, by decide⟩, rfl⟩

theorem cache_bounded_evicts : ∃ c', (Cache.mk agedDir 10000 none).Step noPicture c' ∧
    c'.dir.entries = [⟨9, 0, path 7 "none"⟩] ∧ (∃ used, c'.used = some used ∧ c'.dir.held ≤ used ∧ used ≤ 10000) ∧
      10 * c'.dir.held ≤ 8 * 10000 := by
  obtain ⟨htracked, hevicted, _⟩ := cache_bounded .nil evicting_aged (by decide) (by decide)
  exact ⟨_, evicting_aged, by decide, htracked, hevicted (by decide)⟩

/-- Sparse files of 2^64 bytes together. -/
def sparseDir : Dir where
  entries := [⟨1, 2 ^ 63 - 1, path 1 "jpg"⟩, ⟨1, 2 ^ 63 - 1, path 2 "jpg"⟩, ⟨1, 2, path 3 "jpg"⟩]
  distinct := by decide

/-- Measured, these files take no bytes: nothing is evicted, and the figure tracked is 0. -/
theorem sparse_unmeasured : ∃ c', (Cache.mk sparseDir (2 ^ 29) none).Step noPicture c' ∧
    c'.used = some 0 ∧ c'.dir.held = 2 ^ 64 :=
  ⟨(Cache.mk sparseDir (2 ^ 29) none).put noPicture (sparseDir.entries ++ [⟨9, 0, path 7 "none"⟩]),
    ⟨_, ⟨by decide, by decide⟩, rfl⟩, by decide, by decide⟩

end StorageHarvester.Pictures
