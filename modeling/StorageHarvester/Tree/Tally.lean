/-
Tallies and deltas (`src/tree.rs`): what a directory counts, in `u64`, and signed differences of
tallies, in `i64`, with the saturation and clamping of the source. Every operation is stated once
for all five components; within the limits each is plain integer arithmetic.
-/
import Mathlib.Algebra.BigOperators.Group.Finset.Piecewise
import Mathlib.Algebra.Order.BigOperators.Group.Finset
import Mathlib.Algebra.Order.Ring.Int
import Mathlib.Data.List.Dedup
import Mathlib.Data.List.GetD
import Mathlib.Data.List.Perm.Subperm
import Mathlib.Data.List.Sort
import Mathlib.Tactic.Common

namespace StorageHarvester

/-! ## Machine integers -/

/-- `u64::MAX`. -/
def u64Max : Nat := 2 ^ 64 - 1
/-- `i64::MIN` and `i64::MAX`. -/
def i64Min : Int := -2 ^ 63
def i64Max : Int := 2 ^ 63 - 1

/-- `u64::saturating_add`. -/
def saturatingAdd (a b : Nat) : Nat := min (a + b) u64Max

/-- `clamp(i64::MIN, i64::MAX)`, also what the saturating operations of `i64` return. -/
def clampI64 (x : Int) : Int := max i64Min (min x i64Max)

/-- Two's complement wrap-around of `i64`. -/
def wrapI64 (x : Int) : Int := x.bmod (2 ^ 64)

/-! ## Tallies -/

structure Tally where
  files : Nat := 0
  dirs : Nat := 0
  symlinks : Nat := 0
  blocks : Nat := 0
  apparent : Nat := 0
  deriving DecidableEq, Repr, Inhabited

/-- A signed difference between two tallies. -/
structure Delta where
  files : Int := 0
  dirs : Int := 0
  symlinks : Int := 0
  blocks : Int := 0
  apparent : Int := 0
  deriving DecidableEq, Repr, Inhabited

/-- `u64` shifted by an `i64`, clamped at zero and at `u64::MAX`. -/
def shift (value : Nat) (by_ : Int) : Nat :=
  if by_ < 0 then value - by_.natAbs else saturatingAdd value by_.toNat

namespace Tally

def addSize (t : Tally) (blocks apparent : Nat) : Tally :=
  { t with blocks := saturatingAdd t.blocks blocks, apparent := saturatingAdd t.apparent apparent }

def add (t other : Tally) : Tally :=
  { t with
    files := t.files + other.files
    dirs := t.dirs + other.dirs
    symlinks := t.symlinks + other.symlinks }.addSize other.blocks other.apparent

def isEmpty (t : Tally) : Bool := t = {}

/-- `self += delta`, clamped at zero. -/
def apply (t : Tally) (delta : Delta) : Tally where
  files := shift t.files delta.files
  dirs := shift t.dirs delta.dirs
  symlinks := shift t.symlinks delta.symlinks
  blocks := shift t.blocks delta.blocks
  apparent := shift t.apparent delta.apparent

end Tally

namespace Delta

/-- The difference of two `u64` as an `i64`. -/
def diff (old new : Nat) : Int := clampI64 ((new : Int) - old)

def between (old new : Tally) : Delta where
  files := diff old.files new.files
  dirs := diff old.dirs new.dirs
  symlinks := diff old.symlinks new.symlinks
  blocks := diff old.blocks new.blocks
  apparent := diff old.apparent new.apparent

def plus (d other : Delta) : Delta where
  files := clampI64 (d.files + other.files)
  dirs := clampI64 (d.dirs + other.dirs)
  symlinks := clampI64 (d.symlinks + other.symlinks)
  blocks := clampI64 (d.blocks + other.blocks)
  apparent := clampI64 (d.apparent + other.apparent)

def negate (d : Delta) : Delta where
  files := wrapI64 (-d.files)
  dirs := wrapI64 (-d.dirs)
  symlinks := wrapI64 (-d.symlinks)
  blocks := wrapI64 (-d.blocks)
  apparent := wrapI64 (-d.apparent)

def isZero (d : Delta) : Bool := d = {}

/-- `From<&Tally>`. -/
def ofTally (t : Tally) : Delta := between {} t

end Delta

/-! ## Components -/

/-- The five figures of a tally. -/
inductive Component where
  | files | dirs | symlinks | blocks | apparent
  deriving DecidableEq, Repr

def Tally.get (t : Tally) : Component → Nat
  | .files => t.files
  | .dirs => t.dirs
  | .symlinks => t.symlinks
  | .blocks => t.blocks
  | .apparent => t.apparent

def Delta.get (d : Delta) : Component → Int
  | .files => d.files
  | .dirs => d.dirs
  | .symlinks => d.symlinks
  | .blocks => d.blocks
  | .apparent => d.apparent

/-- What `blocks` and `apparent` bytes add to each component. -/
def sizeAt (blocks apparent : Nat) : Component → Nat
  | .blocks => blocks
  | .apparent => apparent
  | _ => 0

/-- A change of size only, as the source writes it (`Delta { blocks, apparent, ..default }`). -/
def Delta.size (blocks apparent : Int) : Delta := { blocks := blocks, apparent := apparent }

namespace Tally

theorem ext_get {s t : Tally} (h : ∀ c, s.get c = t.get c) : s = t := by
  obtain ⟨f, d, l, b, a⟩ := s
  obtain ⟨f', d', l', b', a'⟩ := t
  have := h .files; have := h .dirs; have := h .symlinks; have := h .blocks; have := h .apparent
  simp_all [get]

@[simp] theorem get_default (c : Component) : ({} : Tally).get c = 0 := by cases c <;> rfl

theorem get_apply (t : Tally) (d : Delta) (c : Component) : (t.apply d).get c = shift (t.get c) (d.get c) := by
  cases c <;> rfl

/-- Adding sizes within the limit. -/
theorem get_addSize {t : Tally} {blocks apparent : Nat} {c : Component}
    (h : t.get c + sizeAt blocks apparent c < 2 ^ 64) :
    (t.addSize blocks apparent).get c = t.get c + sizeAt blocks apparent c := by
  cases c <;> simp only [get, sizeAt] at h ⊢ <;> first | rfl | exact Nat.min_eq_left (by unfold u64Max; omega)

end Tally

namespace Delta

theorem ext_get {s t : Delta} (h : ∀ c, s.get c = t.get c) : s = t := by
  obtain ⟨f, d, l, b, a⟩ := s
  obtain ⟨f', d', l', b', a'⟩ := t
  have := h .files; have := h .dirs; have := h .symlinks; have := h .blocks; have := h .apparent
  simp_all [get]

@[simp] theorem get_default (c : Component) : ({} : Delta).get c = 0 := by cases c <;> rfl

theorem get_between (old new : Tally) (c : Component) :
    (between old new).get c = clampI64 ((new.get c : Int) - old.get c) := by cases c <;> rfl

theorem get_plus (d e : Delta) (c : Component) : (d.plus e).get c = clampI64 (d.get c + e.get c) := by
  cases c <;> rfl

theorem get_negate (d : Delta) (c : Component) : d.negate.get c = wrapI64 (-d.get c) := by cases c <;> rfl

theorem isZero_iff {d : Delta} : d.isZero = true ↔ ∀ c, d.get c = 0 := by
  unfold isZero
  rw [decide_eq_true_iff]
  constructor
  · rintro rfl c; exact get_default c
  · intro h; exact ext_get fun c => by rw [h c, get_default]

end Delta

/-! ## Exact arithmetic within the limits -/

theorem clampI64_eq {x : Int} (h : -2 ^ 63 ≤ x) (h' : x < 2 ^ 63) : clampI64 x = x := by
  unfold clampI64 i64Min i64Max; omega

theorem wrapI64_eq {x : Int} (h : -2 ^ 63 ≤ x) (h' : x < 2 ^ 63) : wrapI64 x = x := by
  unfold wrapI64
  rw [Int.bmod_eq_of_le] <;> omega

theorem shift_eq {v : Nat} {d : Int} (h : 0 ≤ v + d) (h' : v + d < 2 ^ 64) : (shift v d : Int) = v + d := by
  unfold shift saturatingAdd u64Max
  split <;> omega

theorem Delta.get_between_eq {old new : Tally} {c : Component} (h : old.get c < 2 ^ 63) (h' : new.get c < 2 ^ 63) :
    (between old new).get c = (new.get c : Int) - old.get c := by
  rw [get_between, clampI64_eq] <;> omega

theorem Delta.get_ofTally {t : Tally} {c : Component} (h : t.get c < 2 ^ 63) : (ofTally t).get c = t.get c := by
  unfold ofTally
  rw [get_between_eq (by simp) h]; simp

theorem Delta.get_plus_eq {d e : Delta} {c : Component} (h : -2 ^ 63 ≤ d.get c + e.get c)
    (h' : d.get c + e.get c < 2 ^ 63) : (d.plus e).get c = d.get c + e.get c := by
  rw [get_plus, clampI64_eq h h']

theorem Delta.get_negate_eq {d : Delta} {c : Component} (h : -2 ^ 63 < d.get c) (h' : d.get c ≤ 2 ^ 63) :
    d.negate.get c = -d.get c := by
  rw [get_negate, wrapI64_eq] <;> omega

theorem Tally.get_apply_eq {t : Tally} {d : Delta} {c : Component} (h : 0 ≤ (t.get c : Int) + d.get c)
    (h' : (t.get c : Int) + d.get c < 2 ^ 64) : ((t.apply d).get c : Int) = t.get c + d.get c := by
  rw [get_apply, shift_eq h h']

/-- Applying a difference gives the newer tally exactly when the difference is one of `i64`. -/
theorem Tally.apply_between_iff {a b : Tally} {c : Component} (hb : b.get c < 2 ^ 64) :
    (a.apply (Delta.between a b)).get c = b.get c ↔ -2 ^ 63 ≤ (b.get c : Int) - a.get c ∧ (b.get c : Int) - a.get c < 2 ^ 63 := by
  rw [get_apply, Delta.get_between]
  constructor
  · intro h
    -- past the limits the sum stops short of `b`
    unfold shift saturatingAdd u64Max clampI64 i64Min i64Max at h
    split at h <;> omega
  · rintro ⟨h1, h2⟩
    rw [clampI64_eq h1 h2]
    have := shift_eq (v := a.get c) (d := (b.get c : Int) - a.get c) (by omega) (by omega)
    omega

/-- The negated difference leads back. -/
theorem Tally.apply_negate_between {a b : Tally} {c : Component} (ha : a.get c < 2 ^ 64)
    (h1 : -2 ^ 63 < (b.get c : Int) - a.get c) (h2 : (b.get c : Int) - a.get c < 2 ^ 63) :
    (b.apply (Delta.between a b).negate).get c = a.get c := by
  have hd : (Delta.between a b).get c = (b.get c : Int) - a.get c := by
    rw [Delta.get_between, clampI64_eq (by omega) h2]
  have hn : (Delta.between a b).negate.get c = (a.get c : Int) - b.get c := by
    rw [Delta.get_negate_eq (by omega) (by omega), hd]; omega
  have := Tally.get_apply_eq (t := b) (d := (Delta.between a b).negate) (c := c) (by omega) (by omega)
  omega

/-! ## Up to the limit -/

theorem Tally.capped_get_add (s t : Tally) (c : Component) :
    min ((s.add t).get c) u64Max = min (s.get c + t.get c) u64Max := by
  cases c <;> simp only [get, add, addSize, saturatingAdd] <;> omega

theorem Tally.capped_get_addSize (t : Tally) (blocks apparent : Nat) (c : Component) :
    min ((t.addSize blocks apparent).get c) u64Max = min (t.get c + sizeAt blocks apparent c) u64Max := by
  cases c <;> simp only [get, addSize, saturatingAdd, sizeAt] <;> omega

end StorageHarvester
