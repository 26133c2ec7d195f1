/-
Numbers in byte strings, least significant byte first, and the windows they are read from.
-/
import Mathlib.Algebra.BigOperators.Group.Finset.Piecewise
import Mathlib.Algebra.Order.BigOperators.Group.Finset
import Mathlib.Algebra.Order.Ring.Int
import Mathlib.Data.List.Dedup
import Mathlib.Data.List.GetD
import Mathlib.Data.List.Perm.Subperm
import Mathlib.Data.List.Sort
import Mathlib.Tactic.Common

namespace StorageHarvester.LittleEndian

def read (bytes : List UInt8) : Nat := bytes.foldr (fun b n => b.toNat + 256 * n) 0

/-- The lowest `n` bytes of a number. -/
def write : Nat → Nat → List UInt8
  | 0, _ => []
  | n + 1, v => UInt8.ofNat v :: write n (v / 256)

@[simp] theorem length_write : ∀ n v, (write n v).length = n
  | 0, _ => rfl
  | n + 1, v => by rw [write, List.length_cons, length_write]

/-- A number that fits is read back. -/
theorem read_write : ∀ {n v : Nat}, v < 256 ^ n → read (write n v) = v
  | 0, v, h => by
    have h0 : v = 0 := by simpa using h
    rw [h0]
    rfl
  | n + 1, v, h => by
    have ih : read (write n (v / 256)) = v / 256 := read_write (by rw [Nat.pow_succ] at h; omega)
    have hcons : read (write (n + 1) v) = (UInt8.ofNat v).toNat + 256 * read (write n (v / 256)) := rfl
    have hlow : (UInt8.ofNat v).toNat = v % 256 := UInt8.toNat_ofNat' ..
    rw [hcons, ih, hlow]
    omega

/-! ## Windows -/

/-- The `len` bytes from `start`, if there are as many. -/
def window (data : List UInt8) (start len : Nat) : Option (List UInt8) :=
  if start + len ≤ data.length then some ((data.drop start).take len) else none

theorem window_eq_some {data : List UInt8} {start len : Nat} (h : start + len ≤ data.length) :
    window data start len = some ((data.drop start).take len) := if_pos h

theorem length_of_window {data part : List UInt8} {start len : Nat} (h : window data start len = some part) : part.length = len := by
  unfold window at h
  split at h
  · cases h
    rw [List.length_take, List.length_drop]
    omega
  · cases h

/-- A window past a prefix is one of the rest. -/
theorem window_skip {before data : List UInt8} {start i len : Nat} (h : start = before.length + i) :
    window (before ++ data) start len = window data i len := by
  subst h
  unfold window
  rw [List.length_append, List.drop_append]
  have hle : before.length + i + len ≤ before.length + data.length ↔ i + len ≤ data.length := by omega
  have hnil : before.drop (before.length + i) = [] := List.drop_eq_nil_of_le (Nat.le_add_right ..)
  rw [hnil, List.nil_append, Nat.add_sub_cancel_left]
  exact if_congr hle rfl rfl

theorem window_head {part after : List UInt8} {len : Nat} (h : len = part.length) : window (part ++ after) 0 len = some part := by
  subst h
  rw [window_eq_some (by rw [List.length_append]; omega), List.drop_zero, List.take_left]

/-- The bytes from `start`, unless it is past their end. -/
def rest (data : List UInt8) (start : Nat) : Option (List UInt8) := if start ≤ data.length then some (data.drop start) else none

theorem rest_eq_some {data : List UInt8} {start : Nat} (h : start ≤ data.length) : rest data start = some (data.drop start) := if_pos h

end StorageHarvester.LittleEndian
