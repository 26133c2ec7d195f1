/-
UTF-8 by chunks, as `String::from_utf8_lossy` reads it: the first character of a byte string, or
the longest broken start of one, which the lossy reading replaces by `U+FFFD`. A string is valid
when every chunk is a character, and then the lossy reading is the string itself.
-/
import Mathlib.Algebra.BigOperators.Group.Finset.Piecewise
import Mathlib.Algebra.Order.BigOperators.Group.Finset
import Mathlib.Algebra.Order.Ring.Int
import Mathlib.Data.List.Dedup
import Mathlib.Data.List.GetD
import Mathlib.Data.List.Perm.Subperm
import Mathlib.Data.List.Sort
import Mathlib.Tactic.Common

namespace StorageHarvester.Utf8

inductive Chunk where
  /-- A character of `n` bytes. -/
  | char (n : Nat)
  /-- `n` bytes that start no character. -/
  | broken (n : Nat)
  deriving DecidableEq, Repr

/-- `0x80 ..= 0xBF`. -/
def isTail (b : UInt8) : Bool := 0x80 ≤ b && b ≤ 0xBF

/-- After a first byte of a longer character: what the second may be, and how many tails follow it. -/
def lead (a : UInt8) : Option (UInt8 × UInt8 × Nat) :=
  if 0xC2 ≤ a ∧ a ≤ 0xDF then some (0x80, 0xBF, 0)
  else if a = 0xE0 then some (0xA0, 0xBF, 1)
  else if 0xE1 ≤ a ∧ a ≤ 0xEC then some (0x80, 0xBF, 1)
  else if a = 0xED then some (0x80, 0x9F, 1)
  else if 0xEE ≤ a ∧ a ≤ 0xEF then some (0x80, 0xBF, 1)
  else if a = 0xF0 then some (0x90, 0xBF, 2)
  else if 0xF1 ≤ a ∧ a ≤ 0xF3 then some (0x80, 0xBF, 2)
  else if a = 0xF4 then some (0x80, 0x8F, 2)
  else none

/-- `n` tails, after `k` bytes. -/
def tails : Nat → Nat → List UInt8 → Chunk
  | 0, k, _ => .char k
  | n + 1, k, b :: rest => if isTail b then tails n (k + 1) rest else .broken k
  | _ + 1, k, [] => .broken k

/-- The first chunk of a byte string that starts with `a`. -/
def chunk (a : UInt8) (rest : List UInt8) : Chunk :=
  if a < 0x80 then .char 1
  else match lead a, rest with
    | some (lo, hi, n), b :: rest => if lo ≤ b ∧ b ≤ hi then tails n 2 rest else .broken 1
    | _, _ => .broken 1

/-- `U+FFFD`. -/
def replacement : List UInt8 := [0xEF, 0xBF, 0xBD]

def lossyLoop : Nat → List UInt8 → List UInt8
  | 0, _ => []
  | _, [] => []
  | fuel + 1, a :: rest => match chunk a rest with
    | .char n => (a :: rest).take n ++ lossyLoop fuel ((a :: rest).drop n)
    | .broken n => replacement ++ lossyLoop fuel ((a :: rest).drop n)

/-- `String::from_utf8_lossy`. A chunk has at least one byte. -/
def lossy (l : List UInt8) : List UInt8 := lossyLoop l.length l

def validLoop : Nat → List UInt8 → Bool
  | _, [] => true
  | 0, _ => false
  | fuel + 1, a :: rest => match chunk a rest with
    | .char n => validLoop fuel ((a :: rest).drop n)
    | .broken _ => false

/-- Whether a byte string is UTF-8. -/
def valid (l : List UInt8) : Bool := validLoop l.length l

theorem lossyLoop_of_valid : ∀ (fuel : Nat) (l : List UInt8), validLoop fuel l = true → lossyLoop fuel l = l
  | 0, [], _ => rfl
  | 0, _ :: _, h => by simp [validLoop] at h
  | _ + 1, [], _ => rfl
  | fuel + 1, a :: rest, h => by
    rw [validLoop] at h
    rw [lossyLoop]
    cases hc : chunk a rest with
    | char n =>
      rw [hc] at h
      show (a :: rest).take n ++ lossyLoop fuel ((a :: rest).drop n) = a :: rest
      rw [lossyLoop_of_valid fuel _ h, List.take_append_drop]
    | broken n => rw [hc] at h; cases h

/-- A valid string is read as it is. -/
theorem lossy_of_valid {l : List UInt8} (h : valid l = true) : lossy l = l := lossyLoop_of_valid _ _ h

/-! ## One after the other -/

/-- What follows a character does not change it. -/
theorem tails_append : ∀ {n k m : Nat} {rest : List UInt8} (more : List UInt8), tails n k rest = .char m →
    tails n k (rest ++ more) = .char m ∧ m ≤ k + rest.length
  | 0, _, _, _, _, h => by
    cases h
    exact ⟨rfl, Nat.le_add_right _ _⟩
  | n + 1, k, m, b :: rest, more, h => by
    rw [tails] at h
    rw [List.cons_append, tails]
    by_cases hb : isTail b = true
    · rw [if_pos hb] at h ⊢
      obtain ⟨heq, hle⟩ := tails_append more h
      rw [List.length_cons]
      exact ⟨heq, by omega⟩
    · rw [if_neg hb] at h
      cases h
  | _ + 1, _, _, [], _, h => by cases h

theorem chunk_append {a : UInt8} {rest : List UInt8} {n : Nat} (more : List UInt8) (h : chunk a rest = .char n) :
    chunk a (rest ++ more) = .char n ∧ n ≤ rest.length + 1 := by
  unfold chunk at h ⊢
  by_cases ha : a < 0x80
  · rw [if_pos ha] at h ⊢
    cases h
    exact ⟨rfl, Nat.le_add_left 1 _⟩
  · rw [if_neg ha] at h ⊢
    revert h
    rcases lead a with _ | ⟨lo, hi, k⟩ <;> intro h
    · cases h
    · cases rest with
      | nil => cases h
      | cons b rest =>
        dsimp only [List.cons_append] at h ⊢
        by_cases hb : lo ≤ b ∧ b ≤ hi
        · rw [if_pos hb] at h ⊢
          obtain ⟨heq, hle⟩ := tails_append more h
          rw [List.length_cons]
          exact ⟨heq, by omega⟩
        · rw [if_neg hb] at h
          cases h

theorem validLoop_mono : ∀ {fuel : Nat} {l : List UInt8} (k : Nat), validLoop fuel l = true → validLoop (fuel + k) l = true
  | _, [], _, _ => by rw [validLoop]
  | 0, _ :: _, _, h => by simp [validLoop] at h
  | fuel + 1, a :: rest, k, h => by
    rw [validLoop] at h
    rw [Nat.add_right_comm, validLoop]
    cases hc : chunk a rest with
    | char n =>
      rw [hc] at h
      exact validLoop_mono k h
    | broken n =>
      rw [hc] at h
      cases h

theorem validLoop_append {more : List UInt8} (hmore : valid more = true) : ∀ {fuel : Nat} {l : List UInt8},
    validLoop fuel l = true → validLoop (fuel + more.length) (l ++ more) = true
  | fuel, [], _ => by
    rw [Nat.add_comm]
    exact validLoop_mono fuel hmore
  | 0, _ :: _, h => by simp [validLoop] at h
  | fuel + 1, a :: rest, h => by
    rw [validLoop] at h
    rw [Nat.add_right_comm, List.cons_append, validLoop]
    cases hc : chunk a rest with
    | char n =>
      rw [hc] at h
      obtain ⟨heq, hle⟩ := chunk_append more hc
      rw [heq]
      show validLoop (fuel + more.length) ((a :: rest ++ more).drop n) = true
      rw [List.drop_append_of_le_length (by rw [List.length_cons]; exact hle)]
      exact validLoop_append hmore h
    | broken n =>
      rw [hc] at h
      cases h

theorem valid_append {l more : List UInt8} (h : valid l = true) (hmore : valid more = true) : valid (l ++ more) = true := by
  unfold valid
  rw [List.length_append]
  exact validLoop_append hmore h

theorem valid_flatMap {α : Type} {f : α → List UInt8} : ∀ {l : List α}, (∀ a ∈ l, valid (f a) = true) → valid (l.flatMap f) = true
  | [], _ => rfl
  | a :: l, h => by
    rw [List.flatMap_cons]
    exact valid_append (h a (List.mem_cons_self ..)) (valid_flatMap fun x hx => h x (List.mem_cons_of_mem _ hx))

example : lossy [0x61, 0xC3, 0x62, 0xE2, 0x82] = [0x61] ++ replacement ++ [0x62] ++ replacement := by decide

end StorageHarvester.Utf8
