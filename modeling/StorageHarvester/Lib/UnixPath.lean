/-
Unix paths as `std::path` reads them: the components of a byte string, with repeated slashes and
interior `.` dropped and `..` kept, and what joining a proper name onto a path adds to them.
-/
import Mathlib.Algebra.BigOperators.Group.Finset.Piecewise
import Mathlib.Algebra.Order.BigOperators.Group.Finset
import Mathlib.Algebra.Order.Ring.Int
import Mathlib.Data.List.Dedup
import Mathlib.Data.List.GetD
import Mathlib.Data.List.Perm.Subperm
import Mathlib.Data.List.Sort
import Mathlib.Tactic.Common

namespace StorageHarvester

abbrev Bytes := List UInt8

def slash : UInt8 := 47

/-- `std::path::Component` of a Unix path. -/
inductive PathComponent where
  | rootDir
  | curDir
  | parentDir
  | normal (name : Bytes)
  deriving DecidableEq, Repr

/-- `Component::as_os_str`. -/
def PathComponent.bytes : PathComponent → Bytes
  | rootDir => [slash]
  | curDir => [46]
  | parentDir => [46, 46]
  | normal name => name

/-- A byte string cut at its slashes. -/
def splitSlash : Bytes → List Bytes
  | [] => [[]]
  | b :: l =>
    if b = slash then [] :: splitSlash l
    else match splitSlash l with
      | [] => [[b]]
      | part :: parts => (b :: part) :: parts

/-- A part as a component; empty parts and `.` are none. -/
def parsePart (part : Bytes) : Option PathComponent :=
  if part = [] ∨ part = [46] then none
  else if part = [46, 46] then some .parentDir
  else some (.normal part)

/-- The components after the root or a leading `.`. -/
def pathBody (path : Bytes) : List PathComponent := (splitSlash path).filterMap parsePart

/-- `Path::components`. -/
def pathComponents (path : Bytes) : List PathComponent :=
  if path.head? = some slash then .rootDir :: pathBody path
  else if (splitSlash path).head? = some [46] then .curDir :: pathBody path
  else pathBody path

/-- What is left of a list after a prefix. -/
def stripPrefix {α : Type*} [DecidableEq α] : List α → List α → Option (List α)
  | l, [] => some l
  | [], _ :: _ => none
  | a :: l, b :: p => if a = b then stripPrefix l p else none

theorem stripPrefix_eq_some {α : Type*} [DecidableEq α] : ∀ {l p r : List α}, stripPrefix l p = some r ↔ l = p ++ r
  | l, [], r => by cases l <;> simp [stripPrefix]
  | [], _ :: _, r => by simp [stripPrefix]
  | a :: l, b :: p, r => by
    rw [stripPrefix]
    by_cases h : a = b
    · rw [if_pos h, stripPrefix_eq_some, h]; simp
    · rw [if_neg h]; simp [h]

/-- A name a directory entry can have: not empty, no slash, not `.` or `..`. -/
def ProperName (name : Bytes) : Prop := name ≠ [] ∧ slash ∉ name ∧ name ≠ [46] ∧ name ≠ [46, 46]

instance (name : Bytes) : Decidable (ProperName name) := inferInstanceAs (Decidable (_ ∧ _))

theorem splitSlash_ne_nil : ∀ l, splitSlash l ≠ []
  | [] => by simp [splitSlash]
  | b :: l => by
    rw [splitSlash]
    split
    · simp
    · split <;> simp

theorem splitSlash_append : ∀ (a b : Bytes), splitSlash (a ++ slash :: b) = splitSlash a ++ splitSlash b
  | [], b => by simp [splitSlash]
  | x :: a, b => by
    rw [List.cons_append, splitSlash, splitSlash, splitSlash_append a b]
    by_cases h : x = slash
    · rw [if_pos h, if_pos h]; rfl
    · rw [if_neg h, if_neg h]
      cases hs : splitSlash a with
      | nil => exact absurd hs (splitSlash_ne_nil a)
      | cons part parts => rfl

theorem splitSlash_of_notMem : ∀ {l : Bytes}, slash ∉ l → splitSlash l = [l]
  | [], _ => rfl
  | b :: l, h => by
    rw [List.mem_cons, not_or] at h
    rw [splitSlash, if_neg (Ne.symm h.1), splitSlash_of_notMem h.2]

theorem pathBody_append (a b : Bytes) : pathBody (a ++ slash :: b) = pathBody a ++ pathBody b := by
  unfold pathBody
  rw [splitSlash_append, List.filterMap_append]

theorem pathBody_of_proper {name : Bytes} (h : ProperName name) : pathBody name = [.normal name] := by
  unfold pathBody
  rw [splitSlash_of_notMem h.2.1]
  simp [parsePart, h.1, h.2.2.1, h.2.2.2]

/-- Appends `/part`, without doubling a trailing `/`. -/
def pushComponent (path part : Bytes) : Bytes :=
  (if path.getLast? = some slash then path else path ++ [slash]) ++ part

theorem pathBody_pushComponent (path : Bytes) {name : Bytes} (h : ProperName name) :
    pathBody (pushComponent path name) = pathBody path ++ [.normal name] := by
  unfold pushComponent
  by_cases hl : path.getLast? = some slash
  · rw [if_pos hl]
    obtain ⟨init, rfl⟩ := List.getLast?_eq_some_iff.1 hl
    have h1 := pathBody_append init name
    have h2 := pathBody_append init []
    have h3 : pathBody [] = [] := rfl
    rw [List.append_assoc, List.singleton_append, h1, h2, h3, List.append_nil, pathBody_of_proper h]
  · rw [if_neg hl, List.append_assoc, List.singleton_append, pathBody_append, pathBody_of_proper h]

theorem head?_pushComponent {path : Bytes} (h : path.head? = some slash) (name : Bytes) :
    (pushComponent path name).head? = some slash := by
  unfold pushComponent
  cases path with
  | nil => cases h
  | cons b rest => split <;> simpa using h

/-- Joining proper names onto an absolute path appends them to its components. -/
theorem pathComponents_foldl_push : ∀ (names : List Bytes) {path : Bytes}, path.head? = some slash →
    (∀ name ∈ names, ProperName name) →
    pathComponents (names.foldl pushComponent path) = pathComponents path ++ names.map .normal
  | [], _, _, _ => by simp
  | name :: names, path, hp, hn => by
    have hhead := head?_pushComponent hp name
    rw [List.foldl_cons, pathComponents_foldl_push names hhead fun n hm => hn n (List.mem_cons_of_mem _ hm)]
    have hstep : pathComponents (pushComponent path name) = pathComponents path ++ [.normal name] := by
      unfold pathComponents
      rw [if_pos hhead, if_pos hp, pathBody_pushComponent path (hn name (List.mem_cons_self ..))]
      rfl
    rw [hstep, List.append_assoc]
    rfl

end StorageHarvester
