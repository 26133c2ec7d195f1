/-
The directories the btrfs sharing pass knows (`Skeleton` in `src/btrfs.rs`), dead ones included, and
their lowest common ancestors. Climbing from both sides by depth finds the meet of two directories,
and `NONE`, for a link the tree does not hold, has none with anything.
-/
import StorageHarvester.Lib.Forest
import StorageHarvester.Tree.Shape

namespace StorageHarvester.Btrfs

open Forest

/-- The parts of a tree the sharing pass needs. A node's number is below `size`. -/
structure Skeleton where
  size : Nat
  parent : Nat → Option Nat
  depth : Nat → Nat
  byIno : Nat → Option Nat
  /-- Display paths of directories some of whose entries are excluded. -/
  pruned : Nat → Option Bytes
  exclude : Bytes → Bool
  down : Down parent
  depth_root : ∀ i, parent i = none → depth i = 0
  depth_child : ∀ i p, parent i = some p → depth i = depth p + 1
  known : ∀ ino i, byIno ino = some i → i < size

/-- The skeleton of a tree. A file system may give an inode number to a later node again: the last one
alive counts. -/
def Skeleton.ofTree (t : DirTree) (h : Shape t) (exclude : Bytes → Bool) : Skeleton where
  size := t.nodes.length
  parent := t.parentOf
  depth i := (t.node i).depth
  byIno ino := ((List.range t.nodes.length).filter fun i => (t.node i).alive && (t.node i).ino = ino).getLast?
  pruned i := if (t.node i).alive && (t.node i).pruned then some (t.displayPathBytes i) else none
  exclude := exclude
  down := h.down
  depth_root := fun i hi => by
    rcases Nat.eq_zero_or_pos i with rfl | hpos
    · exact h.depth_root
    · by_cases hl : i < t.nodes.length
      · obtain ⟨p, hp⟩ := h.hasParent i hpos hl
        rw [DirTree.parentOf, hp] at hi; cases hi
      · rw [DirTree.node_of_le (Nat.le_of_not_lt hl)]; rfl
  depth_child := h.depth
  known := fun ino i hi => by
    have := List.mem_of_getLast? hi
    exact List.mem_range.1 (List.mem_of_mem_filter this)

namespace Skeleton

/-- The node a link named `name` in directory `parent` counts in: none when the tree does not hold
it (outside the target, untracked, or excluded). -/
def holder (s : Skeleton) (parent : Nat) (name : Bytes) : Option Nat :=
  match s.byIno parent with
  | none => none
  | some node => match s.pruned node with
    | some dir => if s.exclude (pushComponent dir name) then none else some node
    | none => some node

/-- Up from `node` while it is deeper than `depth`, for at most `fuel` levels. -/
def climb (s : Skeleton) (depth : Nat) : Nat → Nat → Nat
  | 0, node => node
  | fuel + 1, node =>
    if depth < s.depth node then
      match s.parent node with
      | some p => climb s depth fuel p
      | none => node
    else node

def ancestorAt (s : Skeleton) (node depth : Nat) : Nat := s.climb depth (s.depth node) node

/-- Up from two nodes of one depth until they are the same, or both past a root. -/
def meet (s : Skeleton) : Nat → Nat → Nat → Option Nat
  | 0, a, b => if a = b then some a else none
  | fuel + 1, a, b =>
    if a = b then some a
    else match s.parent a, s.parent b with
      | some p, some q => meet s fuel p q
      | _, _ => none

/-- The lowest common ancestor. -/
def common (s : Skeleton) : Option Nat → Option Nat → Option Nat
  | some a, some b =>
    let a := s.climb (s.depth b) (s.depth a) a
    let b := s.climb (s.depth a) (s.depth b) b
    s.meet (s.depth a) a b
  | _, _ => none

/-! ## Common ancestors -/

variable (s : Skeleton)

/-- A strict ancestor is less deep. -/
theorem depth_le_of_above {a i : Nat} (h : Above s.parent a i) : s.depth a ≤ s.depth i := by
  induction h with
  | refl => exact Nat.le_refl _
  | step hp _ ih =>
    have := s.depth_child _ _ hp
    omega

/-- Climbing stops at an ancestor of the depth asked for, or at once; every ancestor that is not
deeper is passed over by none. -/
theorem climb_spec (depth : Nat) : ∀ {fuel node : Nat}, s.depth node ≤ fuel →
    Above s.parent (s.climb depth fuel node) node ∧ s.depth (s.climb depth fuel node) = min (s.depth node) depth ∧
      ∀ c, s.depth c ≤ depth → (Above s.parent c (s.climb depth fuel node) ↔ Above s.parent c node)
  | 0, node, h => by
    have h0 : s.climb depth 0 node = node := rfl
    rw [h0]
    exact ⟨.refl, by omega, fun _ _ => Iff.rfl⟩
  | fuel + 1, node, h => by
    rw [climb]
    split
    · rename_i hd
      cases hp : s.parent node with
      | none => have := s.depth_root node hp; omega
      | some p =>
        have hdp := s.depth_child node p hp
        obtain ⟨ha, hdepth, hall⟩ := climb_spec depth (show s.depth p ≤ fuel by omega)
        refine ⟨.step hp ha, by simp only; omega, fun c hc => ?_⟩
        rw [hall c hc, above_of_parent hp]
        constructor
        · exact .inr
        · rintro (rfl | hcp)
          · omega
          · exact hcp
    · exact ⟨.refl, by omega, fun _ _ => Iff.rfl⟩

/-- At one depth the two sides meet in the lowest node above both. -/
theorem meet_spec : ∀ {fuel a b : Nat}, s.depth a = s.depth b → s.depth a ≤ fuel → ∀ c,
    AboveOpt s.parent c (s.meet fuel a b) ↔ Above s.parent c a ∧ Above s.parent c b
  | fuel, a, b, hd, hf, c => by
    by_cases hab : a = b
    · subst hab
      have he : s.meet fuel a a = some a := by cases fuel <;> simp [meet]
      rw [he, and_self]; exact Iff.rfl
    · -- neither is above the other: they are equally deep
      have hne : ∀ {x y : Nat}, s.depth x = s.depth y → x ≠ y → ¬Above s.parent x y := by
        intro x y hxy hn ha
        obtain ⟨p, hp, hpa⟩ := ha.parent_of_ne hn
        have := s.depth_child _ _ hp
        have := s.depth_le_of_above hpa
        omega
      cases hpa : s.parent a with
      | none =>
        have he : s.meet fuel a b = none := by cases fuel <;> simp [meet, hab, hpa]
        rw [he]
        refine ⟨False.elim, fun ⟨h1, h2⟩ => ?_⟩
        rw [(above_root hpa).1 h1] at h2
        exact hne hd hab h2
      | some p =>
        have hdp := s.depth_child a p hpa
        cases hpb : s.parent b with
        | none => have := s.depth_root b hpb; omega
        | some q =>
          have hdq := s.depth_child b q hpb
          cases fuel with
          | zero => omega
          | succ fuel =>
            have he : s.meet (fuel + 1) a b = s.meet fuel p q := by simp [meet, hab, hpa, hpb]
            rw [he, meet_spec (by omega) (by omega) c, above_of_parent hpa, above_of_parent hpb]
            constructor
            · exact fun ⟨h1, h2⟩ => ⟨.inr h1, .inr h2⟩
            · rintro ⟨rfl | h1, h2⟩
              · rcases h2 with rfl | h2
                · exact absurd rfl hab
                · exact absurd (.step hpb h2) (hne hd hab)
              · rcases h2 with rfl | h2
                · exact absurd (.step hpa h1) (hne hd.symm (Ne.symm hab))
                · exact ⟨h1, h2⟩

/-- `common` computes meets. -/
theorem common_isMeet (a b : Option Nat) : IsMeet s.parent a b (s.common a b) := by
  cases a with
  | none => exact fun c => ⟨False.elim, fun h => h.1⟩
  | some a =>
    cases b with
    | none => exact fun c => ⟨False.elim, fun h => h.2⟩
    | some b =>
      obtain ⟨-, hda, hca⟩ := s.climb_spec (s.depth b) (Nat.le_refl (s.depth a))
      obtain ⟨-, hdb, hcb⟩ := s.climb_spec (s.depth (s.climb (s.depth b) (s.depth a) a)) (Nat.le_refl (s.depth b))
      intro c
      rw [common, s.meet_spec (by omega) (Nat.le_refl _)]
      constructor
      · rintro ⟨h1, h2⟩
        have hc1 := s.depth_le_of_above h1
        exact ⟨(hca c (by omega)).1 h1, (hcb c hc1).1 h2⟩
      · rintro ⟨h1, h2⟩
        have hc1 := s.depth_le_of_above h1
        have hc2 := s.depth_le_of_above h2
        have h1' := (hca c hc2).2 h1
        exact ⟨h1', (hcb c (s.depth_le_of_above h1')).2 h2⟩

end Skeleton

end StorageHarvester.Btrfs
