/-
The structural invariant of the arena (`Shape`): parents before children and alive, depths counted
from the root, and every alive directory listing exactly its alive children, strictly sorted by
name. Editing totals or times changes no shape; `attach`, `detach` and `graft` keep the invariant,
and `detach` kills exactly the subtree below what it unlinks.
-/
import StorageHarvester.Lib.Sweep
import StorageHarvester.Tree.Basic

namespace StorageHarvester

open Forest

/-! ## The order of names -/

theorem ne_of_compare_lt {a b : Bytes} (h : compare a b = .lt) : a ≠ b := by
  rintro rfl
  rw [Std.ReflOrd.compare_self] at h; cases h

theorem compare_gt_iff {a b : Bytes} : compare a b = .gt ↔ compare b a = .lt := Std.OrientedCmp.gt_iff_lt

/-- Names in order are probed in order. -/
theorem probed_of_sorted {t : DirTree} {l : List Nat} (name : Bytes)
    (h : l.Pairwise fun a b => compare (t.node a).name (t.node b).name = .lt) :
    Probed l fun c => compare (t.node c).name name := by
  refine h.imp fun {a b} hab => ⟨fun hb => ?_, fun ha => ?_⟩
  · cases hc : compare (t.node b).name name with
    | lt => exact Std.TransCmp.lt_trans hab hc
    | eq => rw [← Std.LawfulEqCmp.eq_of_compare hc]; exact hab
    | gt => exact absurd hc hb
  · cases hc : compare (t.node a).name name with
    | lt => exact absurd hc ha
    | eq => rw [← Std.LawfulEqCmp.eq_of_compare hc]; exact compare_gt_iff.2 hab
    | gt => exact compare_gt_iff.2 (Std.TransCmp.lt_trans (compare_gt_iff.1 hc) hab)

namespace DirTree

/-! ## Reading nodes -/

theorem node_of_le {t : DirTree} {i : Nat} (h : t.nodes.length ≤ i) : t.node i = default :=
  List.getD_eq_default _ _ h

theorem node_eq_getElem {t : DirTree} {i : Nat} (h : i < t.nodes.length) : t.node i = t.nodes[i] := by
  unfold node; rw [List.getD_eq_getElem _ _ h]

theorem lt_of_alive {t : DirTree} {i : Nat} (h : (t.node i).alive = true) : i < t.nodes.length := by
  by_contra hn
  rw [node_of_le (Nat.le_of_not_lt hn)] at h
  cases h

theorem getD_modify (nodes : List DirNode) (f : DirNode → DirNode) (i j : Nat) :
    (nodes.modify i f).getD j default =
      if j = i ∧ i < nodes.length then f (nodes.getD j default) else nodes.getD j default := by
  simp only [List.getD_eq_getElem?_getD, List.getElem?_modify]
  by_cases hij : i = j
  · subst hij
    by_cases hl : i < nodes.length
    · simp [hl]
    · simp [hl]
  · simp [hij, Ne.symm hij]

@[simp] theorem length_modifyNode (t : DirTree) (i : Nat) (f : DirNode → DirNode) :
    (t.modifyNode i f).nodes.length = t.nodes.length := by simp [modifyNode]

theorem node_modifyNode (t : DirTree) (i j : Nat) (f : DirNode → DirNode) :
    (t.modifyNode i f).node j = if j = i ∧ i < t.nodes.length then f (t.node j) else t.node j :=
  getD_modify t.nodes f i j

theorem node_modifyNode_self {t : DirTree} {i : Nat} (h : i < t.nodes.length) (f : DirNode → DirNode) :
    (t.modifyNode i f).node i = f (t.node i) := by
  rw [node_modifyNode, if_pos ⟨rfl, h⟩]

theorem node_modifyNode_of_ne {t : DirTree} {i j : Nat} (h : j ≠ i) (f : DirNode → DirNode) :
    (t.modifyNode i f).node j = t.node j := by
  rw [node_modifyNode, if_neg fun hc => h hc.1]

end DirTree

/-! ## Edits that keep the shape -/

/-- The structural fields of a node. -/
def DirNode.shape (n : DirNode) : Bytes × Option Nat × Nat × List Nat × Bool :=
  (n.name, n.parent, n.depth, n.children, n.alive)

/-- Two trees with the same structural fields everywhere. -/
structure SameShape (t u : DirTree) : Prop where
  length : u.nodes.length = t.nodes.length
  shape : ∀ i, (u.node i).shape = (t.node i).shape

namespace SameShape

variable {t u v : DirTree}

theorem refl (t : DirTree) : SameShape t t := ⟨rfl, fun _ => rfl⟩

theorem trans (h : SameShape t u) (h' : SameShape u v) : SameShape t v :=
  ⟨h'.length.trans h.length, fun i => (h'.shape i).trans (h.shape i)⟩

theorem symm (h : SameShape t u) : SameShape u t := ⟨h.length.symm, fun i => (h.shape i).symm⟩

theorem name (h : SameShape t u) (i : Nat) : (u.node i).name = (t.node i).name :=
  congrArg Prod.fst (h.shape i)

theorem parent (h : SameShape t u) (i : Nat) : (u.node i).parent = (t.node i).parent :=
  congrArg (fun s => s.2.1) (h.shape i)

theorem depth (h : SameShape t u) (i : Nat) : (u.node i).depth = (t.node i).depth :=
  congrArg (fun s => s.2.2.1) (h.shape i)

theorem children (h : SameShape t u) (i : Nat) : (u.node i).children = (t.node i).children :=
  congrArg (fun s => s.2.2.2.1) (h.shape i)

theorem alive (h : SameShape t u) (i : Nat) : (u.node i).alive = (t.node i).alive :=
  congrArg (fun s => s.2.2.2.2) (h.shape i)

theorem parentOf (h : SameShape t u) : u.parentOf = t.parentOf := funext h.parent

end SameShape

namespace DirTree

theorem sameShape_modifyNode (t : DirTree) (i : Nat) {f : DirNode → DirNode} (hf : ∀ n, (f n).shape = n.shape) :
    SameShape t (t.modifyNode i f) := by
  refine ⟨length_modifyNode t i f, fun j => ?_⟩
  rw [node_modifyNode]
  split
  · exact hf _
  · rfl

theorem sameShape_applySub (t : DirTree) (i : Nat) (d : Delta) : SameShape t (t.applySub i d) :=
  have h := sameShape_modifyNode t i (f := fun n => { n with sub := n.sub.apply d }) fun _ => rfl
  ⟨h.length, h.shape⟩

theorem sameShape_applyDirect (t : DirTree) (i : Nat) (d : Delta) : SameShape t (t.applyDirect i d) :=
  have h := sameShape_modifyNode t i (f := fun n => { n with direct := n.direct.apply d }) fun _ => rfl
  ⟨h.length, h.shape⟩

theorem sameShape_propagateUp (d : Delta) : ∀ (fuel : Nat) (i : Nat) (t : DirTree), SameShape t (propagateUp d fuel i t)
  | 0, _, t => .refl t
  | fuel + 1, i, t => by
    rw [propagateUp]
    split
    · exact sameShape_applySub t i d
    · exact (sameShape_applySub t i d).trans (sameShape_propagateUp d fuel _ _)

theorem sameShape_propagate (t : DirTree) (i : Nat) (d : Delta) : SameShape t (t.propagate i d) := by
  unfold propagate
  split
  · exact .refl t
  · exact sameShape_propagateUp d _ i t

/-- `touch` changes nothing but times. -/
theorem node_touchUp (a : Int) : ∀ (fuel : Nat) (i : Nat) (t : DirTree) (j : Nat),
    (touchUp a fuel i t).node j = { t.node j with newest := ((touchUp a fuel i t).node j).newest }
  | 0, _, _, _ => rfl
  | fuel + 1, i, t, j => by
    have hmod : (t.modifyNode i fun n => { n with newest := a }).node j =
        { t.node j with newest := ((t.modifyNode i fun n => { n with newest := a }).node j).newest } := by
      rw [node_modifyNode]
      split <;> rfl
    rw [touchUp]
    split
    · rfl
    · dsimp only
      split
      · exact hmod
      · rw [node_touchUp a fuel, hmod]

theorem node_touch (t : DirTree) (i : Nat) (a : Int) (j : Nat) :
    (t.touch i a).node j = { t.node j with newest := ((t.touch i a).node j).newest } := node_touchUp a _ i t j

theorem touchUp_frame (a : Int) : ∀ (fuel : Nat) (i : Nat) (t : DirTree),
    ∃ nodes, touchUp a fuel i t = { t with nodes := nodes } ∧ nodes.length = t.nodes.length
  | 0, _, t => ⟨t.nodes, rfl, rfl⟩
  | fuel + 1, i, t => by
    rw [touchUp]
    split
    · exact ⟨t.nodes, rfl, rfl⟩
    · dsimp only
      split
      · exact ⟨_, rfl, by simp⟩
      · rename_i p _
        obtain ⟨nodes, h, hl⟩ := touchUp_frame a fuel p (t.modifyNode i fun n => { n with newest := a })
        exact ⟨nodes, by rw [h]; rfl, by simpa using hl⟩

/-- What is not a node is left alone by `touch`. -/
theorem touch_frame (t : DirTree) (i : Nat) (a : Int) :
    ∃ nodes, t.touch i a = { t with nodes := nodes } ∧ nodes.length = t.nodes.length := touchUp_frame a _ i t

@[simp] theorem length_touch (t : DirTree) (i : Nat) (a : Int) : (t.touch i a).nodes.length = t.nodes.length := by
  obtain ⟨nodes, h, hl⟩ := touch_frame t i a
  rw [h]; exact hl

@[simp] theorem links_touch (t : DirTree) (i : Nat) (a : Int) : (t.touch i a).links = t.links := by
  obtain ⟨nodes, h, -⟩ := touch_frame t i a
  rw [h]

@[simp] theorem clamped_touch (t : DirTree) (i : Nat) (a : Int) : (t.touch i a).clamped = t.clamped := by
  obtain ⟨nodes, h, -⟩ := touch_frame t i a
  rw [h]

theorem sameShape_touch (t : DirTree) (i : Nat) (a : Int) : SameShape t (t.touch i a) :=
  ⟨length_touch t i a, fun j => by rw [node_touch]; rfl⟩

end DirTree

/-! ## The invariant -/

/-- The structural invariant of the arena. -/
structure Shape (t : DirTree) : Prop where
  /-- The root is alive and has no parent. -/
  root : (t.node 0).alive = true ∧ (t.node 0).parent = none
  depth_root : (t.node 0).depth = 0
  down : Down t.parentOf
  hasParent : ∀ i, 0 < i → i < t.nodes.length → ∃ p, (t.node i).parent = some p
  depth : ∀ i p, (t.node i).parent = some p → (t.node i).depth = (t.node p).depth + 1
  child : ∀ i, (t.node i).alive = true → ∀ j ∈ (t.node i).children,
    (t.node j).alive = true ∧ (t.node j).parent = some i
  listed : ∀ i p, (t.node i).alive = true → (t.node i).parent = some p →
    (t.node p).alive = true ∧ i ∈ (t.node p).children
  sorted : ∀ i, (t.node i).alive = true →
    (t.node i).children.Pairwise fun a b => compare (t.node a).name (t.node b).name = .lt

namespace Shape

variable {t u : DirTree}

theorem congr (h : Shape t) (he : SameShape t u) : Shape u where
  root := by rw [he.alive, he.parent]; exact h.root
  depth_root := by rw [he.depth]; exact h.depth_root
  down := by rw [he.parentOf]; exact h.down
  hasParent := fun i hi hl => by rw [he.parent]; exact h.hasParent i hi (he.length ▸ hl)
  depth := fun i p hp => by rw [he.depth, he.depth]; exact h.depth i p (he.parent i ▸ hp)
  child := fun i hi j hj => by
    rw [he.alive, he.parent]; exact h.child i (he.alive i ▸ hi) j (he.children i ▸ hj)
  listed := fun i p hi hp => by
    rw [he.alive, he.children]; exact h.listed i p (he.alive i ▸ hi) (he.parent i ▸ hp)
  sorted := fun i hi => by
    rw [he.children]
    simpa only [he.name] using h.sorted i (he.alive i ▸ hi)

theorem pos (h : Shape t) : 0 < t.nodes.length := DirTree.lt_of_alive h.root.1

theorem nodup (h : Shape t) {i : Nat} (hi : (t.node i).alive = true) : (t.node i).children.Nodup :=
  (h.sorted i hi).imp fun hlt heq => ne_of_compare_lt hlt (congrArg (fun j => (t.node j).name) heq)

theorem lt_of_child (h : Shape t) {i j : Nat} (hi : (t.node i).alive = true) (hj : j ∈ (t.node i).children) : i < j :=
  h.down j i (h.child i hi j hj).2

/-- An alive node is a child of its parent, and only of it. -/
theorem mem_children (h : Shape t) {i p : Nat} (hi : (t.node i).alive = true) (hp : (t.node p).alive = true) :
    i ∈ (t.node p).children ↔ (t.node i).parent = some p :=
  ⟨fun hm => (h.child p hp i hm).2, fun he => (h.listed i p hi he).2⟩

theorem name_inj (h : Shape t) {i j k : Nat} (hi : (t.node i).alive = true) (hj : j ∈ (t.node i).children)
    (hk : k ∈ (t.node i).children) (hn : (t.node j).name = (t.node k).name) : j = k := by
  by_contra hne
  have hp : (t.node i).children.Pairwise fun a b => (t.node a).name ≠ (t.node b).name :=
    (h.sorted i hi).imp fun hlt => ne_of_compare_lt hlt
  have : Std.Symm fun a b => (t.node a).name ≠ (t.node b).name := ⟨fun _ _ hab => hab.symm⟩
  exact hp.forall hj hk hne hn

/-- The invariant at one node, decidable. -/
def At (t : DirTree) (i : Nat) : Prop :=
  ((t.node i).parent = none ↔ i = 0) ∧
    (∀ p ∈ (t.node i).parent, p < i ∧ (t.node i).depth = (t.node p).depth + 1 ∧
      ((t.node i).alive = true → (t.node p).alive = true ∧ i ∈ (t.node p).children)) ∧
    ((t.node i).alive = true →
      (∀ j ∈ (t.node i).children, (t.node j).alive = true ∧ (t.node j).parent = some i) ∧
        (t.node i).children.Pairwise fun a b => compare (t.node a).name (t.node b).name = .lt)

instance (t : DirTree) (i : Nat) : Decidable (At t i) := inferInstanceAs (Decidable (_ ∧ _))

/-- The invariant of a concrete tree, node by node. -/
theorem of_at (ha : (t.node 0).alive = true) (hd : (t.node 0).depth = 0) (h : ∀ i < t.nodes.length, At t i) : Shape t where
  root := ⟨ha, (h 0 (DirTree.lt_of_alive ha)).1.2 rfl⟩
  depth_root := hd
  down := fun i p hp => by
    by_cases hi : i < t.nodes.length
    · exact ((h i hi).2.1 p hp).1
    · rw [DirTree.parentOf, DirTree.node_of_le (Nat.le_of_not_lt hi)] at hp; cases hp
  hasParent := fun i hi hl => by
    cases hp : (t.node i).parent with
    | none => have := (h i hl).1.1 hp; omega
    | some p => exact ⟨p, rfl⟩
  depth := fun i p hp => by
    by_cases hi : i < t.nodes.length
    · exact ((h i hi).2.1 p hp).2.1
    · rw [DirTree.node_of_le (Nat.le_of_not_lt hi)] at hp; cases hp
  child := fun i hi => ((h i (DirTree.lt_of_alive hi)).2.2 hi).1
  listed := fun i p hi hp => ((h i (DirTree.lt_of_alive hi)).2.1 p hp).2.2 hi
  sorted := fun i hi => ((h i (DirTree.lt_of_alive hi)).2.2 hi).2

end Shape

end StorageHarvester
