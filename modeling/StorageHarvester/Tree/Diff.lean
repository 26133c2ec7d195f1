/-
The differences between two trees (`DirTree::diff`): pairs of directories on a stack, their
children merged by name, and each pair's own change less what its children explain. The pairs are
exactly the directories of one path, and the deltas reported at and below a pair add up to the
change of its `sub`.
-/
import StorageHarvester.Lib.MergeJoin
import StorageHarvester.Lib.Traversal
import StorageHarvester.Tree.Find
import StorageHarvester.Tree.Pruned

namespace StorageHarvester

open Forest MergeJoin

/-! ## The loop -/

/-- Where a change is reported: a directory of the newer tree, or one of the older tree that
vanished. -/
inductive Place where
  | older (node : Nat)
  | newer (node : Nat)
  deriving DecidableEq, Repr

/-- The locals of `diff`. The top of the stack is the head of the list. -/
structure Diffing where
  /-- What changed at the pair, apart from what moved below its tracked children. -/
  here : Delta
  stack : List (Nat × Nat)
  out : List (Place × Delta)

namespace Diffing

/-- A child of both. -/
def pair (self newer : DirTree) (d : Diffing) (a b : Nat) : Diffing :=
  let moved := Delta.between (self.node a).sub (newer.node b).sub
  { d with here := d.here.plus moved.negate, stack := (a, b) :: d.stack }

/-- A subtree that went. Its own inode is counted above it, in `direct`. -/
def less (self : DirTree) (d : Diffing) (a : Nat) : Diffing :=
  let gone := (Delta.ofTally (self.node a).sub).negate
  { d with here := d.here.plus gone.negate, out := d.out ++ [(.older a, gone)] }

/-- A subtree that came. -/
def greater (newer : DirTree) (d : Diffing) (b : Nat) : Diffing :=
  let came := Delta.ofTally (newer.node b).sub
  { d with here := d.here.plus came.negate, out := d.out ++ [(.newer b, came)] }

end Diffing

/-- The children of a pair, merged by name; each step takes one of either. -/
def diffKids (self newer : DirTree) : Nat → List Nat → List Nat → Diffing → Diffing
  | 0, _, _, d => d
  | _, [], [], d => d
  | fuel + 1, a :: olds, [], d => diffKids self newer fuel olds [] (d.less self a)
  | fuel + 1, [], b :: news, d => diffKids self newer fuel [] news (d.greater newer b)
  | fuel + 1, a :: olds, b :: news, d =>
    match compare (self.node a).name (newer.node b).name with
    | .eq => diffKids self newer fuel olds news (d.pair self newer a b)
    | .lt => diffKids self newer fuel olds (b :: news) (d.less self a)
    | .gt => diffKids self newer fuel (a :: olds) news (d.greater newer b)

/-- One pair popped. -/
def diffPair (self newer : DirTree) (old new : Nat) (stack : List (Nat × Nat)) (out : List (Place × Delta)) : Diffing :=
  let olds := (self.node old).children
  let news := (newer.node new).children
  let d := diffKids self newer (olds.length + news.length) olds news
    { here := Delta.between (self.node old).sub (newer.node new).sub, stack := stack, out := out }
  if d.here.isZero then d else { d with out := d.out ++ [(.newer new, d.here)] }

/-- The loop over the stack, for at most `fuel` pairs. -/
def diffLoop (self newer : DirTree) : Nat → List (Nat × Nat) → List (Place × Delta) → List (Place × Delta)
  | 0, _, out => out
  | _, [], out => out
  | fuel + 1, (old, new) :: stack, out =>
    let d := diffPair self newer old new stack out
    diffLoop self newer fuel d.stack d.out

namespace DirTree

/-- What `diff` reports, by directory. Every pair has a directory of `newer` of its own. -/
def diffChanges (self newer : DirTree) : List (Place × Delta) :=
  if self.nodes.isEmpty || newer.nodes.isEmpty then [] else diffLoop self newer newer.nodes.length [(0, 0)] []

/-- Directory-level differences from `self` (older) to `newer`. -/
def diff (self newer : DirTree) : List (Bytes × Delta) :=
  (self.diffChanges newer).map fun
    | (.older a, delta) => (self.displayPath a, delta)
    | (.newer b, delta) => (newer.displayPath b, delta)

end DirTree

/-! ## What is reported -/

/-- A delta by its components. -/
def Delta.of (f : Component → Int) : Delta := ⟨f .files, f .dirs, f .symlinks, f .blocks, f .apparent⟩

@[simp] theorem Delta.get_of (f : Component → Int) (c : Component) : (Delta.of f).get c = f c := by cases c <;> rfl

theorem Delta.eq_of {d : Delta} {f : Component → Int} (h : ∀ c, d.get c = f c) : d = .of f :=
  Delta.ext_get fun c => by rw [h c, get_of]

namespace DirTree

/-- What `sub` holds beyond the children's `sub`. -/
def beyond (t : DirTree) (i : Nat) (c : Component) : Int := (t.node i).sub.get c - t.overChildren i fun n => n.sub.get c

/-- Totals that can be compared: each directory's `sub` is at least its children's, and below the
limit of a delta. -/
structure Summed (t : DirTree) : Prop where
  children : ∀ i, (t.node i).alive = true → ∀ c, t.overChildren i (fun n => n.sub.get c) ≤ (t.node i).sub.get c
  limit : ∀ i, (t.node i).alive = true → ∀ c, (t.node i).sub.get c < 2 ^ 63

end DirTree

/-- The children of `old` with no namesake among those of `new`. -/
def vanished (self newer : DirTree) (old new : Nat) : List Nat :=
  (self.node old).children.filter fun a => (newer.node new).children.all fun b =>
    decide ((self.node a).name ≠ (newer.node b).name)

/-- The children of `new` with no namesake among those of `old`. -/
def appeared (self newer : DirTree) (old new : Nat) : List Nat :=
  (newer.node new).children.filter fun b => (self.node old).children.all fun a =>
    decide ((self.node a).name ≠ (newer.node b).name)

/-- The change of what a pair holds beyond its children. -/
def changeHere (self newer : DirTree) (p : Nat × Nat) : Delta := .of fun c => newer.beyond p.2 c - self.beyond p.1 c

/-- What a pair reports: each subtree that vanished and each that appeared, and its own change if
there is one. -/
def pairReport (self newer : DirTree) (p : Nat × Nat) : List (Place × Delta) :=
  (vanished self newer p.1 p.2).map (fun a => (.older a, .of fun c => -((self.node a).sub.get c : Int))) ++
    ((appeared self newer p.1 p.2).map fun b => (.newer b, .of fun c => ((newer.node b).sub.get c : Int))) ++
    if (changeHere self newer p).isZero then [] else [(.newer p.2, changeHere self newer p)]

/-- The children of a pair that are on both sides. -/
def pairedKids (self newer : DirTree) (p : Nat × Nat) : List (Nat × Nat) :=
  let olds := (self.node p.1).children
  let news := (newer.node p.2).children
  (steps (fun a b => compare (self.node a).name (newer.node b).name) (olds.length + news.length) olds news).filterMap
    Joined.pair

section Pair

variable {self newer : DirTree}

theorem Delta.isZero_of {f : Component → Int} : (Delta.of f).isZero = true ↔ ∀ c, f c = 0 := by
  simp only [Delta.isZero_iff, Delta.get_of]

/-- What one step of the merge does. -/
def Diffing.join (self newer : DirTree) (d : Diffing) : Joined Nat Nat → Diffing
  | .left a => d.less self a
  | .right b => d.greater newer b
  | .both a b => d.pair self newer a b

theorem diffKids_eq (fuel : Nat) (olds news : List Nat) (d : Diffing) :
    diffKids self newer fuel olds news d =
      (steps (fun a b => compare (self.node a).name (newer.node b).name) fuel olds news).foldl (Diffing.join self newer) d := by
  fun_induction diffKids self newer fuel olds news d with
  | case1 | case2 => simp [steps]
  | case3 fuel d a olds ih => rw [ih]; rfl
  | case4 fuel d b news ih => rw [ih]; rfl
  | case5 fuel d a olds b news hc ih | case6 fuel d a olds b news hc ih | case7 fuel d a olds b news hc ih =>
    rw [ih, steps, hc]; rfl

/-- The totals of the left items of the steps. -/
def leftSum (f : Nat → Int) (l : List (Joined Nat Nat)) : Int :=
  ((l.filterMap Joined.onlyLeft).map f).sum + ((l.filterMap Joined.pair).map fun p => f p.1).sum

/-- The totals of the right items of the steps. -/
def rightSum (f : Nat → Int) (l : List (Joined Nat Nat)) : Int :=
  ((l.filterMap Joined.onlyRight).map f).sum + ((l.filterMap Joined.pair).map fun p => f p.2).sum

theorem leftSum_nonneg {f : Nat → Int} (hf : ∀ i, 0 ≤ f i) (l : List (Joined Nat Nat)) : 0 ≤ leftSum f l := by
  unfold leftSum
  refine Int.add_nonneg (List.sum_nonneg fun x hx => ?_) (List.sum_nonneg fun x hx => ?_) <;>
    · obtain ⟨i, -, rfl⟩ := List.mem_map.1 hx
      exact hf _

theorem rightSum_nonneg {f : Nat → Int} (hf : ∀ i, 0 ≤ f i) (l : List (Joined Nat Nat)) : 0 ≤ rightSum f l := by
  unfold rightSum
  refine Int.add_nonneg (List.sum_nonneg fun x hx => ?_) (List.sum_nonneg fun x hx => ?_) <;>
    · obtain ⟨i, -, rfl⟩ := List.mem_map.1 hx
      exact hf _

section Sums

variable (f : Nat → Int) (a b : Nat) (l : List (Joined Nat Nat))

theorem leftSum_left : leftSum f (.left a :: l) = f a + leftSum f l := by
  simp only [leftSum, List.filterMap_cons, Joined.onlyLeft, Joined.pair, List.map_cons, List.sum_cons]
  omega

theorem leftSum_right : leftSum f (.right b :: l) = leftSum f l := by
  simp only [leftSum, List.filterMap_cons, Joined.onlyLeft, Joined.pair]

theorem leftSum_both : leftSum f (.both a b :: l) = f a + leftSum f l := by
  simp only [leftSum, List.filterMap_cons, Joined.onlyLeft, Joined.pair, List.map_cons, List.sum_cons]
  omega

theorem rightSum_left : rightSum f (.left a :: l) = rightSum f l := by
  simp only [rightSum, List.filterMap_cons, Joined.onlyRight, Joined.pair]

theorem rightSum_right : rightSum f (.right b :: l) = f b + rightSum f l := by
  simp only [rightSum, List.filterMap_cons, Joined.onlyRight, Joined.pair, List.map_cons, List.sum_cons]
  omega

theorem rightSum_both : rightSum f (.both a b :: l) = f b + rightSum f l := by
  simp only [rightSum, List.filterMap_cons, Joined.onlyRight, Joined.pair, List.map_cons, List.sum_cons]
  omega

end Sums

/-- The pair's own change, exactly: what its children hold comes off both sides, and neither side
is ever negative or past the limit. -/
theorem here_foldl (c : Component) : ∀ (l : List (Joined Nat Nat)) (d : Diffing) (u v : Int), d.here.get c = v - u →
    leftSum (fun a => (self.node a).sub.get c) l ≤ u → u < 2 ^ 63 →
    rightSum (fun b => (newer.node b).sub.get c) l ≤ v → v < 2 ^ 63 →
    (l.foldl (Diffing.join self newer) d).here.get c =
      v - rightSum (fun b => (newer.node b).sub.get c) l - (u - leftSum (fun a => (self.node a).sub.get c) l)
  | [], d, u, v, h, _, _, _, _ => by
    rw [List.foldl_nil, h]
    simp [leftSum, rightSum]
  | s :: l, d, u, v, h, hu, hu', hv, hv' => by
    have hl := leftSum_nonneg (f := fun a => ((self.node a).sub.get c : Int)) (fun _ => Int.natCast_nonneg _) l
    have hr := rightSum_nonneg (f := fun b => ((newer.node b).sub.get c : Int)) (fun _ => Int.natCast_nonneg _) l
    rw [List.foldl_cons]
    -- what a step takes off is bounded by what is left on its side, so no delta is clamped
    cases s with
    | left a =>
      rw [leftSum_left] at hu ⊢
      rw [rightSum_left] at hv ⊢
      have hof : (Delta.ofTally (self.node a).sub).get c = (self.node a).sub.get c := Delta.get_ofTally (by omega)
      have hneg : (Delta.ofTally (self.node a).sub).negate.get c = -((self.node a).sub.get c : Int) := by
        rw [Delta.get_negate_eq (by omega) (by omega), hof]
      have hback : (Delta.ofTally (self.node a).sub).negate.negate.get c = (self.node a).sub.get c := by
        rw [Delta.get_negate_eq (by omega) (by omega), hneg]; omega
      have hhere : (d.less self a).here.get c = v - (u - (self.node a).sub.get c) := by
        show (d.here.plus _).get c = _
        rw [Delta.get_plus_eq (by omega) (by omega)]; omega
      rw [Diffing.join, here_foldl c l _ (u - (self.node a).sub.get c) v hhere (by omega) (by omega) hv hv']
      omega
    | right b =>
      rw [rightSum_right] at hv ⊢
      rw [leftSum_right] at hu ⊢
      have hof : (Delta.ofTally (newer.node b).sub).get c = (newer.node b).sub.get c := Delta.get_ofTally (by omega)
      have hneg : (Delta.ofTally (newer.node b).sub).negate.get c = -((newer.node b).sub.get c : Int) := by
        rw [Delta.get_negate_eq (by omega) (by omega), hof]
      have hhere : (d.greater newer b).here.get c = v - (newer.node b).sub.get c - u := by
        show (d.here.plus _).get c = _
        rw [Delta.get_plus_eq (by omega) (by omega)]; omega
      rw [Diffing.join, here_foldl c l _ u (v - (newer.node b).sub.get c) hhere hu hu' (by omega) (by omega)]
      omega
    | both a b =>
      rw [leftSum_both] at hu ⊢
      rw [rightSum_both] at hv ⊢
      have hmoved : (Delta.between (self.node a).sub (newer.node b).sub).get c =
          ((newer.node b).sub.get c : Int) - (self.node a).sub.get c := Delta.get_between_eq (by omega) (by omega)
      have hneg : (Delta.between (self.node a).sub (newer.node b).sub).negate.get c =
          (self.node a).sub.get c - ((newer.node b).sub.get c : Int) := by
        rw [Delta.get_negate_eq (by omega) (by omega), hmoved]; omega
      have hhere : (d.pair self newer a b).here.get c = v - (newer.node b).sub.get c - (u - (self.node a).sub.get c) := by
        show (d.here.plus _).get c = _
        rw [Delta.get_plus_eq (by omega) (by omega)]; omega
      rw [Diffing.join, here_foldl c l _ (u - (self.node a).sub.get c) (v - (newer.node b).sub.get c) hhere (by omega) (by omega)
        (by omega) (by omega)]
      omega

theorem stack_foldl : ∀ (l : List (Joined Nat Nat)) (d : Diffing),
    (l.foldl (Diffing.join self newer) d).stack = (l.filterMap Joined.pair).reverse ++ d.stack
  | [], _ => rfl
  | .left a :: l, d => by rw [List.foldl_cons, stack_foldl l]; rfl
  | .right b :: l, d => by rw [List.foldl_cons, stack_foldl l]; rfl
  | .both a b :: l, d => by
    rw [List.foldl_cons, stack_foldl l]
    show _ ++ (a, b) :: d.stack = ((a, b) :: l.filterMap Joined.pair).reverse ++ _
    rw [List.reverse_cons, List.append_assoc]; rfl

/-- What the steps report, in any order. -/
theorem out_foldl : ∀ (l : List (Joined Nat Nat)) (d : Diffing),
    (l.foldl (Diffing.join self newer) d).out.Perm (d.out ++
      ((l.filterMap Joined.onlyLeft).map (fun a => (.older a, (Delta.ofTally (self.node a).sub).negate)) ++
        (l.filterMap Joined.onlyRight).map fun b => (.newer b, Delta.ofTally (newer.node b).sub)))
  | [], d => by simp
  | .left a :: l, d => by
    rw [List.foldl_cons]
    refine (out_foldl l _).trans ?_
    simp only [Diffing.join, Diffing.less, List.filterMap_cons, Joined.onlyLeft, Joined.onlyRight, List.map_cons]
    simp [List.append_assoc]
  | .right b :: l, d => by
    rw [List.foldl_cons]
    refine (out_foldl l _).trans ?_
    simp only [Diffing.join, Diffing.greater, List.filterMap_cons, Joined.onlyLeft, Joined.onlyRight, List.map_cons,
      List.append_assoc]
    rw [List.singleton_append]
    exact List.Perm.append_left _ List.perm_middle.symm
  | .both a b :: l, d => by
    rw [List.foldl_cons]
    exact out_foldl l _

/-! ## One pair -/

/-- Two directories of one path. -/
structure Paired (older newer : DirTree) (p : Nat × Nat) : Prop where
  old : (older.node p.1).alive = true
  new : (newer.node p.2).alive = true
  path : older.components p.1 = newer.components p.2

theorem paired_root (ho : Shape self) (hn : Shape newer) : Paired self newer (0, 0) :=
  ⟨ho.root.1, hn.root.1, by rw [Shape.components_zero, Shape.components_zero]⟩

theorem mem_pairedKids (ho : Shape self) (hn : Shape newer) {p : Nat × Nat} (h : Paired self newer p) {a b : Nat} :
    (a, b) ∈ pairedKids self newer p ↔
      a ∈ (self.node p.1).children ∧ b ∈ (newer.node p.2).children ∧ (self.node a).name = (newer.node b).name :=
  mem_pair (f := fun a => (self.node a).name) (g := fun b => (newer.node b).name) (fun _ _ => rfl) _ _ _ (Nat.le_refl _)
    (ho.sorted _ h.old) (hn.sorted _ h.new)

/-- One pair puts its paired children on the stack and reports what it should. -/
theorem diffPair_spec (ho : Shape self) (hn : Shape newer) (hso : self.Summed) (hsn : newer.Summed) {p : Nat × Nat}
    (h : Paired self newer p) (stack : List (Nat × Nat)) (out : List (Place × Delta)) :
    (diffPair self newer p.1 p.2 stack out).stack = (pairedKids self newer p).reverse ++ stack ∧
      (diffPair self newer p.1 p.2 stack out).out.Perm (out ++ pairReport self newer p) := by
  have hand := ho.sorted p.1 h.old
  have hanew := hn.sorted p.2 h.new
  let l := steps (fun a b => compare (self.node a).name (newer.node b).name)
    ((self.node p.1).children.length + (newer.node p.2).children.length) (self.node p.1).children (newer.node p.2).children
  let d : Diffing := { here := Delta.between (self.node p.1).sub (newer.node p.2).sub, stack := stack, out := out }
  have hpair : diffPair self newer p.1 p.2 stack out =
      if (l.foldl (Diffing.join self newer) d).here.isZero then l.foldl (Diffing.join self newer) d
      else { l.foldl (Diffing.join self newer) d with
        out := (l.foldl (Diffing.join self newer) d).out ++ [(.newer p.2, (l.foldl (Diffing.join self newer) d).here)] } := by
    unfold diffPair
    dsimp only
    rw [diffKids_eq]
  -- the pair's own change, exactly
  have hhere : (l.foldl (Diffing.join self newer) d).here = changeHere self newer p := by
    refine Delta.eq_of fun c => ?_
    have hleft : leftSum (fun a => ((self.node a).sub.get c : Int)) l = self.overChildren p.1 fun n => n.sub.get c :=
      (sum_left _ _ _ _ (Nat.le_refl _)).symm
    have hright : rightSum (fun b => ((newer.node b).sub.get c : Int)) l = newer.overChildren p.2 fun n => n.sub.get c :=
      (sum_right _ _ _ _ (Nat.le_refl _)).symm
    have hold := hso.limit p.1 h.old c
    have hnew := hsn.limit p.2 h.new c
    have hbetween : d.here.get c = ((newer.node p.2).sub.get c : Int) - (self.node p.1).sub.get c :=
      Delta.get_between_eq hold hnew
    rw [here_foldl c l d _ _ hbetween (hleft ▸ hso.children p.1 h.old c) (by omega) (hright ▸ hsn.children p.2 h.new c) (by omega),
      hleft, hright]
    rfl
  have hout : (l.foldl (Diffing.join self newer) d).out.Perm (out ++
      ((vanished self newer p.1 p.2).map (fun a => (.older a, .of fun c => -((self.node a).sub.get c : Int))) ++
        (appeared self newer p.1 p.2).map fun b => (.newer b, .of fun c => ((newer.node b).sub.get c : Int)))) := by
    refine (out_foldl l d).trans (List.Perm.of_eq ?_)
    have hlimit : ∀ a ∈ vanished self newer p.1 p.2, ∀ c, (self.node a).sub.get c < 2 ^ 63 := fun a ha =>
      hso.limit a (ho.child _ h.old a (List.mem_filter.1 ha).1).1
    have hlimit' : ∀ b ∈ appeared self newer p.1 p.2, ∀ c, (newer.node b).sub.get c < 2 ^ 63 := fun b hb =>
      hsn.limit b (hn.child _ h.new b (List.mem_filter.1 hb).1).1
    rw [onlyLeft_eq (f := fun a => (self.node a).name) (g := fun b => (newer.node b).name) (fun _ _ => rfl) _ _ _
        (Nat.le_refl _) hand hanew,
      onlyRight_eq (f := fun a => (self.node a).name) (g := fun b => (newer.node b).name) (fun _ _ => rfl) _ _ _
        (Nat.le_refl _) hand hanew]
    refine congrArg (out ++ ·) (congrArg₂ (· ++ ·) (List.map_congr_left fun a ha => ?_) (List.map_congr_left fun b hb => ?_))
    · refine congrArg (Prod.mk _) (Delta.eq_of fun c => ?_)
      have := hlimit a ha c
      have hof : (Delta.ofTally (self.node a).sub).get c = (self.node a).sub.get c := Delta.get_ofTally this
      rw [Delta.get_negate_eq (by omega) (by omega), hof]
    · exact congrArg (Prod.mk _) (Delta.eq_of fun c => Delta.get_ofTally (hlimit' b hb c))
  rw [hpair, hhere]
  unfold pairReport
  split
  · exact ⟨stack_foldl l d, by simpa using hout⟩
  · refine ⟨stack_foldl l d, ?_⟩
    have := hout.append_right [(Place.newer p.2, changeHere self newer p)]
    simpa [List.append_assoc] using this

/-! ## Paths of nodes -/

theorem components_inj {t : DirTree} (h : Shape t) {i j : Nat} (hi : (t.node i).alive = true) (hj : (t.node j).alive = true)
    (he : t.components i = t.components j) : i = j := by
  have hfold := h.foldlM_components hi
  rw [he, h.foldlM_components hj] at hfold
  exact (Option.some.inj hfold).symm

/-- What is above a directory has the first names of its path. -/
theorem components_of_above {t : DirTree} (h : Shape t) {a i : Nat} (ha : Above t.parentOf a i) :
    t.components a <+: t.components i := by
  induction ha with
  | refl => exact List.prefix_rfl
  | step hp _ ih =>
    rw [h.components_of_parent hp]
    exact ih.trans (List.prefix_append _ _)

/-- Any first names of a directory's path are the path of a directory above it. -/
theorem exists_above {t : DirTree} (h : Shape t) {path : List Bytes} {i : Nat} (hi : (t.node i).alive = true)
    (hp : path <+: t.components i) : ∃ a, (t.node a).alive = true ∧ t.components a = path ∧ Above t.parentOf a i := by
  induction i using Nat.strong_induction_on with
  | _ i ih =>
    by_cases he : path = t.components i
    · exact ⟨i, hi, he.symm, .refl⟩
    · rcases Nat.eq_zero_or_pos i with rfl | hpos
      · rw [Shape.components_zero] at hp he
        exact absurd (List.prefix_nil.1 hp) he
      · obtain ⟨q, hq⟩ := h.hasParent i hpos (DirTree.lt_of_alive hi)
        have hcomp := h.components_of_parent hq
        have hup : path <+: t.components q := by
          rw [hcomp] at hp he
          rcases List.prefix_concat_iff.1 hp with hp | hp
          · exact absurd hp he
          · exact hp
        obtain ⟨a, ha, hc, hab⟩ := ih q (h.down i q hq) (h.listed i q hi hq).1 hup
        exact ⟨a, ha, hc, .step hq hab⟩

/-- The first names of a path are what is above. -/
theorem components_prefix_iff {t : DirTree} (h : Shape t) {a i : Nat} (ha : (t.node a).alive = true)
    (hi : (t.node i).alive = true) : t.components a <+: t.components i ↔ Above t.parentOf a i := by
  constructor
  · intro hp
    obtain ⟨b, hb, hc, hab⟩ := exists_above h hi hp
    rwa [components_inj h hb ha hc] at hab
  · exact components_of_above h

/-! ## All pairs -/

/-- The children of a pair of one path are pairs of one path, further down. -/
theorem ranked (ho : Shape self) (hn : Shape newer) :
    Traversal.Ranked (pairedKids self newer) (Paired self newer) fun p => newer.nodes.length - p.2 where
  kid := by
    rintro p hp ⟨a, b⟩ hq
    obtain ⟨ha, hb, hname⟩ := (mem_pairedKids ho hn hp).1 hq
    obtain ⟨haa, hap⟩ := ho.child _ hp.old a ha
    obtain ⟨hba, hbp⟩ := hn.child _ hp.new b hb
    have hlt := hn.lt_of_child hp.new hb
    have hbl := DirTree.lt_of_alive hba
    refine ⟨⟨haa, hba, ?_⟩, by show newer.nodes.length - b < newer.nodes.length - p.2; omega⟩
    rw [ho.components_of_parent hap, hn.components_of_parent hbp, hp.path, hname]
  pos := fun p hp => Nat.sub_pos_of_lt (DirTree.lt_of_alive hp.new)

/-- The pairs below a pair, itself first. -/
def pairsBelow (self newer : DirTree) (p : Nat × Nat) : List (Nat × Nat) :=
  Traversal.preorder (pairedKids self newer) newer.nodes.length p

theorem diffLoop_spec (ho : Shape self) (hn : Shape newer) (hso : self.Summed) (hsn : newer.Summed) : ∀ (fuel : Nat)
    (stack : List (Nat × Nat)) (out : List (Place × Delta)), (∀ p ∈ stack, Paired self newer p) →
    (diffLoop self newer fuel stack out).Perm
      (out ++ (Traversal.popped (pairedKids self newer) fuel stack).flatMap (pairReport self newer))
  | 0, stack, out, _ => by simp [diffLoop, Traversal.popped]
  | fuel + 1, [], out, _ => by simp [diffLoop, Traversal.popped]
  | fuel + 1, (old, new) :: stack, out, hs => by
    have hp := hs (old, new) (List.mem_cons_self ..)
    obtain ⟨hstack, hout⟩ := diffPair_spec ho hn hso hsn hp stack out
    have hs' : ∀ q ∈ (pairedKids self newer (old, new)).reverse ++ stack, Paired self newer q := by
      intro q hq
      rcases List.mem_append.1 hq with hq | hq
      · exact ((ranked ho hn).kid _ hp q (List.mem_reverse.1 hq)).1
      · exact hs q (List.mem_cons_of_mem _ hq)
    have ih := diffLoop_spec ho hn hso hsn fuel _ (diffPair self newer old new stack out).out hs'
    show (diffLoop self newer fuel (diffPair self newer old new stack out).stack _).Perm _
    rw [hstack]
    refine ih.trans ((hout.append_right _).trans (List.Perm.of_eq ?_))
    rw [Traversal.popped, List.flatMap_cons, List.append_assoc]

theorem mem_pairsBelow_self (ho : Shape self) (hn : Shape newer) {p : Nat × Nat} (h : Paired self newer p) :
    p ∈ pairsBelow self newer p := by
  unfold pairsBelow
  rw [(ranked ho hn).preorder_step h (Nat.sub_le _ _)]
  exact List.mem_cons_self ..

/-- Two directories of one path are children of two directories of one path. -/
theorem Paired.parent (ho : Shape self) (hn : Shape newer) {a b j : Nat} (h : Paired self newer (a, b))
    (hj : (newer.node b).parent = some j) : ∃ i, Paired self newer (i, j) ∧ (a, b) ∈ pairedKids self newer (i, j) := by
  have hpath : self.components a = newer.components j ++ [(newer.node b).name] :=
    h.path.trans (hn.components_of_parent hj)
  have hpos : 0 < a := Nat.pos_of_ne_zero fun h0 => by
    rw [h0, Shape.components_zero] at hpath
    exact List.cons_ne_nil _ _ (List.append_eq_nil_iff.1 hpath.symm).2
  obtain ⟨i, hi⟩ := ho.hasParent a hpos (DirTree.lt_of_alive h.old)
  obtain ⟨hia, hai⟩ := ho.listed a i h.old hi
  obtain ⟨hja, hbj⟩ := hn.listed b j h.new hj
  rw [ho.components_of_parent hi] at hpath
  obtain ⟨hup, hname⟩ := List.append_inj' hpath rfl
  have hij : Paired self newer (i, j) := ⟨hia, hja, hup⟩
  exact ⟨i, hij, (mem_pairedKids ho hn hij).2 ⟨hai, hbj, List.singleton_inj.1 hname⟩⟩

/-- The pairs below a pair are those of one path whose newer directory is below its newer one. -/
theorem mem_pairsBelow (ho : Shape self) (hn : Shape newer) {p q : Nat × Nat} (h : Paired self newer p) :
    q ∈ pairsBelow self newer p ↔ Paired self newer q ∧ Above newer.parentOf p.2 q.2 := by
  constructor
  · intro hq
    refine (ranked ho hn).of_mem_preorder (Q := fun q => Above newer.parentOf p.2 q.2) (fun x hx hxp y hy => ?_) h .refl hq
    obtain ⟨a, b⟩ := y
    have hb := ((mem_pairedKids ho hn hx).1 hy).2.1
    exact .step (hn.child _ hx.new b hb).2 hxp
  · obtain ⟨a, b⟩ := q
    rintro ⟨hq, hab⟩
    simp only at hab
    -- up from `b` to the pair, one directory at a time on both sides
    induction hab generalizing a with
    | refl =>
      obtain rfl : a = p.1 := components_inj ho hq.old h.old (hq.path.trans h.path.symm)
      exact mem_pairsBelow_self ho hn h
    | step hp _ ih =>
      obtain ⟨i, hij, hkid⟩ := hq.parent ho hn hp
      exact (ranked ho hn).kid_mem_preorder h (Nat.sub_le _ _) (ih i hij) hkid

/-- All pairs are below the roots. -/
theorem mem_allPairs (ho : Shape self) (hn : Shape newer) {q : Nat × Nat} :
    q ∈ pairsBelow self newer (0, 0) ↔ Paired self newer q := by
  rw [mem_pairsBelow ho hn (paired_root ho hn)]
  exact ⟨fun h => h.1, fun h => ⟨h, hn.root_above (DirTree.lt_of_alive h.new)⟩⟩

theorem nodup_pairsBelow (ho : Shape self) (hn : Shape newer) {p : Nat × Nat} (h : Paired self newer p) :
    (pairsBelow self newer p).Nodup := by
  refine (ranked ho hn).nodup_preorder (fun x hx => ?_) (fun x hx y hy z hz depth w hw hw' => ?_) h
  · have hnd : ((pairedKids self newer x).map Prod.fst).Nodup := (pair_sublist _ _ _).nodup (ho.nodup hx.old)
    exact hnd.of_map
  · -- two children with a common pair below are both on its newer side's way up
    obtain ⟨a, b⟩ := y
    obtain ⟨a', b'⟩ := z
    obtain ⟨-, hb, -⟩ := (mem_pairedKids ho hn hx).1 hy
    obtain ⟨-, hb', -⟩ := (mem_pairedKids ho hn hx).1 hz
    have hpy := ((ranked ho hn).kid x hx _ hy).1
    have hpz := ((ranked ho hn).kid x hx _ hz).1
    have habove : ∀ {k : Nat × Nat}, Paired self newer k → w ∈ Traversal.preorder (pairedKids self newer) depth k →
        Above newer.parentOf k.2 w.2 := by
      intro k hk hw
      refine ((ranked ho hn).of_mem_preorder (Q := fun q => Above newer.parentOf k.2 q.2) (fun u hu huk v hv => ?_) hk .refl hw).2
      obtain ⟨i, j⟩ := v
      exact .step (hn.child _ hu.new j ((mem_pairedKids ho hn hu).1 hv).2.1).2 huk
    have hbb : b = b' := sibling_unique hn.down (hn.child _ hx.new b hb).2 (hn.child _ hx.new b' hb').2
      (habove hpy hw) (habove hpz hw')
    subst hbb
    exact Prod.ext (components_inj ho hpy.old hpz.old (hpy.path.trans hpz.path.symm)) rfl

/-- There are no more pairs than directories in the newer tree. -/
theorem length_pairsBelow (ho : Shape self) (hn : Shape newer) {p : Nat × Nat} (h : Paired self newer p) :
    (pairsBelow self newer p).length ≤ newer.nodes.length := by
  have hpaired : ∀ q ∈ pairsBelow self newer p, Paired self newer q := fun q hq => ((mem_pairsBelow ho hn h).1 hq).1
  have hnd : ((pairsBelow self newer p).map Prod.snd).Nodup := by
    refine (nodup_pairsBelow ho hn h).map_on fun x hx y hy hxy => Prod.ext ?_ hxy
    have hx := hpaired x hx
    have hy := hpaired y hy
    exact components_inj ho hx.old hy.old (hx.path.trans ((congrArg newer.components hxy).trans hy.path.symm))
  have hsub : ((pairsBelow self newer p).map Prod.snd).toFinset ⊆ Finset.range newer.nodes.length := by
    intro b hb
    obtain ⟨q, hq, rfl⟩ := List.mem_map.1 (List.mem_toFinset.1 hb)
    exact Finset.mem_range.2 (DirTree.lt_of_alive (hpaired q hq).new)
  have := Finset.card_le_card hsub
  rwa [List.toFinset_card_of_nodup hnd, Finset.card_range, List.length_map] at this

/-- `diff` reports what every pair of one path should, and nothing else. -/
theorem diffChanges_perm (ho : Shape self) (hn : Shape newer) (hso : self.Summed) (hsn : newer.Summed) :
    (self.diffChanges newer).Perm ((pairsBelow self newer (0, 0)).flatMap (pairReport self newer)) := by
  have hroot := paired_root ho hn
  have hne : ∀ {t : DirTree}, Shape t → t.nodes.isEmpty = false := fun {t} h => by
    have := h.pos
    cases hl : t.nodes with
    | nil => rw [hl] at this; cases this
    | cons => rfl
  unfold DirTree.diffChanges
  rw [hne ho, hne hn, Bool.or_self, if_neg (by decide)]
  have hloop := diffLoop_spec ho hn hso hsn newer.nodes.length [(0, 0)] [] (fun p hp => by
    rw [List.mem_singleton] at hp; rw [hp]; exact hroot)
  have hpopped : (Traversal.popped (pairedKids self newer) newer.nodes.length [(0, 0)]).Perm (pairsBelow self newer (0, 0)) := by
    have := (ranked ho hn).popped_perm newer.nodes.length [(0, 0)] (fun p hp => by
        rw [List.mem_singleton] at hp; rw [hp]; exact ⟨hroot, Nat.sub_le _ _⟩)
      (by simpa [pairsBelow] using length_pairsBelow ho hn hroot)
    simpa [pairsBelow] using this
  rw [List.nil_append] at hloop
  exact hloop.trans (hpopped.flatMap_right _)

/-! ## What is reported at and below a path -/

/-- The names down to where a change is reported. -/
def Place.path (self newer : DirTree) : Place → List Bytes
  | .older a => self.components a
  | .newer b => newer.components b

/-- The changes reported at a path and below it. -/
def atOrBelow (self newer : DirTree) (path : List Bytes) (changes : List (Place × Delta)) : List (Place × Delta) :=
  changes.filter fun e => path.isPrefixOf (e.1.path self newer)

theorem mem_pairReport {p : Nat × Nat} {e : Place × Delta} (he : e ∈ pairReport self newer p) :
    (∃ a ∈ vanished self newer p.1 p.2, e = (.older a, .of fun c => -((self.node a).sub.get c : Int))) ∨
      (∃ b ∈ appeared self newer p.1 p.2, e = (.newer b, .of fun c => ((newer.node b).sub.get c : Int))) ∨
        e = (.newer p.2, changeHere self newer p) := by
  unfold pairReport at he
  rcases List.mem_append.1 he with he | he
  · rcases List.mem_append.1 he with he | he
    · obtain ⟨a, ha, rfl⟩ := List.mem_map.1 he
      exact .inl ⟨a, ha, rfl⟩
    · obtain ⟨b, hb, rfl⟩ := List.mem_map.1 he
      exact .inr (.inl ⟨b, hb, rfl⟩)
  · split at he
    · cases he
    · exact .inr (.inr (List.mem_singleton.1 he))

theorem mem_vanished {p : Nat × Nat} {a : Nat} : a ∈ vanished self newer p.1 p.2 ↔
    a ∈ (self.node p.1).children ∧ ∀ b ∈ (newer.node p.2).children, (self.node a).name ≠ (newer.node b).name := by
  simp [vanished]

theorem mem_appeared {p : Nat × Nat} {b : Nat} : b ∈ appeared self newer p.1 p.2 ↔
    b ∈ (newer.node p.2).children ∧ ∀ a ∈ (self.node p.1).children, (self.node a).name ≠ (newer.node b).name := by
  simp [appeared]

/-- Nothing in the newer tree has the path of a subtree that vanished. -/
theorem absent_of_vanished (ho : Shape self) (hn : Shape newer) {p : Nat × Nat} (h : Paired self newer p) {a : Nat}
    (ha : a ∈ vanished self newer p.1 p.2) (b : Nat) : ¬Paired self newer (a, b) := by
  intro hab
  obtain ⟨ham, hnone⟩ := mem_vanished.1 ha
  obtain ⟨-, hap⟩ := ho.child _ h.old a ham
  have hpath := hab.path
  have hpos : 0 < b := Nat.pos_of_ne_zero fun h0 => by
    rw [h0, Shape.components_zero, ho.components_of_parent hap] at hpath
    exact List.cons_ne_nil _ _ (List.append_eq_nil_iff.1 hpath).2
  obtain ⟨j, hj⟩ := hn.hasParent b hpos (DirTree.lt_of_alive hab.new)
  obtain ⟨hja, hbj⟩ := hn.listed b j hab.new hj
  rw [ho.components_of_parent hap, hn.components_of_parent hj] at hpath
  obtain ⟨hup, hname⟩ := List.append_inj' hpath rfl
  obtain rfl : j = p.2 := components_inj hn hja h.new (hup.symm.trans h.path)
  exact hnone b hbj (List.singleton_inj.1 hname)

/-- Nothing in the older tree has the path of a subtree that appeared. -/
theorem absent_of_appeared (ho : Shape self) (hn : Shape newer) {p : Nat × Nat} (h : Paired self newer p) {b : Nat}
    (hb : b ∈ appeared self newer p.1 p.2) (a : Nat) : ¬Paired self newer (a, b) := by
  intro hab
  obtain ⟨hbm, hnone⟩ := mem_appeared.1 hb
  obtain ⟨-, hbp⟩ := hn.child _ h.new b hbm
  obtain ⟨i, hij, hkid⟩ := hab.parent ho hn hbp
  obtain ⟨hai, -, hname⟩ := (mem_pairedKids ho hn hij).1 hkid
  have hip : i = p.1 := components_inj ho hij.old h.old (hij.path.trans h.path.symm)
  rw [hip] at hai
  exact hnone a hai hname

/-- A pair reports everything at or below a path of both trees, or nothing. -/
theorem atOrBelow_pairReport (ho : Shape self) (hn : Shape newer) {p q : Nat × Nat} (hp : Paired self newer p)
    (hq : Paired self newer q) [Decidable (Above newer.parentOf p.2 q.2)] :
    atOrBelow self newer (newer.components p.2) (pairReport self newer q) =
      if Above newer.parentOf p.2 q.2 then pairReport self newer q else [] := by
  have hbelow : ∀ e ∈ pairReport self newer q,
      newer.components p.2 <+: e.1.path self newer ↔ Above newer.parentOf p.2 q.2 := by
    intro e he
    rcases mem_pairReport he with ⟨a, ha, rfl⟩ | ⟨b, hb, rfl⟩ | rfl
    · -- the path of a subtree that went is its parent's and a name nothing has in the newer tree
      obtain ⟨haa, hap⟩ := ho.child _ hq.old a (mem_vanished.1 ha).1
      have hne : newer.components p.2 ≠ self.components a := fun he =>
        absent_of_vanished ho hn hq ha p.2 ⟨haa, hp.new, he.symm⟩
      show newer.components p.2 <+: self.components a ↔ _
      rw [ho.components_of_parent hap] at hne ⊢
      rw [List.prefix_concat_iff, or_iff_right hne, hq.path, components_prefix_iff hn hp.new hq.new]
    · obtain ⟨hba, hbp⟩ := hn.child _ hq.new b (mem_appeared.1 hb).1
      have hne : p.2 ≠ b := fun he => absent_of_appeared ho hn hq hb p.1 (he ▸ hp)
      show newer.components p.2 <+: newer.components b ↔ _
      rw [components_prefix_iff hn hp.new hba, above_of_parent hbp, or_iff_right hne]
    · exact components_prefix_iff hn hp.new hq.new
  unfold atOrBelow
  split
  · rename_i h
    exact List.filter_eq_self.2 fun e he => List.isPrefixOf_iff_prefix.2 ((hbelow e he).2 h)
  · rename_i h
    exact List.filter_eq_nil_iff.2 fun e he hpre => h ((hbelow e he).1 (List.isPrefixOf_iff_prefix.1 hpre))

/-- What is reported at a path of both trees, and below it, is what its pairs report. -/
theorem atOrBelow_diffChanges (ho : Shape self) (hn : Shape newer) (hso : self.Summed) (hsn : newer.Summed) {p : Nat × Nat}
    (h : Paired self newer p) : (atOrBelow self newer (newer.components p.2) (self.diffChanges newer)).Perm
      ((pairsBelow self newer p).flatMap (pairReport self newer)) := by
  classical
  have hroot := paired_root ho hn
  refine ((diffChanges_perm ho hn hso hsn).filter _).trans (List.Perm.of_eq ?_)
  rw [List.filter_flatMap]
  have hstep : ∀ q ∈ pairsBelow self newer (0, 0),
      (pairReport self newer q).filter (fun e => (newer.components p.2).isPrefixOf (e.1.path self newer)) =
        if Above newer.parentOf p.2 q.2 then pairReport self newer q else [] := fun q hq =>
    atOrBelow_pairReport ho hn h ((mem_allPairs ho hn).1 hq)
  rw [List.flatMap_congr hstep]
  -- the pairs below `p` are one stretch of all pairs
  obtain ⟨l, l', hl⟩ : ∃ l l', pairsBelow self newer (0, 0) = l ++ pairsBelow self newer p ++ l' :=
    (ranked ho hn).preorder_split hroot (Nat.sub_le _ _) ((mem_allPairs ho hn).2 h)
  have hnd := nodup_pairsBelow ho hn hroot
  have hall : ∀ q ∈ pairsBelow self newer (0, 0), Above newer.parentOf p.2 q.2 ↔ q ∈ pairsBelow self newer p := fun q hq => by
    rw [mem_pairsBelow ho hn h, and_iff_right ((mem_allPairs ho hn).1 hq)]
  rw [hl] at hnd hall ⊢
  have hout : ∀ q, q ∈ l ∨ q ∈ l' → ¬Above newer.parentOf p.2 q.2 := by
    intro q hq ha
    rw [List.append_assoc, List.nodup_append] at hnd
    rcases hq with hq | hq
    · have hin := (hall q (List.mem_append_left _ (List.mem_append_left _ hq))).1 ha
      exact hnd.2.2 q hq q (List.mem_append_left _ hin) rfl
    · have hin := (hall q (List.mem_append_right _ hq)).1 ha
      exact (List.nodup_append.1 hnd.2.1).2.2 q hin q hq rfl
  have hl0 : l.flatMap (fun q => if Above newer.parentOf p.2 q.2 then pairReport self newer q else []) = [] :=
    List.flatMap_eq_nil_iff.2 fun q hq => if_neg (hout q (.inl hq))
  have hl0' : l'.flatMap (fun q => if Above newer.parentOf p.2 q.2 then pairReport self newer q else []) = [] :=
    List.flatMap_eq_nil_iff.2 fun q hq => if_neg (hout q (.inr hq))
  rw [List.flatMap_append, List.flatMap_append, hl0, hl0', List.nil_append, List.append_nil]
  exact List.flatMap_congr fun q hq => if_pos ((mem_pairsBelow ho hn h).1 hq).2

theorem sum_map_neg {α : Type*} (f : α → Int) (l : List α) : (l.map fun x => -f x).sum = -(l.map f).sum := by
  induction l with
  | nil => rfl
  | cons x l ih => simp only [List.map_cons, List.sum_cons, ih]; omega

theorem sum_map_sub {α : Type*} (f g : α → Int) (l : List α) :
    (l.map fun x => f x - g x).sum = (l.map f).sum - (l.map g).sum := by
  simp only [Int.sub_eq_add_neg, List.sum_map_add, sum_map_neg]

/-- What a pair's reports add up to: its own change of `sub`, less that of its paired children. -/
theorem sum_pairReport (ho : Shape self) (hn : Shape newer) {p : Nat × Nat} (h : Paired self newer p) (c : Component) :
    ((pairReport self newer p).map fun e => e.2.get c).sum =
      ((newer.node p.2).sub.get c - (self.node p.1).sub.get c : Int) -
        ((pairedKids self newer p).map fun q => ((newer.node q.2).sub.get c - (self.node q.1).sub.get c : Int)).sum := by
  have hold := @sum_left _ _ (fun a b => compare (self.node a).name (newer.node b).name)
    (fun a => ((self.node a).sub.get c : Int)) _ (self.node p.1).children (newer.node p.2).children (Nat.le_refl _)
  have hnew := @sum_right _ _ (fun a b => compare (self.node a).name (newer.node b).name)
    (fun b => ((newer.node b).sub.get c : Int)) _ (self.node p.1).children (newer.node p.2).children (Nat.le_refl _)
  rw [onlyLeft_eq (f := fun a => (self.node a).name) (g := fun b => (newer.node b).name) (fun _ _ => rfl) _ _ _
    (Nat.le_refl _) (ho.sorted _ h.old) (hn.sorted _ h.new)] at hold
  rw [onlyRight_eq (f := fun a => (self.node a).name) (g := fun b => (newer.node b).name) (fun _ _ => rfl) _ _ _
    (Nat.le_refl _) (ho.sorted _ h.old) (hn.sorted _ h.new)] at hnew
  have hold : self.overChildren p.1 (fun n => n.sub.get c) =
      ((vanished self newer p.1 p.2).map fun a => ((self.node a).sub.get c : Int)).sum +
        ((pairedKids self newer p).map fun q => ((self.node q.1).sub.get c : Int)).sum := hold
  have hnew : newer.overChildren p.2 (fun n => n.sub.get c) =
      ((appeared self newer p.1 p.2).map fun b => ((newer.node b).sub.get c : Int)).sum +
        ((pairedKids self newer p).map fun q => ((newer.node q.2).sub.get c : Int)).sum := hnew
  have hhere : ((if (changeHere self newer p).isZero then []
      else [((.newer p.2, changeHere self newer p) : Place × Delta)]).map fun e => e.2.get c).sum =
      newer.beyond p.2 c - self.beyond p.1 c := by
    split
    · rename_i hz
      exact (Delta.isZero_of.1 hz c).symm
    · simp [changeHere]
  unfold pairReport
  rw [List.map_append, List.map_append, List.sum_append, List.sum_append, hhere, List.map_map, List.map_map,
    sum_map_sub]
  have hneg : ((vanished self newer p.1 p.2).map ((fun e : Place × Delta => e.2.get c) ∘ fun a =>
      (.older a, .of fun c => -((self.node a).sub.get c : Int)))).sum =
      -((vanished self newer p.1 p.2).map fun a => ((self.node a).sub.get c : Int)).sum := by
    rw [← sum_map_neg]
    refine congrArg List.sum (List.map_congr_left fun a _ => ?_)
    simp
  have hpos : ((appeared self newer p.1 p.2).map ((fun e : Place × Delta => e.2.get c) ∘ fun b =>
      (.newer b, .of fun c => ((newer.node b).sub.get c : Int)))).sum =
      ((appeared self newer p.1 p.2).map fun b => ((newer.node b).sub.get c : Int)).sum := by
    refine congrArg List.sum (List.map_congr_left fun b _ => ?_)
    simp
  rw [hneg, hpos]
  unfold DirTree.beyond
  rw [hold, hnew]
  omega

/-- At a directory of both trees and below it, the reports add up to the change of its `sub`. -/
theorem sum_atOrBelow (ho : Shape self) (hn : Shape newer) (hso : self.Summed) (hsn : newer.Summed) {p : Nat × Nat}
    (h : Paired self newer p) (c : Component) :
    ((atOrBelow self newer (newer.components p.2) (self.diffChanges newer)).map fun e => e.2.get c).sum =
      ((newer.node p.2).sub.get c - (self.node p.1).sub.get c : Int) := by
  rw [((atOrBelow_diffChanges ho hn hso hsn h).map _).sum_eq, List.map_flatMap, List.flatMap_def, List.sum_flatten,
    List.map_map]
  exact (ranked ho hn).sum_preorder (f := fun q => ((pairReport self newer q).map fun e => e.2.get c).sum)
    (fun q hq => sum_pairReport ho hn hq c) h (Nat.sub_le _ _)

theorem filter_eq_singleton {l : List Nat} (hl : l.Nodup) {a : Nat} (ha : a ∈ l) {p : Nat → Bool}
    (hp : ∀ i ∈ l, p i = true ↔ i = a) : l.filter p = [a] := by
  rw [List.filter_congr (q := fun i => i == a) fun i hi => by rw [Bool.eq_iff_iff, hp i hi, beq_iff_eq], List.filter_beq,
    List.count_eq_one_of_mem hl ha]
  rfl

/-- Of what the pairs report, only what the pair `p` reports is at or below a path that no other
pair reports at. -/
theorem atOrBelow_eq_of_only (ho : Shape self) (hn : Shape newer) (hso : self.Summed) (hsn : newer.Summed) {p : Nat × Nat}
    (h : Paired self newer p) {path : List Bytes} {e : Place × Delta}
    (hp : atOrBelow self newer path (pairReport self newer p) = [e])
    (hq : ∀ q, Paired self newer q → q ≠ p → atOrBelow self newer path (pairReport self newer q) = []) :
    atOrBelow self newer path (self.diffChanges newer) = [e] := by
  refine List.perm_singleton.1 (((diffChanges_perm ho hn hso hsn).filter _).trans (List.Perm.of_eq ?_))
  have hnd := nodup_pairsBelow ho hn (paired_root ho hn)
  obtain ⟨l, l', hl⟩ := List.append_of_mem ((mem_allPairs ho hn).2 h)
  have hnone : ∀ q, q ∈ l ∨ q ∈ l' → atOrBelow self newer path (pairReport self newer q) = [] := by
    intro q hmem
    have hall : Paired self newer q := (mem_allPairs ho hn).1 (by
      rw [hl, List.mem_append, List.mem_cons]
      exact hmem.imp_right .inr)
    refine hq q hall fun he => ?_
    subst he
    rw [hl, List.nodup_append, List.nodup_cons] at hnd
    rcases hmem with hmem | hmem
    · exact hnd.2.2 q hmem q (List.mem_cons_self ..) rfl
    · exact hnd.2.1.1 hmem
  rw [List.filter_flatMap, hl, List.flatMap_append, List.flatMap_cons]
  have h1 : l.flatMap (fun q => atOrBelow self newer path (pairReport self newer q)) = [] :=
    List.flatMap_eq_nil_iff.2 fun q hq => hnone q (.inl hq)
  have h2 : l'.flatMap (fun q => atOrBelow self newer path (pairReport self newer q)) = [] :=
    List.flatMap_eq_nil_iff.2 fun q hq => hnone q (.inr hq)
  show l.flatMap (fun q => atOrBelow self newer path (pairReport self newer q)) ++
    (atOrBelow self newer path (pairReport self newer p) ++
      l'.flatMap fun q => atOrBelow self newer path (pairReport self newer q)) = [e]
  rw [h1, h2, hp]
  rfl

/-- A subtree that vanished is one change. -/
theorem atOrBelow_vanished (ho : Shape self) (hn : Shape newer) (hso : self.Summed) (hsn : newer.Summed) {p : Nat × Nat}
    (h : Paired self newer p) {a : Nat} (ha : a ∈ vanished self newer p.1 p.2) :
    atOrBelow self newer (self.components a) (self.diffChanges newer) =
      [(.older a, .of fun c => -((self.node a).sub.get c : Int))] := by
  obtain ⟨haa, hap⟩ := ho.child _ h.old a (mem_vanished.1 ha).1
  -- nothing in the newer tree is at or below this path
  have hnew : ∀ b, (newer.node b).alive = true → ¬self.components a <+: newer.components b := by
    intro b hb hpre
    obtain ⟨j, hj, hc, -⟩ := exists_above hn hb hpre
    exact absent_of_vanished ho hn h ha j ⟨haa, hj, hc.symm⟩
  -- and of the subtrees that vanished only this one
  have hold : ∀ q, Paired self newer q → ∀ i ∈ vanished self newer q.1 q.2, self.components a <+: self.components i → i = a := by
    intro q hq i hi hpre
    obtain ⟨hia, hip⟩ := ho.child _ hq.old i (mem_vanished.1 hi).1
    rw [ho.components_of_parent hip] at hpre
    rcases List.prefix_concat_iff.1 hpre with he | hpre
    · exact components_inj ho hia haa ((ho.components_of_parent hip).trans he.symm)
    · exact absurd (hq.path ▸ hpre) (hnew q.2 hq.new)
  have hpair : ∀ q, Paired self newer q → atOrBelow self newer (self.components a) (pairReport self newer q) =
      ((vanished self newer q.1 q.2).filter fun i => (self.components a).isPrefixOf (self.components i)).map fun i =>
        (.older i, .of fun c => -((self.node i).sub.get c : Int)) := by
    intro q hq
    have h1 : ((appeared self newer q.1 q.2).map fun b => ((.newer b, .of fun c => ((newer.node b).sub.get c : Int)) :
        Place × Delta)).filter (fun e => (self.components a).isPrefixOf (e.1.path self newer)) = [] := by
      rw [List.filter_eq_nil_iff]
      intro e he hpre
      obtain ⟨b, hb, rfl⟩ := List.mem_map.1 he
      exact hnew b (hn.child _ hq.new b (mem_appeared.1 hb).1).1 (List.isPrefixOf_iff_prefix.1 hpre)
    have h2 : (if (changeHere self newer q).isZero then []
        else [((.newer q.2, changeHere self newer q) : Place × Delta)]).filter
          (fun e => (self.components a).isPrefixOf (e.1.path self newer)) = [] := by
      rw [List.filter_eq_nil_iff]
      intro e he hpre
      split at he
      · cases he
      · rw [List.mem_singleton.1 he] at hpre
        exact hnew q.2 hq.new (List.isPrefixOf_iff_prefix.1 hpre)
    unfold atOrBelow pairReport
    rw [List.filter_append, List.filter_append, h1, h2, List.append_nil, List.append_nil, List.filter_map]
    rfl
  refine atOrBelow_eq_of_only ho hn hso hsn h ?_ fun q hq hqp => ?_
  · have hnd : (vanished self newer p.1 p.2).Nodup := (ho.nodup h.old).filter _
    rw [hpair p h, filter_eq_singleton hnd ha fun i hi => ⟨fun hpre => ?_, fun he => ?_⟩]
    · rfl
    · exact hold p h i hi (List.isPrefixOf_iff_prefix.1 hpre)
    · rw [he]; exact List.isPrefixOf_iff_prefix.2 List.prefix_rfl
  · rw [hpair q hq, List.map_eq_nil_iff, List.filter_eq_nil_iff]
    intro i hi hpre
    obtain rfl := hold q hq i hi (List.isPrefixOf_iff_prefix.1 hpre)
    -- a directory has one parent, and that one pair
    have hpar := (ho.child _ hq.old i (mem_vanished.1 hi).1).2
    rw [hap] at hpar
    have h1 : q.1 = p.1 := (Option.some.inj hpar).symm
    exact hqp (Prod.ext h1 (components_inj hn hq.new h.new (hq.path.symm.trans ((congrArg self.components h1).trans h.path))))

/-- A subtree that appeared is one change. -/
theorem atOrBelow_appeared (ho : Shape self) (hn : Shape newer) (hso : self.Summed) (hsn : newer.Summed) {p : Nat × Nat}
    (h : Paired self newer p) {b : Nat} (hb : b ∈ appeared self newer p.1 p.2) :
    atOrBelow self newer (newer.components b) (self.diffChanges newer) =
      [(.newer b, .of fun c => ((newer.node b).sub.get c : Int))] := by
  obtain ⟨hba, hbp⟩ := hn.child _ h.new b (mem_appeared.1 hb).1
  -- nothing in the older tree is at or below this path
  have hold : ∀ a, (self.node a).alive = true → ¬newer.components b <+: self.components a := by
    intro a ha hpre
    obtain ⟨i, hi, hc, -⟩ := exists_above ho ha hpre
    exact absent_of_appeared ho hn h hb i ⟨hi, hba, hc⟩
  -- and of the subtrees that appeared only this one
  have hnew : ∀ q, Paired self newer q → ∀ j ∈ appeared self newer q.1 q.2, newer.components b <+: newer.components j → j = b := by
    intro q hq j hj hpre
    obtain ⟨hja, hjp⟩ := hn.child _ hq.new j (mem_appeared.1 hj).1
    rw [hn.components_of_parent hjp] at hpre
    rcases List.prefix_concat_iff.1 hpre with he | hpre
    · exact components_inj hn hja hba ((hn.components_of_parent hjp).trans he.symm)
    · exact absurd (hq.path.symm ▸ hpre) (hold q.1 hq.old)
  have hpair : ∀ q, Paired self newer q → atOrBelow self newer (newer.components b) (pairReport self newer q) =
      ((appeared self newer q.1 q.2).filter fun j => (newer.components b).isPrefixOf (newer.components j)).map fun j =>
        (.newer j, .of fun c => ((newer.node j).sub.get c : Int)) := by
    intro q hq
    have h1 : ((vanished self newer q.1 q.2).map fun a => ((.older a, .of fun c => -((self.node a).sub.get c : Int)) :
        Place × Delta)).filter (fun e => (newer.components b).isPrefixOf (e.1.path self newer)) = [] := by
      rw [List.filter_eq_nil_iff]
      intro e he hpre
      obtain ⟨a, ha, rfl⟩ := List.mem_map.1 he
      exact hold a (ho.child _ hq.old a (mem_vanished.1 ha).1).1 (List.isPrefixOf_iff_prefix.1 hpre)
    have h2 : (if (changeHere self newer q).isZero then []
        else [((.newer q.2, changeHere self newer q) : Place × Delta)]).filter
          (fun e => (newer.components b).isPrefixOf (e.1.path self newer)) = [] := by
      rw [List.filter_eq_nil_iff]
      intro e he hpre
      split at he
      · cases he
      · rw [List.mem_singleton.1 he] at hpre
        exact hold q.1 hq.old (hq.path ▸ List.isPrefixOf_iff_prefix.1 hpre)
    unfold atOrBelow pairReport
    rw [List.filter_append, List.filter_append, h1, h2, List.nil_append, List.append_nil, List.filter_map]
    rfl
  refine atOrBelow_eq_of_only ho hn hso hsn h ?_ fun q hq hqp => ?_
  · have hnd : (appeared self newer p.1 p.2).Nodup := (hn.nodup h.new).filter _
    rw [hpair p h, filter_eq_singleton hnd hb fun j hj => ⟨fun hpre => ?_, fun he => ?_⟩]
    · rfl
    · exact hnew p h j hj (List.isPrefixOf_iff_prefix.1 hpre)
    · rw [he]; exact List.isPrefixOf_iff_prefix.2 List.prefix_rfl
  · rw [hpair q hq, List.map_eq_nil_iff, List.filter_eq_nil_iff]
    intro j hj hpre
    obtain rfl := hnew q hq j hj (List.isPrefixOf_iff_prefix.1 hpre)
    have hpar := (hn.child _ hq.new j (mem_appeared.1 hj).1).2
    rw [hbp] at hpar
    have h2 : q.2 = p.2 := (Option.some.inj hpar).symm
    exact hqp (Prod.ext (components_inj ho hq.old h.old (hq.path.trans ((congrArg newer.components h2).trans h.path.symm))) h2)

/-- A child with no directory of its path on the other side vanished. -/
theorem vanished_of_absent (ho : Shape self) (hn : Shape newer) {p : Nat × Nat} (h : Paired self newer p) {a : Nat}
    (ha : a ∈ (self.node p.1).children) (hnone : ∀ b, ¬Paired self newer (a, b)) : a ∈ vanished self newer p.1 p.2 :=
  mem_vanished.2 ⟨ha, fun b hb hname => hnone b ((ranked ho hn).kid p h _ ((mem_pairedKids ho hn h).2 ⟨ha, hb, hname⟩)).1⟩

theorem appeared_of_absent (ho : Shape self) (hn : Shape newer) {p : Nat × Nat} (h : Paired self newer p) {b : Nat}
    (hb : b ∈ (newer.node p.2).children) (hnone : ∀ a, ¬Paired self newer (a, b)) : b ∈ appeared self newer p.1 p.2 :=
  mem_appeared.2 ⟨hb, fun a ha hname => hnone a ((ranked ho hn).kid p h _ ((mem_pairedKids ho hn h).2 ⟨ha, hb, hname⟩)).1⟩

end Pair

/-! ## Telescoping -/

/-- What a diff says about two trees. -/
structure Telescopes (self newer : DirTree) (changes : List (Place × Delta)) : Prop where
  /-- The pairs are the directories of one path; each reports what it should, once. -/
  pairs : ∃ pairs : List (Nat × Nat), pairs.Nodup ∧ (∀ p, p ∈ pairs ↔ Paired self newer p) ∧
    changes.Perm (pairs.flatMap (pairReport self newer))
  /-- At and below a directory of both trees the deltas add up to the change of its `sub`. -/
  sum : ∀ a b, Paired self newer (a, b) → ∀ c,
    ((atOrBelow self newer (newer.components b) changes).map fun e => e.2.get c).sum =
      ((newer.node b).sub.get c - (self.node a).sub.get c : Int)
  /-- A subtree that vanished is one delta with its whole `sub`. -/
  went : ∀ p, Paired self newer p → ∀ a ∈ (self.node p.1).children, (∀ b, ¬Paired self newer (a, b)) →
    atOrBelow self newer (self.components a) changes = [(.older a, .of fun c => -((self.node a).sub.get c : Int))]
  /-- So is one that appeared. -/
  came : ∀ p, Paired self newer p → ∀ b ∈ (newer.node p.2).children, (∀ a, ¬Paired self newer (a, b)) →
    atOrBelow self newer (newer.components b) changes = [(.newer b, .of fun c => ((newer.node b).sub.get c : Int))]

/-- The tree diff telescopes. -/
theorem diff_telescopes {self newer : DirTree} (ho : Shape self) (hn : Shape newer) (hso : self.Summed) (hsn : newer.Summed) :
    Telescopes self newer (self.diffChanges newer) where
  pairs := ⟨_, nodup_pairsBelow ho hn (paired_root ho hn), fun _ => mem_allPairs ho hn, diffChanges_perm ho hn hso hsn⟩
  sum := fun _ _ h c => sum_atOrBelow ho hn hso hsn h c
  went := fun _ h _ ha hnone => atOrBelow_vanished ho hn hso hsn h (vanished_of_absent ho hn h ha hnone)
  came := fun _ h _ hb hnone => atOrBelow_appeared ho hn hso hsn h (appeared_of_absent ho hn h hb hnone)

/-- Totals of a concrete tree, node by node. -/
theorem DirTree.Summed.of_at {t : DirTree} (h : ∀ i < t.nodes.length, ∀ c ∈ [Component.files, .dirs, .symlinks, .blocks, .apparent],
    t.overChildren i (fun n => n.sub.get c) ≤ (t.node i).sub.get c ∧ (t.node i).sub.get c < 2 ^ 63) : t.Summed where
  children := fun i hi c => (h i (DirTree.lt_of_alive hi) c (by cases c <;> decide)).1
  limit := fun i hi c => (h i (DirTree.lt_of_alive hi) c (by cases c <;> decide)).2

theorem summed_sample : DirTree.sample.Summed := DirTree.Summed.of_at (by decide)

/-- The newer tree of the source's test: seven blocks more in `x`, and `b` gone. -/
def explainedTree : DirTree :=
  let grown := (DirTree.sample.applyDirect 3 { blocks := 7 }).propagate 3 { blocks := 7 }
  (grown.detach 2).1.propagate 0 (Delta.ofTally (grown.node 2).sub).negate

theorem shape_explainedTree : Shape explainedTree := Shape.of_at rfl rfl (by decide)

theorem summed_explainedTree : explainedTree.Summed := DirTree.Summed.of_at (by decide)

theorem diff_telescopes_sample : Telescopes .sample explainedTree (DirTree.sample.diffChanges explainedTree) :=
  diff_telescopes DirTree.shape_sample shape_explainedTree summed_sample summed_explainedTree

/-- `b` is reported gone, and `x` grown. -/
example : DirTree.sample.diffChanges explainedTree = [(.older 2, { blocks := -50 }), (.newer 3, { blocks := 7 })] := by
  decide

/-! ## The served total -/

/-- The sum of a component over what `diff` returns. -/
def diffSum (self newer : DirTree) (c : Component) : Int := ((self.diff newer).map fun e => e.2.get c).sum

/-- The sum of a component over the differences of a run of scans. -/
def scansSum (c : Component) : DirTree → List DirTree → Int
  | _, [] => 0
  | older, newer :: scans => diffSum older newer c + scansSum c newer scans

/-- The tree being served after a run of scans. -/
def lastScan : DirTree → List DirTree → DirTree
  | t, [] => t
  | _, newer :: scans => lastScan newer scans

/-- What the root's own inode adds to its totals, which saturate. -/
def rootOwn (t : DirTree) : Nat × Nat :=
  (min (t.node 0).ownBlocks (u64Max - (t.node 0).sub.blocks), min (t.node 0).ownApparent (u64Max - (t.node 0).sub.apparent))

theorem totalBlocks_root {t : DirTree} (h : Shape t) (hs : t.Summed) :
    ((t.node 0).totalBlocks : Int) = (t.node 0).sub.get .blocks + (rootOwn t).1 := by
  have := hs.limit 0 h.root.1 .blocks
  unfold DirNode.totalBlocks rootOwn saturatingAdd u64Max
  simp only [Tally.get] at this ⊢
  omega

theorem totalApparent_root {t : DirTree} (h : Shape t) (hs : t.Summed) :
    ((t.node 0).totalApparent : Int) = (t.node 0).sub.get .apparent + (rootOwn t).2 := by
  have := hs.limit 0 h.root.1 .apparent
  unfold DirNode.totalApparent rootOwn saturatingAdd u64Max
  simp only [Tally.get] at this ⊢
  omega

/-- What `diff` returns adds up to the change of the root's `sub`. -/
theorem diffSum_eq {self newer : DirTree} (ho : Shape self) (hn : Shape newer) (hso : self.Summed) (hsn : newer.Summed)
    (c : Component) : diffSum self newer c = ((newer.node 0).sub.get c - (self.node 0).sub.get c : Int) := by
  have hsum := sum_atOrBelow ho hn hso hsn (paired_root ho hn) c
  have hall : atOrBelow self newer (newer.components 0) (self.diffChanges newer) = self.diffChanges newer := by
    rw [Shape.components_zero]
    exact List.filter_eq_self.2 fun e _ => rfl
  rw [hall] at hsum
  rw [← hsum]
  unfold diffSum DirTree.diff
  rw [List.map_map]
  refine congrArg List.sum (List.map_congr_left fun e _ => ?_)
  obtain ⟨place, delta⟩ := e
  cases place <;> rfl

theorem scansSum_eq (c : Component) : ∀ {first : DirTree} {scans : List DirTree},
    (∀ t ∈ first :: scans, Shape t ∧ t.Summed) →
    scansSum c first scans = (((lastScan first scans).node 0).sub.get c - (first.node 0).sub.get c : Int)
  | first, [], _ => by simp [scansSum, lastScan]
  | first, newer :: scans, h => by
    obtain ⟨ho, hso⟩ := h first (List.mem_cons_self ..)
    obtain ⟨hn, hsn⟩ := h newer (List.mem_cons_of_mem _ (List.mem_cons_self ..))
    rw [scansSum, lastScan, diffSum_eq ho hn hso hsn, scansSum_eq c fun t ht => h t (List.mem_cons_of_mem _ ht)]
    omega

theorem lastScan_mem : ∀ (first : DirTree) (scans : List DirTree), lastScan first scans ∈ first :: scans
  | _, [] => List.mem_cons_self ..
  | _, newer :: scans => List.mem_cons_of_mem _ (lastScan_mem newer scans)

/-- The differences of one scan after the other add up to the change of the root's totals exactly
when its own inode adds as much to them at the end as at the start. -/
theorem diff_explains_iff {first : DirTree} {scans : List DirTree} (h : ∀ t ∈ first :: scans, Shape t ∧ t.Summed) :
    (scansSum .blocks first scans = ((lastScan first scans).node 0).totalBlocks - ((first.node 0).totalBlocks : Int) ∧
      scansSum .apparent first scans = ((lastScan first scans).node 0).totalApparent - ((first.node 0).totalApparent : Int)) ↔
      rootOwn (lastScan first scans) = rootOwn first := by
  obtain ⟨ho, hso⟩ := h first (List.mem_cons_self ..)
  obtain ⟨hn, hsn⟩ := h (lastScan first scans) (lastScan_mem first scans)
  rw [scansSum_eq _ h, scansSum_eq _ h, totalBlocks_root ho hso, totalBlocks_root hn hsn, totalApparent_root ho hso,
    totalApparent_root hn hsn, Prod.ext_iff]
  omega

/-- The root's own inode grown by one block of entries. -/
def grownRoot : DirTree := DirTree.sample.modifyNode 0 fun n => { n with ownBlocks := n.ownBlocks + 8 }

theorem shape_grownRoot : Shape grownRoot := DirTree.shape_sample.congr (DirTree.sameShape_modifyNode _ _ fun _ => rfl)

theorem summed_grownRoot : grownRoot.Summed := DirTree.Summed.of_at (by decide)

/-- The growth of the root's own inode is in its total and in no difference. -/
theorem grown_root_unexplained : ¬∀ self newer : DirTree, Shape self → Shape newer → self.Summed → newer.Summed →
    diffSum self newer .blocks = (newer.node 0).totalBlocks - ((self.node 0).totalBlocks : Int) ∧
      diffSum self newer .apparent = (newer.node 0).totalApparent - ((self.node 0).totalApparent : Int) := by
  intro h
  have hsum := (h .sample grownRoot DirTree.shape_sample shape_grownRoot summed_sample summed_grownRoot).1
  rw [diffSum_eq DirTree.shape_sample shape_grownRoot summed_sample summed_grownRoot] at hsum
  revert hsum
  decide

theorem diff_explains_iff_sample :
    (scansSum .blocks .sample [explainedTree] = (explainedTree.node 0).totalBlocks - ((DirTree.sample.node 0).totalBlocks : Int) ∧
      scansSum .apparent .sample [explainedTree] =
        (explainedTree.node 0).totalApparent - ((DirTree.sample.node 0).totalApparent : Int)) ↔
      rootOwn explainedTree = rootOwn .sample := by
  refine diff_explains_iff fun t ht => ?_
  rcases List.mem_cons.1 ht with rfl | ht
  · exact ⟨DirTree.shape_sample, summed_sample⟩
  · rw [List.mem_singleton.1 ht]
    exact ⟨shape_explainedTree, summed_explainedTree⟩

end StorageHarvester
