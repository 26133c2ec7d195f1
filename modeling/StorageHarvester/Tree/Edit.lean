/-
What the structural edits of the arena do to each node, and that they keep its shape: `detach`
marks exactly the subtree below the child dead, `attach` puts a fresh name at its sorted place,
`graft` appends another tree's nodes renumbered.
-/
import StorageHarvester.Tree.Shape

namespace StorageHarvester

open Forest

namespace DirTree

/-! ## Detaching -/

/-- What the sweep pops is marked dead, and nothing else changes. -/
theorem getD_markDead : ∀ (fuel : Nat) (stack : List Nat) (nodes : List DirNode) (j : Nat),
    (markDead fuel stack nodes).getD j default =
      if j ∈ sweep (fun i => (nodes.getD i default).children) fuel stack then
        { nodes.getD j default with alive := false }
      else nodes.getD j default
  | 0, _, _, _ => by simp [markDead, sweep]
  | fuel + 1, [], _, _ => by simp [markDead, sweep]
  | fuel + 1, a :: stack, nodes, j => by
    have hdead : ∀ i, (nodes.modify a fun n => { n with alive := false }).getD i default =
        if i = a then { nodes.getD i default with alive := false } else nodes.getD i default := by
      intro i
      rw [getD_modify]
      by_cases hi : i = a
      · subst hi
        by_cases hl : i < nodes.length
        · simp [hl]
        · simp [hl]; rfl
      · simp [hi]
    have hkids : (fun i => ((nodes.modify a fun n => { n with alive := false }).getD i default).children) =
        fun i => (nodes.getD i default).children := by
      funext i; rw [hdead]; split <;> rfl
    rw [markDead, getD_markDead fuel, hkids, hdead, sweep]
    by_cases hj : j = a
    · subst hj; simp
    · simp [hj]

@[simp] theorem length_markDead : ∀ (fuel : Nat) (stack : List Nat) (nodes : List DirNode),
    (markDead fuel stack nodes).length = nodes.length
  | 0, _, _ => rfl
  | _ + 1, [], _ => rfl
  | fuel + 1, a :: stack, nodes => by rw [markDead, length_markDead fuel]; simp

@[simp] theorem length_detach (t : DirTree) (child : Nat) : (t.detach child).1.nodes.length = t.nodes.length := by
  simp only [detach, length_markDead]
  split <;> simp

end DirTree

namespace Shape

variable {t : DirTree} {child p : Nat}

/-- A sweep by the children of `child` and the nodes after it pops exactly the alive nodes below `child`. -/
theorem mem_sweep_of_kids (h : Shape t) (hc : (t.node child).alive = true) {kids : Nat → List Nat}
    (hkids : ∀ i, child ≤ i → kids i = (t.node i).children) (j : Nat) :
    j ∈ sweep kids t.nodes.length [child] ↔ (t.node j).alive = true ∧ Above t.parentOf child j := by
  refine (@mem_sweep t.parentOf _ (fun i => (t.node i).alive = true ∧ child ≤ i) _ _ ?_ ⟨hc, Nat.le_refl _⟩ ?_ j).trans ?_
  · refine ⟨h.down, fun i hi => DirTree.lt_of_alive hi.1, fun i ⟨hia, hci⟩ c hm => ?_, fun i ⟨hia, hci⟩ => ?_⟩
    · rw [hkids i hci] at hm
      obtain ⟨ha, hpar⟩ := h.child i hia c hm
      exact ⟨⟨ha, Nat.le_trans hci (Nat.le_of_lt (h.down c i hpar))⟩, hpar⟩
    · rw [hkids i hci]; exact h.nodup hia
  · intro i q ⟨hia, hci⟩ hq hcq
    obtain ⟨hqa, hm⟩ := h.listed i q hia hq
    have hle := hcq.le h.down
    exact ⟨⟨hqa, hle⟩, by rw [hkids q hle]; exact hm⟩
  · exact ⟨fun hj => ⟨hj.1.1, hj.2⟩, fun hj => ⟨⟨hj.1, hj.2.le h.down⟩, hj.2⟩⟩

open Classical in
/-- What `detach` does to each node of a tree that from `child` on has the children of a well-shaped one. -/
theorem node_detach_of {u : DirTree} (h : Shape t) (hc : (t.node child).alive = true) (hlen : u.nodes.length = t.nodes.length)
    (hp : (u.node child).parent = some p) (hpc : p < child) (halive : ∀ i, (u.node i).alive = (t.node i).alive)
    (hkids : ∀ i, child ≤ i → (u.node i).children = (t.node i).children) (j : Nat) :
    (u.detach child).1.node j = { u.node j with
      children := if j = p then (u.node j).children.filter (· ≠ child) else (u.node j).children
      alive := if Above t.parentOf child j then false else (u.node j).alive } := by
  have hpl : p < u.nodes.length := Nat.lt_trans hpc (hlen ▸ DirTree.lt_of_alive hc)
  have hnode : (u.detach child).1.node j =
      (DirTree.markDead u.nodes.length [child]
        (u.modifyNode p fun n => { n with children := n.children.filter (· ≠ child) }).nodes).getD j default := by
    simp only [DirTree.detach, hp, DirTree.length_modifyNode]
    rfl
  have hcut : (u.modifyNode p fun n => { n with children := n.children.filter (· ≠ child) }).node j =
      { u.node j with
        children := if j = p then (u.node j).children.filter (· ≠ child) else (u.node j).children } := by
    rw [DirTree.node_modifyNode]
    by_cases hj : j = p
    · simp [hj, hpl]
    · simp [hj]
  -- the parent of `child`, whose list is cut, is not met: it is above `child`
  have hswept : ∀ i, child ≤ i →
      ((u.modifyNode p fun n => { n with children := n.children.filter (· ≠ child) }).node i).children = (t.node i).children := by
    intro i hi
    have hne : i ≠ p := by rintro rfl; exact absurd hi (Nat.not_le.2 hpc)
    rw [DirTree.node_modifyNode_of_ne hne, hkids i hi]
  rw [hnode, DirTree.getD_markDead]
  change (if j ∈ sweep (fun i => ((u.modifyNode p _).node i).children) _ _ then
    { (u.modifyNode p _).node j with alive := false } else (u.modifyNode p _).node j) = _
  rw [hcut, hlen, if_congr (h.mem_sweep_of_kids hc hswept j) rfl rfl]
  by_cases ha : Above t.parentOf child j
  · cases hal : (t.node j).alive with
    | true => simp [ha]
    | false => simp [ha, halive, hal]
  · simp [ha]

open Classical in
/-- What `detach` does to each node. -/
theorem node_detach (h : Shape t) (hc : (t.node child).alive = true) (hp : (t.node child).parent = some p)
    (j : Nat) :
    (t.detach child).1.node j = { t.node j with
      children := if j = p then (t.node j).children.filter (· ≠ child) else (t.node j).children
      alive := if Above t.parentOf child j then false else (t.node j).alive } :=
  h.node_detach_of hc rfl hp (h.down child p hp) (fun _ => rfl) (fun _ _ => rfl) j

theorem parentOf_detach (h : Shape t) (hc : (t.node child).alive = true) (hp : (t.node child).parent = some p) :
    (t.detach child).1.parentOf = t.parentOf := by
  funext j
  unfold DirTree.parentOf
  rw [h.node_detach hc hp]

theorem alive_detach (h : Shape t) (hc : (t.node child).alive = true) (hp : (t.node child).parent = some p)
    (j : Nat) :
    ((t.detach child).1.node j).alive = true ↔ (t.node j).alive = true ∧ ¬Above t.parentOf child j := by
  classical
  rw [h.node_detach hc hp]
  by_cases ha : Above t.parentOf child j <;> simp [ha]

/-- A detached subtree is entirely dead. -/
theorem dead_detach (h : Shape t) (hc : (t.node child).alive = true) (hp : (t.node child).parent = some p)
    {j : Nat} (hj : Above t.parentOf child j) : ((t.detach child).1.node j).alive = false := by
  rw [← Bool.not_eq_true, h.alive_detach hc hp]
  exact fun hn => hn.2 hj

theorem children_detach (h : Shape t) (hc : (t.node child).alive = true) (hp : (t.node child).parent = some p)
    (j : Nat) :
    ((t.detach child).1.node j).children =
      if j = p then (t.node j).children.filter (· ≠ child) else (t.node j).children := by
  classical
  rw [h.node_detach hc hp]

/-- `detach` keeps the shape. -/
theorem detach (h : Shape t) (hc : (t.node child).alive = true) (hp : (t.node child).parent = some p) :
    Shape (t.detach child).1 where
  root := by
    have hc0 : child ≠ 0 := by rintro rfl; rw [h.root.2] at hp; cases hp
    refine ⟨(h.alive_detach hc hp 0).2 ⟨h.root.1, fun ha => hc0 (Nat.le_zero.1 (ha.le h.down))⟩, ?_⟩
    exact (congrFun (h.parentOf_detach hc hp) 0).trans h.root.2
  depth_root := by rw [h.node_detach hc hp]; exact h.depth_root
  down := by rw [h.parentOf_detach hc hp]; exact h.down
  hasParent := fun i hi hl => by
    obtain ⟨q, hq⟩ := h.hasParent i hi (by simpa using hl)
    exact ⟨q, (congrFun (h.parentOf_detach hc hp) i).trans hq⟩
  depth := fun i q hq => by
    rw [h.node_detach hc hp, h.node_detach hc hp]
    exact h.depth i q ((congrFun (h.parentOf_detach hc hp) i).symm.trans hq)
  child := fun i hi j hj => by
    obtain ⟨hia, hni⟩ := (h.alive_detach hc hp i).1 hi
    rw [h.children_detach hc hp] at hj
    have hj' : j ∈ (t.node i).children ∧ j ≠ child := by
      split at hj
      · rw [List.mem_filter] at hj; exact ⟨hj.1, by simpa using hj.2⟩
      · rename_i hip
        refine ⟨hj, ?_⟩
        rintro rfl
        exact hip (Option.some.inj ((h.child i hia j hj).2.symm.trans hp))
    obtain ⟨hja, hjp⟩ := h.child i hia j hj'.1
    refine ⟨(h.alive_detach hc hp j).2 ⟨hja, fun ha => ?_⟩, (congrFun (h.parentOf_detach hc hp) j).trans hjp⟩
    rcases (@above_of_parent t.parentOf _ _ _ hjp).1 ha with he | ha
    · exact hj'.2 he.symm
    · exact hni ha
  listed := fun i q hi hq => by
    obtain ⟨hia, hni⟩ := (h.alive_detach hc hp i).1 hi
    have hq' : (t.node i).parent = some q := (congrFun (h.parentOf_detach hc hp) i).symm.trans hq
    obtain ⟨hqa, hm⟩ := h.listed i q hia hq'
    refine ⟨(h.alive_detach hc hp q).2 ⟨hqa, fun ha => hni (.step hq' ha)⟩, ?_⟩
    rw [h.children_detach hc hp]
    split
    · rw [List.mem_filter]
      refine ⟨hm, ?_⟩
      have : i ≠ child := by rintro rfl; exact hni .refl
      simpa using this
    · exact hm
  sorted := fun i hi => by
    obtain ⟨hia, -⟩ := (h.alive_detach hc hp i).1 hi
    have hs := h.sorted i hia
    rw [h.children_detach hc hp]
    simp only [h.node_detach hc hp]
    split
    · exact hs.filter _
    · exact hs

end Shape

/-! ## Attaching -/

theorem insertIdx_length_append {α : Type*} : ∀ (l₁ l₂ : List α) (x : α), (l₁ ++ l₂).insertIdx l₁.length x = l₁ ++ x :: l₂
  | [], _, _ => by simp
  | y :: l₁, l₂, x => by simp [insertIdx_length_append l₁ l₂ x]

/-- Inserting where a search for a fresh key in an ordered list says. -/
theorem insertIdx_found {α : Type*} {probe : α → Ordering} {l : List α} (h : Probed l probe)
    (hfresh : ∀ x ∈ l, probe x ≠ .eq) (y : α) :
    ∃ pre post, l = pre ++ post ∧ (∀ x ∈ pre, probe x = .lt) ∧ (∀ x ∈ post, probe x = .gt) ∧
      l.insertIdx (match binarySearchBy l probe with | .ok at_ => at_ | .err at_ => at_) y = pre ++ y :: post := by
  have hs := binarySearchBy_spec h
  cases hb : binarySearchBy l probe with
  | ok at_ =>
    rw [hb] at hs
    obtain ⟨x, hx, hpx⟩ := hs
    exact absurd hpx (hfresh x (List.mem_of_getElem? hx))
  | err at_ =>
    rw [hb] at hs
    obtain ⟨hle, hlt, hgt⟩ := hs
    have hlen : (l.take at_).length = at_ := by simp [hle]
    refine ⟨l.take at_, l.drop at_, (List.take_append_drop _ _).symm, fun x hx => ?_, fun x hx => ?_, ?_⟩
    · obtain ⟨i, hi, hix⟩ := List.mem_take_iff_getElem.1 hx
      exact hlt i x (by rw [← hix]; exact List.getElem?_eq_getElem _) (by omega)
    · obtain ⟨i, hi, hix⟩ := List.mem_drop_iff_getElem.1 hx
      exact hgt (at_ + i) x (by rw [← hix]; exact List.getElem?_eq_getElem _) (by omega)
    · have := insertIdx_length_append (l.take at_) (l.drop at_) y
      rw [hlen, List.take_append_drop] at this
      exact this

namespace DirTree

@[simp] theorem length_attach (t : DirTree) (parent child : Nat) :
    (t.attach parent child).nodes.length = t.nodes.length := length_modifyNode _ _ _

theorem node_attach_of_ne {t : DirTree} {parent child j : Nat} (h : j ≠ parent) :
    (t.attach parent child).node j = t.node j := node_modifyNode_of_ne h _

/-- `attach` puts a fresh name between the smaller and the larger ones. -/
theorem node_attach {t : DirTree} {parent child : Nat} (hp : parent < t.nodes.length)
    (hs : (t.node parent).children.Pairwise fun a b => compare (t.node a).name (t.node b).name = .lt)
    (hfresh : ∀ c ∈ (t.node parent).children, (t.node c).name ≠ (t.node child).name) :
    ∃ pre post, (t.node parent).children = pre ++ post ∧
      (∀ c ∈ pre, compare (t.node c).name (t.node child).name = .lt) ∧
      (∀ c ∈ post, compare (t.node child).name (t.node c).name = .lt) ∧
      (t.attach parent child).node parent = { t.node parent with children := pre ++ child :: post } := by
  obtain ⟨pre, post, hl, hpre, hpost, hins⟩ := insertIdx_found (probed_of_sorted (t.node child).name hs)
    (fun c hc heq => hfresh c hc (Std.LawfulEqCmp.eq_of_compare heq)) child
  refine ⟨pre, post, hl, hpre, fun c hc => compare_gt_iff.1 (hpost c hc), ?_⟩
  unfold attach
  rw [node_modifyNode_self hp]
  exact congrArg (fun l => { t.node parent with children := l }) hins

/-! ## Grafting -/

/-- The nodes before the child is listed: the old ones, then the new ones renumbered. -/
theorem getD_append_map {nodes others : List DirNode} {f : DirNode → DirNode} (j : Nat) :
    (nodes ++ others.map f).getD j default =
      if j < nodes.length then nodes.getD j default
      else if j < nodes.length + others.length then f (others.getD (j - nodes.length) default) else default := by
  by_cases h : j < nodes.length
  · rw [List.getD_append _ _ _ _ h, if_pos h]
  · rw [List.getD_append_right _ _ _ _ (Nat.le_of_not_lt h), if_neg h]
    by_cases h' : j < nodes.length + others.length
    · rw [if_pos h', List.getD_eq_getElem _ _ (by rw [List.length_map]; omega),
        List.getD_eq_getElem _ _ (by omega), List.getElem_map]
    · rw [if_neg h', List.getD_eq_default _ _ (by rw [List.length_map]; omega)]

@[simp] theorem length_graft (t : DirTree) (under : Nat) (other : DirTree) :
    (t.graft under other).1.nodes.length = t.nodes.length + other.nodes.length := by
  simp [graft]

/-- What `graft` does to each node, times apart. -/
structure Grafted (t : DirTree) (under : Nat) (other u : DirTree) : Prop where
  length : u.nodes.length = t.nodes.length + other.nodes.length
  old : ∀ j < t.nodes.length, j ≠ under → u.node j = { t.node j with newest := (u.node j).newest }
  at_ : ∃ pre post, (t.node under).children = pre ++ post ∧
    (∀ c ∈ pre, compare (t.node c).name (other.node 0).name = .lt) ∧
    (∀ c ∈ post, compare (other.node 0).name (t.node c).name = .lt) ∧
    u.node under = { t.node under with
      children := pre ++ t.nodes.length :: post, newest := (u.node under).newest }
  new : ∀ k < other.nodes.length, u.node (t.nodes.length + k) =
    { graftNode under t.nodes.length ((t.node under).depth + 1) (other.node k) with
      newest := (u.node (t.nodes.length + k)).newest }

end DirTree

theorem Shape.graft_spec {t other : DirTree} {under : Nat} (h : Shape t) (hu : (t.node under).alive = true)
    (ho : 0 < other.nodes.length) (hfresh : ∀ c ∈ (t.node under).children, (t.node c).name ≠ (other.node 0).name) :
    DirTree.Grafted t under other (t.graft under other).1 := by
  have hul := DirTree.lt_of_alive hu
  -- the tree before the new child is listed
  let t₁ : DirTree := { t with
    nodes := t.nodes ++ other.nodes.map (DirTree.graftNode under t.nodes.length ((t.node under).depth + 1)) }
  have hold : ∀ j < t.nodes.length, t₁.node j = t.node j := fun j hj => by
    show (_ ++ _ : List DirNode).getD j default = _
    rw [DirTree.getD_append_map, if_pos hj]; rfl
  have hnew : ∀ k < other.nodes.length, t₁.node (t.nodes.length + k) =
      DirTree.graftNode under t.nodes.length ((t.node under).depth + 1) (other.node k) := fun k hk => by
    show (_ ++ _ : List DirNode).getD _ default = _
    rw [DirTree.getD_append_map, if_neg (by omega), if_pos (by omega), Nat.add_sub_cancel_left]; rfl
  have hname : (t₁.node t.nodes.length).name = (other.node 0).name := by
    have := hnew 0 ho
    rw [Nat.add_zero] at this
    rw [this]; rfl
  have hlen : t₁.nodes.length = t.nodes.length + other.nodes.length := by
    show (_ ++ _ : List DirNode).length = _
    simp
  have hcl : ∀ c ∈ (t.node under).children, t₁.node c = t.node c := fun c hc =>
    hold c (DirTree.lt_of_alive (h.child under hu c hc).1)
  have hs₁ : (t₁.node under).children.Pairwise fun a b => compare (t₁.node a).name (t₁.node b).name = .lt := by
    rw [hold under hul]
    refine (h.sorted under hu).imp_of_mem fun {a b} ha hb hab => ?_
    rw [hcl a ha, hcl b hb]; exact hab
  have hf₁ : ∀ c ∈ (t₁.node under).children, (t₁.node c).name ≠ (t₁.node t.nodes.length).name := by
    rw [hold under hul, hname]
    intro c hc
    rw [hcl c hc]; exact hfresh c hc
  obtain ⟨pre, post, hl, hpre, hpost, hat⟩ := @DirTree.node_attach t₁ under t.nodes.length
    (by rw [hlen]; omega) hs₁ hf₁
  rw [hold under hul] at hl hat
  rw [hname] at hpre hpost
  have hnode : ∀ j n, (t₁.attach under t.nodes.length).node j = n →
      (t.graft under other).1.node j = { n with newest := ((t.graft under other).1.node j).newest } := by
    rintro j n rfl
    exact DirTree.node_touch (t₁.attach under t.nodes.length) under (other.node 0).newest j
  refine ⟨DirTree.length_graft t under other, fun j hj hne => ?_, ⟨pre, post, hl, fun c hc => ?_, fun c hc => ?_, ?_⟩,
    fun k hk => ?_⟩
  · exact hnode j _ ((DirTree.node_attach_of_ne hne).trans (hold j hj))
  · have hc' : c ∈ (t.node under).children := by rw [hl]; exact List.mem_append_left _ hc
    rw [← hcl c hc']; exact hpre c hc
  · have hc' : c ∈ (t.node under).children := by rw [hl]; exact List.mem_append_right _ hc
    rw [← hcl c hc']; exact hpost c hc
  · exact hnode under _ hat
  · exact hnode _ _ ((DirTree.node_attach_of_ne (by omega)).trans (hnew k hk))

namespace DirTree.Grafted

variable {t other u : DirTree} {under : Nat}

/-- An old node keeps everything but its time and, at `under`, its children. -/
theorem old_eq (g : Grafted t under other u) {j : Nat} (hj : j < t.nodes.length) :
    u.node j = { t.node j with children := (u.node j).children, newest := (u.node j).newest } := by
  by_cases h : j = under
  · obtain ⟨pre, post, -, -, -, he⟩ := g.at_
    rw [h, he]
  · rw [g.old j hj h]

theorem children_of_ne (g : Grafted t under other u) {j : Nat} (hj : j < t.nodes.length) (h : j ≠ under) :
    (u.node j).children = (t.node j).children := by rw [g.old j hj h]

theorem mem_children_under (g : Grafted t under other u) (c : Nat) :
    c ∈ (u.node under).children ↔ c = t.nodes.length ∨ c ∈ (t.node under).children := by
  obtain ⟨pre, post, hl, -, -, he⟩ := g.at_
  rw [he, hl]
  simp only [List.mem_append, List.mem_cons]
  tauto

theorem parent_old (g : Grafted t under other u) {j : Nat} (hj : j < t.nodes.length) :
    (u.node j).parent = (t.node j).parent := by rw [g.old_eq hj]

theorem alive_old (g : Grafted t under other u) {j : Nat} (hj : j < t.nodes.length) :
    (u.node j).alive = (t.node j).alive := by rw [g.old_eq hj]

theorem name_old (g : Grafted t under other u) {j : Nat} (hj : j < t.nodes.length) :
    (u.node j).name = (t.node j).name := by rw [g.old_eq hj]

theorem parent_new (g : Grafted t under other u) {k : Nat} (hk : k < other.nodes.length) :
    (u.node (t.nodes.length + k)).parent = match (other.node k).parent with
      | none => some under
      | some p => some (p + t.nodes.length) := by rw [g.new k hk]; rfl

theorem alive_new (g : Grafted t under other u) {k : Nat} (hk : k < other.nodes.length) :
    (u.node (t.nodes.length + k)).alive = (other.node k).alive := by rw [g.new k hk]; rfl

theorem name_new (g : Grafted t under other u) {k : Nat} (hk : k < other.nodes.length) :
    (u.node (t.nodes.length + k)).name = (other.node k).name := by rw [g.new k hk]; rfl

theorem children_new (g : Grafted t under other u) {k : Nat} (hk : k < other.nodes.length) :
    (u.node (t.nodes.length + k)).children = (other.node k).children.map (· + t.nodes.length) := by
  rw [g.new k hk]; rfl

/-- Every node is an old or a new one. -/
theorem cases (g : Grafted t under other u) {j : Nat} (hj : j < u.nodes.length) :
    j < t.nodes.length ∨ ∃ k < other.nodes.length, j = t.nodes.length + k := by
  rw [g.length] at hj
  rcases Nat.lt_or_ge j t.nodes.length with h | h
  · exact .inl h
  · exact .inr ⟨j - t.nodes.length, by omega, by omega⟩

/-- The parent of a new node: `under` for the root, the renumbered parent for the others. -/
theorem parent_new_iff (g : Grafted t under other u) (ho : Shape other) {k : Nat} (hk : k < other.nodes.length)
    (q : Nat) :
    (u.node (t.nodes.length + k)).parent = some q ↔
      (k = 0 ∧ q = under) ∨ ∃ p, (other.node k).parent = some p ∧ q = t.nodes.length + p := by
  rw [g.parent_new hk]
  rcases Nat.eq_zero_or_pos k with rfl | hpos
  · rw [ho.root.2]
    simp [eq_comm]
  · obtain ⟨p, hp⟩ := ho.hasParent k hpos hk
    rw [hp]
    simp only [Option.some.injEq]
    constructor
    · rintro rfl; exact .inr ⟨p, rfl, Nat.add_comm _ _⟩
    · rintro (⟨rfl, -⟩ | ⟨p', rfl, rfl⟩)
      · exact absurd hpos (Nat.lt_irrefl 0)
      · exact Nat.add_comm _ _

/-- `graft` keeps the shape. -/
theorem shape (g : Grafted t under other u) (h : Shape t) (ho : Shape other) (hu : (t.node under).alive = true) :
    Shape u := by
  have hul := lt_of_alive hu
  have hpos := ho.pos
  have hout : ∀ j, (u.node j).alive = true → j < u.nodes.length := fun j hj => lt_of_alive hj
  have hparent : ∀ j q, (u.node j).parent = some q → j < u.nodes.length := by
    intro j q hq
    by_contra hn
    rw [node_of_le (Nat.le_of_not_lt hn)] at hq
    cases hq
  refine ⟨⟨(g.alive_old h.pos).trans h.root.1, (g.parent_old h.pos).trans h.root.2⟩, by rw [g.old_eq h.pos]; exact h.depth_root, ?down, ?hasParent, ?depth, ?child,
    ?listed, ?sorted⟩
  case down =>
    intro j q hq
    rcases g.cases (hparent j q hq) with hj | ⟨k, hk, rfl⟩
    · exact h.down j q ((g.parent_old hj).symm.trans hq)
    · rcases (g.parent_new_iff ho hk q).1 hq with ⟨rfl, rfl⟩ | ⟨p, hp, rfl⟩
      · omega
      · have := ho.down k p hp; omega
  case hasParent =>
    intro j hj hl
    rcases g.cases hl with hj' | ⟨k, hk, rfl⟩
    · obtain ⟨q, hq⟩ := h.hasParent j hj hj'
      exact ⟨q, (g.parent_old hj').trans hq⟩
    · rcases Nat.eq_zero_or_pos k with rfl | hk0
      · exact ⟨under, (g.parent_new_iff ho hk under).2 (.inl ⟨rfl, rfl⟩)⟩
      · obtain ⟨p, hp⟩ := ho.hasParent k hk0 hk
        exact ⟨_, (g.parent_new_iff ho hk _).2 (.inr ⟨p, hp, rfl⟩)⟩
  case depth =>
    intro j q hq
    rcases g.cases (hparent j q hq) with hj | ⟨k, hk, rfl⟩
    · have hq' := (g.parent_old hj).symm.trans hq
      have hql : q < t.nodes.length := Nat.lt_trans (h.down j q hq') hj
      rw [g.old_eq hj, g.old_eq hql]
      exact h.depth j q hq'
    · have hd : (u.node (t.nodes.length + k)).depth = (other.node k).depth + ((t.node under).depth + 1) := by
        rw [g.new k hk]; rfl
      rcases (g.parent_new_iff ho hk q).1 hq with ⟨rfl, rfl⟩ | ⟨p, hp, rfl⟩
      · rw [hd, g.old_eq hul, ho.depth_root]
        exact Nat.zero_add _
      · have hpk := ho.down k p hp
        rw [hd, g.new p (by omega), ho.depth k p hp]
        simp only [graftNode]
        omega
  case child =>
    intro j hj c hc
    rcases g.cases (hout j hj) with hjl | ⟨k, hk, rfl⟩
    · rw [g.alive_old hjl] at hj
      by_cases hju : j = under
      · subst hju
        rcases (g.mem_children_under c).1 hc with rfl | hc
        · exact ⟨(g.alive_new hpos).trans ho.root.1, (g.parent_new_iff ho hpos j).2 (.inl ⟨rfl, rfl⟩)⟩
        · obtain ⟨ha, hp⟩ := h.child j hj c hc
          have hcl := lt_of_alive ha
          exact ⟨(g.alive_old hcl).trans ha, (g.parent_old hcl).trans hp⟩
      · rw [g.children_of_ne hjl hju] at hc
        obtain ⟨ha, hp⟩ := h.child j hj c hc
        have hcl := lt_of_alive ha
        exact ⟨(g.alive_old hcl).trans ha, (g.parent_old hcl).trans hp⟩
    · rw [g.alive_new hk] at hj
      rw [g.children_new hk, List.mem_map] at hc
      obtain ⟨c', hc', rfl⟩ := hc
      obtain ⟨ha, hp⟩ := ho.child k hj c' hc'
      have hcl := lt_of_alive ha
      rw [Nat.add_comm c']
      exact ⟨(g.alive_new hcl).trans ha, (g.parent_new_iff ho hcl _).2 (.inr ⟨k, hp, rfl⟩)⟩
  case listed =>
    intro j q hj hq
    rcases g.cases (hout j hj) with hjl | ⟨k, hk, rfl⟩
    · rw [g.alive_old hjl] at hj
      have hq' := (g.parent_old hjl).symm.trans hq
      obtain ⟨hqa, hm⟩ := h.listed j q hj hq'
      have hql := lt_of_alive hqa
      refine ⟨(g.alive_old hql).trans hqa, ?_⟩
      by_cases hqu : q = under
      · subst hqu; exact (g.mem_children_under j).2 (.inr hm)
      · rw [g.children_of_ne hql hqu]; exact hm
    · rw [g.alive_new hk] at hj
      rcases (g.parent_new_iff ho hk q).1 hq with ⟨rfl, rfl⟩ | ⟨p, hp, rfl⟩
      · exact ⟨(g.alive_old hul).trans hu, (g.mem_children_under _).2 (.inl rfl)⟩
      · obtain ⟨hpa, hm⟩ := ho.listed k p hj hp
        have hpl := lt_of_alive hpa
        refine ⟨(g.alive_new hpl).trans hpa, ?_⟩
        rw [g.children_new hpl, Nat.add_comm]
        exact List.mem_map_of_mem hm
  case sorted =>
    intro j hj
    rcases g.cases (hout j hj) with hjl | ⟨k, hk, rfl⟩
    · rw [g.alive_old hjl] at hj
      have hs := h.sorted j hj
      have hname : ∀ c ∈ (t.node j).children, (u.node c).name = (t.node c).name := fun c hc =>
        g.name_old (lt_of_alive (h.child j hj c hc).1)
      by_cases hju : j = under
      · subst hju
        obtain ⟨pre, post, hl, hpre, hpost, he⟩ := g.at_
        have hroot : (u.node t.nodes.length).name = (other.node 0).name := g.name_new hpos
        rw [he]
        rw [hl] at hs hname
        rw [List.pairwise_append] at hs ⊢
        obtain ⟨h1, h2, h3⟩ := hs
        refine ⟨h1.imp_of_mem fun ha hb hab => ?_, ?_, fun a ha b hb => ?_⟩
        · rw [hname _ (List.mem_append_left _ ha), hname _ (List.mem_append_left _ hb)]; exact hab
        · refine List.pairwise_cons.2 ⟨fun b hb => ?_, h2.imp_of_mem fun ha hb hab => ?_⟩
          · rw [hroot, hname b (List.mem_append_right _ hb)]; exact hpost b hb
          · rw [hname _ (List.mem_append_right _ ha), hname _ (List.mem_append_right _ hb)]; exact hab
        · rw [hname a (List.mem_append_left _ ha)]
          rcases List.mem_cons.1 hb with rfl | hb
          · rw [hroot]; exact hpre a ha
          · rw [hname b (List.mem_append_right _ hb)]; exact h3 a ha b hb
      · rw [g.children_of_ne hjl hju]
        refine hs.imp_of_mem fun {a b} ha hb hab => ?_
        rw [hname a ha, hname b hb]; exact hab
    · rw [g.alive_new hk] at hj
      rw [g.children_new hk, List.pairwise_map]
      refine (ho.sorted k hj).imp_of_mem fun {a b} ha hb hab => ?_
      rw [Nat.add_comm a, Nat.add_comm b, g.name_new (lt_of_alive (ho.child k hj a ha).1),
        g.name_new (lt_of_alive (ho.child k hj b hb).1)]
      exact hab

end DirTree.Grafted

/-- `graft` keeps the shape, for a name that is not there yet. -/
theorem Shape.graft {t other : DirTree} {under : Nat} (h : Shape t) (ho : Shape other)
    (hu : (t.node under).alive = true) (hfresh : ∀ c ∈ (t.node under).children, (t.node c).name ≠ (other.node 0).name) :
    Shape (t.graft under other).1 := (h.graft_spec hu ho.pos hfresh).shape h ho hu

end StorageHarvester
