/-
The newest times of a tree: where both have one, a directory is at least as new as what sits under
it. That is what lets `touch` stop early, and every edit of the tree keeps it; the heap is over all
nodes, dead ones too, by their parents.
-/
import StorageHarvester.Tree.Edit

namespace StorageHarvester

open Forest

/-! ## Whole seconds -/

/-- Later times are later in whole seconds too. -/
theorem toSeconds_mono {a b : Int} (ha : noTime ≤ a) (h : a ≤ b) : toSeconds a ≤ toSeconds b := by
  unfold toSeconds
  unfold noTime i64Min at *
  split <;> split <;> omega

theorem noTime_le_toSeconds {a : Int} (ha : noTime ≤ a) : noTime ≤ toSeconds a := by
  unfold toSeconds
  unfold noTime i64Min at *
  split <;> omega

theorem toSeconds_max {a b : Int} (ha : noTime ≤ a) (hb : noTime ≤ b) : toSeconds (max a b) = max (toSeconds a) (toSeconds b) := by
  rcases le_total a b with h | h
  · rw [max_eq_right h, max_eq_right (toSeconds_mono ha h)]
  · rw [max_eq_left h, max_eq_left (toSeconds_mono hb h)]

namespace DirTree

variable {t u v : DirTree}

/-! ## The heap -/

/-- Where both have a time, what sits under a directory is no newer. -/
def Heap (t : DirTree) : Prop :=
  ∀ j p, (t.node j).parent = some p → (t.node j).newest ≠ noTime → (t.node p).newest ≠ noTime →
    (t.node j).newest ≤ (t.node p).newest

/-- The same, but what sits under `i` may be as new as `a`. -/
def HeapBut (t : DirTree) (i : Nat) (a : Int) : Prop :=
  ∀ j p, (t.node j).parent = some p → (t.node j).newest ≠ noTime → (t.node p).newest ≠ noTime →
    (t.node j).newest ≤ if p = i then max (t.node p).newest a else (t.node p).newest

/-- The same for `i` and the nodes before it, which its ancestors are among. -/
def HeapUp (t : DirTree) (i : Nat) : Prop :=
  ∀ j p, j ≤ i → (t.node j).parent = some p → (t.node j).newest ≠ noTime → (t.node p).newest ≠ noTime →
    (t.node j).newest ≤ (t.node p).newest

theorem Heap.but (h : t.Heap) (i : Nat) (a : Int) : t.HeapBut i a := by
  intro j p hp hj hpn
  have := h j p hp hj hpn
  split <;> omega

theorem Heap.up (h : t.Heap) (i : Nat) : t.HeapUp i := fun j p _ => h j p

theorem HeapBut.heap {i : Nat} {a : Int} (h : t.HeapBut i a) (ha : (t.node i).newest ≠ noTime → a ≤ (t.node i).newest) :
    t.Heap := by
  intro j p hp hj hpn
  have hle := h j p hp hj hpn
  split at hle
  · rename_i he
    subst he
    have := ha hpn
    omega
  · exact hle

/-! ## Touching -/

/-- A node with another time. -/
def setNewest (t : DirTree) (i : Nat) (a : Int) : DirTree := t.modifyNode i fun n => { n with newest := a }

theorem parent_setNewest (t : DirTree) (i j : Nat) (a : Int) : ((t.setNewest i a).node j).parent = (t.node j).parent := by
  unfold setNewest
  rw [node_modifyNode]
  split <;> rfl

theorem newest_setNewest (t : DirTree) (i j : Nat) (a : Int) :
    ((t.setNewest i a).node j).newest = if j = i ∧ i < t.nodes.length then a else (t.node j).newest := by
  unfold setNewest
  rw [node_modifyNode]
  split <;> rfl

theorem parentOf_setNewest (t : DirTree) (i : Nat) (a : Int) : (t.setNewest i a).parentOf = t.parentOf :=
  funext fun j => t.parent_setNewest i j a

theorem lt_of_parentOf {j p : Nat} (hp : (t.node j).parent = some p) : j < t.nodes.length := by
  by_contra hn
  rw [node_of_le (Nat.le_of_not_lt hn)] at hp
  cases hp

/-- A node raised to `a`: what it breaks, it breaks at its parent alone. -/
theorem HeapBut.raised {i q : Nat} {a : Int} (h : t.HeapBut i a) (hd : Down t.parentOf) (hn : (t.node i).newest ≠ noTime)
    (hlt : (t.node i).newest < a) (hq : ∀ p, (t.node i).parent = some p → p = q) : (t.setNewest i a).HeapBut q a := by
  intro j p hp hj hpn
  rw [t.parent_setNewest] at hp
  have hjl := lt_of_parentOf hp
  have hpj : p < j := hd j p hp
  rw [t.newest_setNewest] at hj hpn ⊢
  rw [t.newest_setNewest]
  by_cases hji : j = i
  · -- the raised node and its parent
    subst hji
    rw [if_pos ⟨rfl, hjl⟩, if_pos (hq p hp)]
    omega
  · rw [if_neg fun hc => hji hc.1] at hj ⊢
    by_cases hpi : p = i
    · -- what sits under the raised node
      subst hpi
      have hle := h j p hp hj hn
      have hpl : p = p ∧ p < t.nodes.length := ⟨rfl, Nat.lt_trans hpj hjl⟩
      rw [if_pos rfl] at hle
      rw [if_pos hpl]
      split <;> omega
    · have hpi' : ¬(p = i ∧ i < t.nodes.length) := fun hc => hpi hc.1
      rw [if_neg hpi'] at hpn ⊢
      have hle := h j p hp hj hpn
      rw [if_neg hpi] at hle
      split <;> omega

theorem heap_touchUp (a : Int) : ∀ (fuel i : Nat) (t : DirTree), i < fuel → Down t.parentOf → t.HeapBut i a →
    (touchUp a fuel i t).Heap
  | 0, i, _, hf, _, _ => absurd hf (Nat.not_lt_zero i)
  | fuel + 1, i, t, hf, hd, h => by
    rw [touchUp]
    split
    · rename_i hstop
      exact h.heap fun hn => hstop.resolve_left hn
    · rename_i hgo
      obtain ⟨hn, hlt⟩ : (t.node i).newest ≠ noTime ∧ (t.node i).newest < a := by omega
      dsimp only
      split
      · rename_i hroot
        have hb := h.raised (q := i) hd hn hlt fun p hp => by rw [hroot] at hp; cases hp
        intro j p hp hj hpn
        have hle := hb j p hp hj hpn
        split at hle
        · rename_i he
          subst he
          have hpl : p < t.nodes.length := by
            have hp' := (t.parent_setNewest p j a).symm.trans hp
            exact Nat.lt_trans (hd j p hp') (lt_of_parentOf hp')
          have ha := t.newest_setNewest p p a
          rw [if_pos ⟨rfl, hpl⟩] at ha
          rw [ha, max_self] at hle
          exact hle.trans (le_of_eq ha.symm)
        · exact hle
      · rename_i q hq
        refine heap_touchUp a fuel q _ (by have := hd i q hq; omega) ?_ (h.raised hd hn hlt fun p hp => ?_)
        · rw [show (t.modifyNode i fun n => { n with newest := a }).parentOf = t.parentOf from t.parentOf_setNewest i a]
          exact hd
        · rw [hq] at hp
          exact (Option.some.inj hp).symm

theorem newest_le_touchUp (a : Int) : ∀ (fuel i : Nat) (t : DirTree) (j : Nat),
    (t.node j).newest ≤ ((touchUp a fuel i t).node j).newest
  | 0, _, _, _ => Int.le_refl _
  | fuel + 1, i, t, j => by
    rw [touchUp]
    split
    · exact Int.le_refl _
    · rename_i hgo
      have hset : (t.node j).newest ≤ ((t.setNewest i a).node j).newest := by
        rw [t.newest_setNewest]
        split
        · rename_i he
          rw [he.1]
          omega
        · exact Int.le_refl _
      dsimp only
      split
      · exact hset
      · exact hset.trans (newest_le_touchUp a fuel _ _ j)

theorem newest_le_touch (t : DirTree) (i : Nat) (a : Int) (j : Nat) : (t.node j).newest ≤ ((t.touch i a).node j).newest :=
  newest_le_touchUp a _ i t j

/-! ## What touching is for -/

/-- Raises `i` and every ancestor, up to the first one without a time, to at least `a`: the whole
way, with no early stop. -/
def raiseUp (a : Int) : Nat → Nat → DirTree → DirTree
  | 0, _, t => t
  | fuel + 1, i, t =>
    if (t.node i).newest = noTime then t
    else
      let t' := t.modifyNode i fun n => { n with newest := max n.newest a }
      match (t.node i).parent with
      | none => t'
      | some p => raiseUp a fuel p t'

def raise (t : DirTree) (i : Nat) (a : Int) : DirTree := raiseUp a (i + 1) i t

theorem modifyNode_congr {i : Nat} {f g : DirNode → DirNode} (h : f (t.node i) = g (t.node i)) :
    t.modifyNode i f = t.modifyNode i g := by
  have hnodes : t.nodes.modify i f = t.nodes.modify i g := by
    refine List.ext_getElem? fun j => ?_
    rw [List.getElem?_modify, List.getElem?_modify]
    by_cases hij : i = j
    · subst hij
      by_cases hl : i < t.nodes.length
      · rw [node_eq_getElem hl] at h
        simp [List.getElem?_eq_getElem hl, h]
      · simp [List.getElem?_eq_none (Nat.le_of_not_lt hl)]
    · simp [hij]
  unfold modifyNode
  rw [hnodes]

theorem modifyNode_id (t : DirTree) (i : Nat) : t.modifyNode i (fun n => n) = t := by
  unfold modifyNode
  rw [show t.nodes.modify i (fun n => n) = t.nodes from List.modify_id i t.nodes]

theorem raiseUp_eq_self {a : Int} : ∀ (fuel i : Nat), Down t.parentOf → t.HeapUp i →
    ((t.node i).newest ≠ noTime → a ≤ (t.node i).newest) → raiseUp a fuel i t = t
  | 0, _, _, _, _ => rfl
  | fuel + 1, i, hd, h, ha => by
    rw [raiseUp]
    split
    · rfl
    · rename_i hn
      have hsame : t.modifyNode i (fun n => { n with newest := max n.newest a }) = t := by
        refine (modifyNode_congr (g := fun n => n) ?_).trans (t.modifyNode_id i)
        rw [max_eq_left (ha hn)]
      dsimp only
      rw [hsame]
      split
      · rfl
      · rename_i p hp
        have hpi : p < i := hd i p hp
        refine raiseUp_eq_self fuel p hd (fun j q hj => h j q (by omega)) fun hpn => ?_
        exact (ha hn).trans (h i p (Nat.le_refl i) hp hn hpn)

theorem touchUp_eq_raiseUp (a : Int) : ∀ (fuel i : Nat) (t : DirTree), Down t.parentOf → t.HeapUp i →
    touchUp a fuel i t = raiseUp a fuel i t
  | 0, _, _, _, _ => rfl
  | fuel + 1, i, t, hd, h => by
    rw [touchUp]
    split
    · rename_i hstop
      exact (raiseUp_eq_self (fuel + 1) i hd h fun hn => hstop.resolve_left hn).symm
    · rename_i hgo
      obtain ⟨hn, hlt⟩ : (t.node i).newest ≠ noTime ∧ (t.node i).newest < a := by omega
      have hsame : t.modifyNode i (fun n => { n with newest := max n.newest a }) = t.setNewest i a :=
        modifyNode_congr (by rw [max_eq_right (le_of_lt hlt)])
      rw [raiseUp, if_neg hn]
      dsimp only
      rw [hsame]
      cases hp : (t.node i).parent with
      | none => rfl
      | some p =>
        have hpi : p < i := hd i p hp
        refine touchUp_eq_raiseUp a fuel p _ ?_ fun j q hj hq => ?_
        · rw [show (t.modifyNode i fun n => { n with newest := a }).parentOf = t.parentOf from t.parentOf_setNewest i a]
          exact hd
        · -- above `i` nothing has changed
          have hq' := (t.parent_setNewest i j a).symm.trans hq
          have hqj : q < j := hd j q hq'
          have h1 := t.newest_setNewest i j a
          have h2 := t.newest_setNewest i q a
          rw [if_neg fun hc => by omega] at h1
          rw [if_neg fun hc => by omega] at h2
          show ((t.setNewest i a).node j).newest ≠ noTime → ((t.setNewest i a).node q).newest ≠ noTime →
            ((t.setNewest i a).node j).newest ≤ ((t.setNewest i a).node q).newest
          rw [h1, h2]
          exact h j q (by omega) hq'

theorem touch_eq_raise (hd : Down t.parentOf) (h : t.Heap) (i : Nat) (a : Int) : t.touch i a = t.raise i a :=
  touchUp_eq_raiseUp a _ i t hd (h.up i)

end DirTree

/-! ## Trees with a heap of times -/

/-- Every node but the root sits under one with a smaller number, and is listed by it alone. -/
structure Rooted (t : DirTree) : Prop where
  pos : 0 < t.nodes.length
  root : (t.node 0).parent = none
  down : Down t.parentOf
  hasParent : ∀ i, 0 < i → i < t.nodes.length → (t.node i).parent ≠ none
  linked : ∀ p, ∀ c ∈ (t.node p).children, (t.node c).parent = some p

/-- The same, and the times form a heap. -/
structure Aged (t : DirTree) : Prop extends Rooted t where
  heap : t.Heap

/-- What `u` has from `t`: no node loses its parent, and none gets a child. -/
structure Fewer (t u : DirTree) : Prop where
  length : u.nodes.length = t.nodes.length
  parent : ∀ i, (u.node i).parent = (t.node i).parent
  children : ∀ i, (u.node i).children ⊆ (t.node i).children

/-- The same, with all times as they were. -/
structure SameTimes (t u : DirTree) : Prop extends Fewer t u where
  newest : ∀ i, (u.node i).newest = (t.node i).newest

/-- `u` comes after `t`: it has its nodes, and no time of them is lower. -/
structure Later (t u : DirTree) : Prop where
  length : t.nodes.length ≤ u.nodes.length
  newest : ∀ i < t.nodes.length, (t.node i).newest ≤ (u.node i).newest

section Keeping

variable {t u v : DirTree}

theorem Rooted.fewer (h : Rooted t) (hf : Fewer t u) : Rooted u where
  pos := by rw [hf.length]; exact h.pos
  root := (hf.parent 0).trans h.root
  down := h.down.congr fun j => hf.parent j
  hasParent := fun i hi hl => by
    rw [hf.parent]
    exact h.hasParent i hi (hf.length ▸ hl)
  linked := fun p c hc => (hf.parent c).trans (h.linked p c (hf.children p hc))

theorem Fewer.trans (h : Fewer t u) (h' : Fewer u v) : Fewer t v :=
  ⟨h'.length.trans h.length, fun i => (h'.parent i).trans (h.parent i), fun i _ hc => h.children i (h'.children i hc)⟩

theorem Fewer.of_sameShape (h : SameShape t u) : Fewer t u :=
  ⟨h.length, h.parent, fun i => by rw [h.children]; exact List.Subset.refl _⟩

namespace SameTimes

theorem refl (t : DirTree) : SameTimes t t := ⟨⟨rfl, fun _ => rfl, fun _ => List.Subset.refl _⟩, fun _ => rfl⟩

theorem trans (h : SameTimes t u) (h' : SameTimes u v) : SameTimes t v :=
  ⟨h.toFewer.trans h'.toFewer, fun i => (h'.newest i).trans (h.newest i)⟩

theorem of_nodes (h : u.nodes = t.nodes) : SameTimes t u := by
  have hnode : ∀ i, u.node i = t.node i := fun i => by unfold DirTree.node; rw [h]
  exact ⟨⟨by rw [h], fun i => by rw [hnode], fun i => by rw [hnode]; exact List.Subset.refl _⟩, fun i => by rw [hnode]⟩

theorem modifyNode (t : DirTree) (i : Nat) {f : DirNode → DirNode} (hp : ∀ n, (f n).parent = n.parent)
    (hn : ∀ n, (f n).newest = n.newest) (hc : ∀ n, (f n).children ⊆ n.children) : SameTimes t (t.modifyNode i f) := by
  refine ⟨⟨DirTree.length_modifyNode t i f, fun j => ?_, fun j => ?_⟩, fun j => ?_⟩
  all_goals
    rw [DirTree.node_modifyNode]
    split
  · exact hp _
  · rfl
  · exact hc _
  · exact List.Subset.refl _
  · exact hn _
  · rfl

theorem later (h : SameTimes t u) : Later t u :=
  ⟨Nat.le_of_eq h.length.symm, fun i _ => le_of_eq (h.newest i).symm⟩

end SameTimes

theorem Aged.same (h : Aged t) (hs : SameTimes t u) : Aged u := by
  refine ⟨h.toRooted.fewer hs.toFewer, fun j p hp hj hpn => ?_⟩
  rw [hs.parent] at hp
  rw [hs.newest] at hj hpn ⊢
  rw [hs.newest]
  exact h.heap j p hp hj hpn

theorem Later.refl (t : DirTree) : Later t t := (SameTimes.refl t).later

theorem Later.trans (h : Later t u) (h' : Later u v) : Later t v :=
  ⟨Nat.le_trans h.length h'.length, fun i hi => (h.newest i hi).trans (h'.newest i (Nat.lt_of_lt_of_le hi h.length))⟩

end Keeping

/-! ## Edits -/

namespace DirTree

theorem sameTimes_applySub (t : DirTree) (i : Nat) (d : Delta) : SameTimes t (t.applySub i d) :=
  (SameTimes.modifyNode t i (f := fun n => { n with sub := n.sub.apply d }) (fun _ => rfl) (fun _ => rfl)
    fun _ => List.Subset.refl _).trans (.of_nodes rfl)

theorem sameTimes_applyDirect (t : DirTree) (i : Nat) (d : Delta) : SameTimes t (t.applyDirect i d) :=
  (SameTimes.modifyNode t i (f := fun n => { n with direct := n.direct.apply d }) (fun _ => rfl) (fun _ => rfl)
    fun _ => List.Subset.refl _).trans (.of_nodes rfl)

theorem sameTimes_propagateUp (d : Delta) : ∀ (fuel i : Nat) (t : DirTree), SameTimes t (propagateUp d fuel i t)
  | 0, _, t => .refl t
  | fuel + 1, i, t => by
    rw [propagateUp]
    split
    · exact sameTimes_applySub t i d
    · exact (sameTimes_applySub t i d).trans (sameTimes_propagateUp d fuel _ _)

theorem sameTimes_propagate (t : DirTree) (i : Nat) (d : Delta) : SameTimes t (t.propagate i d) := by
  unfold propagate
  split
  · exact .refl t
  · exact sameTimes_propagateUp d _ i t

theorem sameTimes_markDead (t : DirTree) (fuel : Nat) (stack : List Nat) :
    SameTimes t { t with nodes := markDead fuel stack t.nodes } := by
  have hnode : ∀ j, (({ t with nodes := markDead fuel stack t.nodes } : DirTree).node j) =
      { t.node j with alive := (({ t with nodes := markDead fuel stack t.nodes } : DirTree).node j).alive } := by
    intro j
    unfold node
    dsimp only
    rw [getD_markDead]
    split <;> rfl
  refine ⟨⟨length_markDead _ _ _, fun j => ?_, fun j => ?_⟩, fun j => ?_⟩
  all_goals rw [hnode]
  exact List.Subset.refl _

theorem sameTimes_detach (t : DirTree) (child : Nat) : SameTimes t (t.detach child).1 := by
  have hdead : ∀ t₁ : DirTree, SameTimes t t₁ →
      SameTimes t { t₁ with nodes := markDead t₁.nodes.length [child] t₁.nodes } :=
    fun t₁ h => h.trans (sameTimes_markDead t₁ _ _)
  unfold detach
  cases (t.node child).parent with
  | none => exact (hdead t (.refl t)).trans (.of_nodes rfl)
  | some p =>
    have hcut := SameTimes.modifyNode t p (f := fun n => { n with children := n.children.filter (· ≠ child) })
      (fun _ => rfl) (fun _ => rfl) fun n => List.filter_sublist.subset
    exact (hdead _ hcut).trans (.of_nodes rfl)

end DirTree

section Times

variable {t other : DirTree} {under : Nat}

theorem Aged.touch (h : Aged t) (i : Nat) (a : Int) : Aged (t.touch i a) :=
  ⟨h.toRooted.fewer (.of_sameShape (DirTree.sameShape_touch t i a)),
    DirTree.heap_touchUp a (i + 1) i t (Nat.lt_succ_self i) h.down (h.heap.but i a)⟩

theorem later_touch (t : DirTree) (i : Nat) (a : Int) : Later t (t.touch i a) :=
  ⟨Nat.le_of_eq (DirTree.length_touch t i a).symm, fun j _ => t.newest_le_touch i a j⟩

/-- The tree with the other's nodes appended. -/
def DirTree.appended (t : DirTree) (under : Nat) (other : DirTree) : DirTree :=
  { t with nodes := t.nodes ++ other.nodes.map (DirTree.graftNode under t.nodes.length ((t.node under).depth + 1)) }

/-- The same, with the other's root listed under `under`. -/
def DirTree.grown (t : DirTree) (under : Nat) (other : DirTree) : DirTree := (t.appended under other).attach under t.nodes.length

theorem node_appended (j : Nat) : (t.appended under other).node j =
    if j < t.nodes.length then t.node j
    else if j < t.nodes.length + other.nodes.length then
      DirTree.graftNode under t.nodes.length ((t.node under).depth + 1) (other.node (j - t.nodes.length))
    else default := DirTree.getD_append_map j

theorem dated_grown (j : Nat) : ((t.grown under other).node j).parent = ((t.appended under other).node j).parent ∧
    ((t.grown under other).node j).newest = ((t.appended under other).node j).newest := by
  unfold DirTree.grown DirTree.attach
  rw [DirTree.node_modifyNode]
  split
  · exact ⟨rfl, rfl⟩
  · exact ⟨rfl, rfl⟩

theorem old_grown {j : Nat} (hj : j < t.nodes.length) :
    ((t.grown under other).node j).parent = (t.node j).parent ∧ ((t.grown under other).node j).newest = (t.node j).newest := by
  have hnode : (t.appended under other).node j = t.node j := by rw [node_appended, if_pos hj]
  exact hnode ▸ dated_grown j

theorem new_grown {k : Nat} (hk : k < other.nodes.length) :
    ((t.grown under other).node (t.nodes.length + k)).parent =
        (match (other.node k).parent with
        | none => some under
        | some p => some (p + t.nodes.length)) ∧
      ((t.grown under other).node (t.nodes.length + k)).newest = (other.node k).newest := by
  have hnode : (t.appended under other).node (t.nodes.length + k) =
      DirTree.graftNode under t.nodes.length ((t.node under).depth + 1) (other.node k) := by
    rw [node_appended, if_neg (by omega), if_pos (by omega), Nat.add_sub_cancel_left]
  have h := @dated_grown t other under (t.nodes.length + k)
  rw [hnode] at h
  exact h

theorem length_grown : (t.grown under other).nodes.length = t.nodes.length + other.nodes.length := by
  unfold DirTree.grown
  rw [DirTree.length_attach, DirTree.appended, List.length_append, List.length_map]

/-- A parent in the grown tree: an old one, the new root's, or one in the other tree. -/
theorem parent_grown (ho : Rooted other) {j p : Nat} (hp : ((t.grown under other).node j).parent = some p) :
    j < t.nodes.length ∧ (t.node j).parent = some p ∨ j = t.nodes.length ∧ p = under ∨
      ∃ k q, j = t.nodes.length + k ∧ p = t.nodes.length + q ∧ k < other.nodes.length ∧ (other.node k).parent = some q := by
  rcases Nat.lt_or_ge j t.nodes.length with hj | hj
  · exact .inl ⟨hj, (old_grown hj).1.symm.trans hp⟩
  · obtain ⟨k, rfl⟩ := Nat.exists_eq_add_of_le hj
    have hk : k < other.nodes.length := by
      have := DirTree.lt_of_parentOf hp
      rw [length_grown] at this
      omega
    right
    rw [(new_grown hk).1] at hp
    cases hq : (other.node k).parent with
    | none =>
      rw [hq] at hp
      cases hp
      rcases Nat.eq_zero_or_pos k with rfl | hk0
      · exact .inl ⟨rfl, rfl⟩
      · exact absurd hq (ho.hasParent k hk0 hk)
    | some q =>
      rw [hq] at hp
      cases hp
      exact .inr ⟨k, q, rfl, Nat.add_comm _ _, hk, hq⟩

theorem mem_children_grown {p c : Nat} (hc : c ∈ ((t.grown under other).node p).children) :
    p = under ∧ c = t.nodes.length ∨ p < t.nodes.length ∧ c ∈ (t.node p).children ∨
      ∃ k, p = t.nodes.length + k ∧ k < other.nodes.length ∧ ∃ c' ∈ (other.node k).children, c = c' + t.nodes.length := by
  have hlisted : p = under ∧ c = t.nodes.length ∨ c ∈ ((t.appended under other).node p).children := by
    unfold DirTree.grown DirTree.attach at hc
    rw [DirTree.node_modifyNode] at hc
    split at hc
    · rename_i he
      obtain rfl := he.1
      exact (List.eq_or_mem_of_mem_insertIdx hc).imp (fun he => ⟨rfl, he⟩) id
    · exact .inr hc
  refine hlisted.imp id fun hc => ?_
  rw [node_appended] at hc
  split at hc
  · rename_i hp
    exact .inl ⟨hp, hc⟩
  · split at hc
    · rename_i hp hp'
      obtain ⟨k, rfl⟩ := Nat.exists_eq_add_of_le (Nat.le_of_not_lt hp)
      rw [Nat.add_sub_cancel_left] at hc
      obtain ⟨c', hc', rfl⟩ := List.mem_map.1 hc
      exact .inr ⟨k, rfl, by omega, c', hc', rfl⟩
    · cases hc

theorem rooted_grown (h : Rooted t) (ho : Rooted other) (hu : under < t.nodes.length) : Rooted (t.grown under other) := by
  refine ⟨by rw [length_grown]; have := h.pos; omega, (old_grown h.pos).1.trans h.root, fun j p hp => ?_, fun j hj hl hp => ?_,
    fun p c hc => ?_⟩
  · rcases parent_grown ho hp with ⟨-, hp⟩ | ⟨rfl, rfl⟩ | ⟨k, q, rfl, rfl, -, hq⟩
    · exact h.down j p hp
    · exact hu
    · have := ho.down k q hq
      omega
  · rcases Nat.lt_or_ge j t.nodes.length with hjl | hjl
    · exact h.hasParent j hj hjl ((old_grown hjl).1.symm.trans hp)
    · obtain ⟨k, rfl⟩ := Nat.exists_eq_add_of_le hjl
      rw [length_grown] at hl
      rw [(new_grown (show k < other.nodes.length by omega)).1] at hp
      cases hq : (other.node k).parent <;> rw [hq] at hp <;> cases hp
  · rcases mem_children_grown hc with ⟨rfl, rfl⟩ | ⟨-, hc⟩ | ⟨k, rfl, -, c', hk, rfl⟩
    · have := (@new_grown t other p 0 ho.pos).1
      rw [Nat.add_zero, ho.root] at this
      exact this
    · have hp := h.linked p c hc
      exact (old_grown (DirTree.lt_of_parentOf hp)).1.trans hp
    · have hp := ho.linked k c' hk
      rw [Nat.add_comm, (new_grown (DirTree.lt_of_parentOf hp)).1, hp, Nat.add_comm]

/-- What is new under `under` is all that may be newer than it. -/
theorem heapBut_grown (h : Aged t) (ho : Aged other) (hu : under < t.nodes.length) :
    (t.grown under other).HeapBut under (other.node 0).newest := by
  intro j p hp hj hpn
  rcases parent_grown ho.toRooted hp with ⟨hjl, hp⟩ | ⟨rfl, rfl⟩ | ⟨k, q, rfl, rfl, hk, hq⟩
  · have hpl : p < t.nodes.length := Nat.lt_trans (h.down j p hp) hjl
    rw [(old_grown hjl).2] at hj ⊢
    rw [(old_grown hpl).2] at hpn ⊢
    exact h.heap.but under _ j p hp hj hpn
  · have hnew := (@new_grown t other p 0 ho.pos).2
    rw [Nat.add_zero] at hnew
    rw [if_pos rfl, hnew]
    exact Int.le_max_right ..
  · have hql : q < other.nodes.length := Nat.lt_trans (ho.down k q hq) hk
    rw [(new_grown hk).2] at hj ⊢
    rw [(new_grown hql).2] at hpn ⊢
    rw [if_neg (by omega)]
    exact ho.heap k q hq hj hpn

theorem Aged.graft (h : Aged t) (ho : Aged other) (hu : under < t.nodes.length) : Aged (t.graft under other).1 := by
  have hg := rooted_grown h.toRooted ho.toRooted hu
  have ht : Aged ((t.grown under other).touch under (other.node 0).newest) :=
    ⟨hg.fewer (.of_sameShape (DirTree.sameShape_touch _ _ _)),
      DirTree.heap_touchUp _ (under + 1) under _ (Nat.lt_succ_self under) hg.down (heapBut_grown h ho hu)⟩
  exact ht.same (.of_nodes rfl)

theorem later_graft (t : DirTree) (under : Nat) (other : DirTree) : Later t (t.graft under other).1 := by
  refine ⟨by rw [DirTree.length_graft]; omega, fun j hj => ?_⟩
  have := (t.grown under other).newest_le_touch under (other.node 0).newest j
  rw [(old_grown hj).2] at this
  exact this

end Times

end StorageHarvester
