/-
The roll-up of totals: each alive directory's `sub` is its `direct` plus its children's `sub`
(at least that much where it is sealed). `Balanced` states it for a tree in which one directory is
still owed a change; `propagate` pays the debt, and `detach`, `graft` and a new `direct` incur it.
Within the limits nothing clamps.
-/
import StorageHarvester.Tree.Edit

namespace StorageHarvester

open Forest

/-! ## Propagating, exactly -/

theorem Tally.clamps_eq_false {t : Tally} {d : Delta} (h : ∀ c, 0 ≤ (t.get c : Int) + d.get c) : t.clamps d = false := by
  have h1 := h .files; have h2 := h .dirs; have h3 := h .symlinks; have h4 := h .blocks; have h5 := h .apparent
  simp only [Tally.get, Delta.get] at h1 h2 h3 h4 h5
  simp only [clamps, Bool.or_eq_false_iff, decide_eq_false_iff_not]
  omega

namespace DirTree

@[simp] theorem links_applySub (t : DirTree) (i : Nat) (d : Delta) : (t.applySub i d).links = t.links := rfl

@[simp] theorem links_applyDirect (t : DirTree) (i : Nat) (d : Delta) : (t.applyDirect i d).links = t.links := rfl

@[simp] theorem links_modifyNode (t : DirTree) (i : Nat) (f : DirNode → DirNode) : (t.modifyNode i f).links = t.links :=
  rfl

theorem node_applySub (t : DirTree) (i j : Nat) (d : Delta) :
    (t.applySub i d).node j = if j = i ∧ i < t.nodes.length then { t.node j with sub := (t.node j).sub.apply d }
      else t.node j := node_modifyNode t i j _

theorem node_applyDirect (t : DirTree) (i j : Nat) (d : Delta) :
    (t.applyDirect i d).node j = if j = i ∧ i < t.nodes.length then
        { t.node j with direct := (t.node j).direct.apply d }
      else t.node j := node_modifyNode t i j _

theorem node_propagateUp (d : Delta) : ∀ (fuel i : Nat) (t : DirTree) (j : Nat),
    (propagateUp d fuel i t).node j = { t.node j with sub := ((propagateUp d fuel i t).node j).sub }
  | 0, _, _, _ => rfl
  | fuel + 1, i, t, j => by
    have hone : (t.applySub i d).node j = { t.node j with sub := ((t.applySub i d).node j).sub } := by
      rw [node_applySub]
      split <;> rfl
    rw [propagateUp]
    split
    · exact hone
    · rw [node_propagateUp d fuel, hone]

/-- `propagate` changes nothing of a node but its `sub`. -/
theorem node_propagate (t : DirTree) (i : Nat) (d : Delta) (j : Nat) :
    (t.propagate i d).node j = { t.node j with sub := ((t.propagate i d).node j).sub } := by
  unfold propagate
  split
  · rfl
  · exact node_propagateUp d _ i t j

/-- What `propagate` does when nothing clamps: `sub` changes at and above `i`, by `d`. -/
structure Propagated (t : DirTree) (i : Nat) (d : Component → Int) (u : DirTree) : Prop where
  node : ∀ j, u.node j = { t.node j with sub := (u.node j).sub }
  at_ : ∀ j c, Above t.parentOf j i → ((u.node j).sub.get c : Int) = (t.node j).sub.get c + d c
  off : ∀ j, ¬Above t.parentOf j i → (u.node j).sub = (t.node j).sub
  rest : u = { t with nodes := u.nodes }
  length : u.nodes.length = t.nodes.length

/-- The change fits everywhere at and above `i`. -/
def Fits (t : DirTree) (i : Nat) (d : Component → Int) : Prop :=
  ∀ j, Above t.parentOf j i → ∀ c, 0 ≤ ((t.node j).sub.get c : Int) + d c ∧ ((t.node j).sub.get c : Int) + d c < 2 ^ 64

theorem propagateUp_spec (d : Delta) : ∀ (fuel i : Nat) (t : DirTree), Down t.parentOf → i < fuel → i < t.nodes.length →
    t.Fits i d.get → Propagated t i d.get (propagateUp d fuel i t)
  | 0, _, _, _, hi, _, _ => absurd hi (Nat.not_lt_zero _)
  | fuel + 1, i, t, hd, hi, hl, hb => by
    have hlen := (sameShape_applySub t i d).length
    have hpar := (sameShape_applySub t i d).parentOf
    -- at `i` only the tally changes, and within bounds exactly by the delta
    have hself : (t.applySub i d).node i = { t.node i with sub := (t.node i).sub.apply d } := by
      rw [node_applySub, if_pos ⟨rfl, hl⟩]
    have hne : ∀ j, j ≠ i → (t.applySub i d).node j = t.node j := fun j hj => by
      rw [node_applySub, if_neg fun h => hj h.1]
    have hcl : (t.applySub i d).clamped = t.clamped := by
      show (t.clamped || _) = _
      rw [Tally.clamps_eq_false fun c => (hb i .refl c).1, Bool.or_false]
    have hrest : ∀ ns, { t.applySub i d with nodes := ns } = { t with nodes := ns } := fun ns =>
      congrArg (fun b => ({ t with nodes := ns, clamped := b } : DirTree)) hcl
    have hsub : ∀ c, (((t.node i).sub.apply d).get c : Int) = (t.node i).sub.get c + d.get c := fun c =>
      Tally.get_apply_eq (hb i .refl c).1 (hb i .refl c).2
    rw [propagateUp]
    cases hp : (t.node i).parent with
    | none =>
      have hroot : ∀ j, Above t.parentOf j i ↔ j = i := fun j => above_root hp
      refine ⟨fun j => ?_, fun j c ha => ?_, fun j ha => ?_, hrest _, hlen⟩
      · by_cases hj : j = i
        · rw [hj, hself]
        · rw [hne j hj]
      · obtain rfl := (hroot j).1 ha
        simp only [hself]; exact hsub c
      · simp only [hne j fun hj => ha ((hroot j).2 hj)]
    | some p =>
      have hlt : p < i := hd i p hp
      have habove : ∀ j, Above t.parentOf j i ↔ j = i ∨ Above t.parentOf j p := fun j => above_of_parent hp
      have hbelow : ∀ j, Above t.parentOf j p → j ≠ i := fun j ha hj => by
        have := ha.le hd; omega
      have ih := propagateUp_spec d fuel p (t.applySub i d) (by rw [hpar]; exact hd) (by omega) (by omega) (by
        intro j ha c
        rw [hpar] at ha
        rw [hne j (hbelow j ha)]
        exact hb j ((habove j).2 (.inr ha)) c)
      have hoff : ∀ j, ¬Above t.parentOf j p → ((propagateUp d fuel p (t.applySub i d)).node j) = (t.applySub i d).node j := by
        intro j ha
        have := ih.node j
        rw [ih.off j (by rw [hpar]; exact ha)] at this
        exact this
      have hnp : ¬Above t.parentOf i p := fun ha => by have := ha.le hd; omega
      refine ⟨fun j => ?_, fun j c ha => ?_, fun j ha => ?_, ?_, ih.length.trans hlen⟩
      · by_cases hj : j = i
        · subst hj
          rw [hoff j hnp, hself]
        · have := ih.node j
          rwa [hne j hj] at this
      · rcases (habove j).1 ha with rfl | ha
        · rw [hoff j hnp, hself]; exact hsub c
        · rw [ih.at_ j c (by rw [hpar]; exact ha), hne j (hbelow j ha)]
      · have ha' := fun h => ha ((habove j).2 h)
        rw [hoff j fun h => ha' (.inr h), hne j fun h => ha' (.inl h)]
      · exact ih.rest.trans (hrest _)

/-- `propagate`, exactly. -/
theorem propagate_spec {t : DirTree} {i : Nat} {d : Delta} (hd : Down t.parentOf) (hl : i < t.nodes.length)
    (hb : t.Fits i d.get) : Propagated t i d.get (t.propagate i d) := by
  unfold propagate
  split
  · rename_i hz
    have hz := Delta.isZero_iff.1 hz
    exact ⟨fun _ => rfl, fun j c _ => by rw [hz c]; omega, fun _ _ => rfl, rfl, rfl⟩
  · exact propagateUp_spec d _ i t hd (Nat.lt_succ_self i) hl hb

/-! ## Balance -/

/-- The sum of `f` over the children of `i`. -/
def overChildren (t : DirTree) (i : Nat) (f : DirNode → Int) : Int :=
  ((t.node i).children.map fun j => f (t.node j)).sum

/-- What `sub` holds beyond `direct` and the children's `sub`. -/
def surplus (t : DirTree) (i : Nat) (c : Component) : Int :=
  (t.node i).sub.get c - (t.node i).direct.get c - t.overChildren i fun n => n.sub.get c

/-- Every alive directory is rolled up, once `n` gets what it is owed. -/
def Balanced (t : DirTree) (n : Nat) (owed : Component → Int) : Prop :=
  ∀ i, (t.node i).alive = true → ∀ c, 0 ≤ t.surplus i c + (if i = n then owed c else 0) ∧
    ((t.node i).isSealed = false → t.surplus i c + (if i = n then owed c else 0) = 0)

/-- `sub` is `direct` plus the children's `sub`, and at least that in a sealed directory. -/
def RolledUp (t : DirTree) : Prop :=
  ∀ i, (t.node i).alive = true → ∀ c, 0 ≤ t.surplus i c ∧ ((t.node i).isSealed = false → t.surplus i c = 0)

end DirTree

/-! ## Sums over child lists -/

theorem sum_map_single {f : Nat → Int} {x : Nat} : ∀ {l : List Nat}, l.Nodup → x ∈ l → (∀ y ∈ l, y ≠ x → f y = 0) →
    (l.map f).sum = f x
  | [], _, hx, _ => absurd hx (List.not_mem_nil)
  | y :: l, hn, hx, hz => by
    rw [List.nodup_cons] at hn
    rw [List.map_cons, List.sum_cons]
    rcases List.mem_cons.1 hx with rfl | hx
    · have h0 : (l.map f).sum = 0 := List.sum_eq_zero fun z hz' => by
        obtain ⟨w, hw, rfl⟩ := List.mem_map.1 hz'
        exact hz w (List.mem_cons_of_mem _ hw) fun he => hn.1 (he ▸ hw)
      rw [h0, add_zero]
    · rw [hz y (List.mem_cons_self ..) fun he => hn.1 (he ▸ hx), zero_add,
        sum_map_single hn.2 hx fun z hz' => hz z (List.mem_cons_of_mem _ hz')]

theorem sum_map_filter_ne {f : Nat → Int} {x : Nat} : ∀ {l : List Nat}, l.Nodup → x ∈ l →
    ((l.filter (· ≠ x)).map f).sum = (l.map f).sum - f x
  | [], _, hx => absurd hx (List.not_mem_nil)
  | y :: l, hn, hx => by
    rw [List.nodup_cons] at hn
    rw [List.map_cons, List.sum_cons]
    rcases List.mem_cons.1 hx with rfl | hx
    · rw [List.filter_cons_of_neg (by simp), List.filter_eq_self.2 fun z hz => by
        have : z ≠ x := fun he => hn.1 (he ▸ hz)
        simpa using this]
      omega
    · have hy : y ≠ x := fun he => hn.1 (he ▸ hx)
      rw [List.filter_cons_of_pos (by simpa using hy), List.map_cons, List.sum_cons, sum_map_filter_ne hn.2 hx]
      omega

namespace DirTree

theorem overChildren_congr {t u : DirTree} {i : Nat} {f : DirNode → Int}
    (hc : (u.node i).children = (t.node i).children) (hf : ∀ j ∈ (t.node i).children, f (u.node j) = f (t.node j)) :
    u.overChildren i f = t.overChildren i f := by
  unfold overChildren
  rw [hc, List.map_congr_left hf]

theorem overChildren_nonneg {t : DirTree} {i : Nat} {f : DirNode → Int} (hf : ∀ n, 0 ≤ f n) : 0 ≤ t.overChildren i f :=
  List.sum_nonneg fun x hx => by
    obtain ⟨j, -, rfl⟩ := List.mem_map.1 hx
    exact hf _

theorem le_overChildren {t : DirTree} {i j : Nat} {f : DirNode → Int} (hf : ∀ n, 0 ≤ f n)
    (hj : j ∈ (t.node i).children) : f (t.node j) ≤ t.overChildren i f :=
  List.single_le_sum (fun x hx => by
    obtain ⟨k, -, rfl⟩ := List.mem_map.1 hx
    exact hf _) _ (List.mem_map_of_mem hj)

/-- Totals depend on nothing but these fields. -/
theorem surplus_congr {t u : DirTree} {i : Nat} (hsub : (u.node i).sub = (t.node i).sub)
    (hdir : (u.node i).direct = (t.node i).direct) (hc : (u.node i).children = (t.node i).children)
    (hk : ∀ j ∈ (t.node i).children, (u.node j).sub = (t.node j).sub) (c : Component) : u.surplus i c = t.surplus i c := by
  unfold surplus
  rw [hsub, hdir, overChildren_congr hc fun j hj => by rw [hk j hj]]

end DirTree

namespace Shape

variable {t : DirTree}

theorem alive_of_above (h : Shape t) {a i : Nat} (ha : Above t.parentOf a i) (hi : (t.node i).alive = true) :
    (t.node a).alive = true := by
  induction ha with
  | refl => exact hi
  | step hp _ ih => exact ih (h.listed _ _ hi hp).1

theorem root_above (h : Shape t) : ∀ {i : Nat}, i < t.nodes.length → Above t.parentOf 0 i := by
  intro i
  induction i using Nat.strong_induction_on with
  | _ i ih =>
    intro hi
    rcases Nat.eq_zero_or_pos i with rfl | hpos
    · exact .refl
    · obtain ⟨p, hp⟩ := h.hasParent i hpos hi
      have hlt := h.down i p hp
      exact .step hp (ih p hlt (Nat.lt_trans hlt hi))

/-- Among the children of an alive node at most one is at or above `n`: exactly one when the node
is strictly above. -/
theorem sum_above (h : Shape t) {i n : Nat} (hi : (t.node i).alive = true) (hn : (t.node n).alive = true)
    (x : Int) [∀ j, Decidable (Above t.parentOf j n)] :
    ((t.node i).children.map fun j => if Above t.parentOf j n then x else 0).sum =
      if Above t.parentOf i n ∧ i ≠ n then x else 0 := by
  by_cases ha : Above t.parentOf i n ∧ i ≠ n
  · rw [if_pos ha]
    obtain ⟨k, hk, hkn⟩ := ha.1.child ha.2
    have hka := h.alive_of_above hkn hn
    rw [sum_map_single (h.nodup hi) ((h.mem_children hka hi).2 hk) fun j hj hjk => ?_, if_pos hkn]
    rw [if_neg fun hjn => hjk ?_]
    exact sibling_unique h.down (h.child i hi j hj).2 hk hjn hkn
  · rw [if_neg ha]
    refine List.sum_eq_zero fun y hy => ?_
    obtain ⟨j, hj, rfl⟩ := List.mem_map.1 hy
    rw [if_neg fun hjn => ha ?_]
    have hp := (h.child i hi j hj).2
    have hlt := h.down j i hp
    refine ⟨(Above.step hp .refl).trans hjn, fun he => ?_⟩
    have := hjn.le h.down
    omega

end Shape

/-! ## What changes a surplus -/

namespace DirTree

variable {t u : DirTree} {n : Nat}

/-- What is propagated from a directory adds to its own surplus only. -/
theorem surplus_propagated (h : Shape t) (hn : (t.node n).alive = true) {d : Component → Int} (hp : Propagated t n d u) {i : Nat}
    (hi : (t.node i).alive = true) (c : Component) : u.surplus i c = t.surplus i c + if i = n then d c else 0 := by
  classical
  have hsub : ∀ j c, ((u.node j).sub.get c : Int) = (t.node j).sub.get c + if Above t.parentOf j n then d c else 0 := by
    intro j c
    by_cases hj : Above t.parentOf j n
    · rw [if_pos hj]; exact hp.at_ j c hj
    · rw [if_neg hj, hp.off j hj, add_zero]
  have hchildren : (u.node i).children = (t.node i).children := by rw [hp.node i]
  have hkids : u.overChildren i (fun m => m.sub.get c) = t.overChildren i (fun m => m.sub.get c) +
      if Above t.parentOf i n ∧ i ≠ n then d c else 0 := by
    rw [← h.sum_above hi hn (d c)]
    unfold overChildren
    rw [hchildren, ← List.sum_map_add]
    exact congrArg List.sum (List.map_congr_left fun j _ => hsub j c)
  have hdir : (u.node i).direct = (t.node i).direct := by rw [hp.node i]
  unfold surplus
  rw [hkids, hsub, hdir]
  by_cases hin : i = n
  · subst hin
    simp only [ne_eq, not_true_eq_false, and_false, if_false, Above.refl, if_true]
    omega
  · by_cases ha : Above t.parentOf i n
    · simp only [ha, hin, ne_eq, not_false_eq_true, and_self, if_true, if_false]; omega
    · simp only [ha, hin, false_and, if_false]; omega

/-- What comes into `direct` goes out of the surplus. -/
theorem surplus_setDirect (t : DirTree) (direct : Tally) (hn : n < t.nodes.length) (i : Nat) (c : Component) :
    (t.modifyNode n fun m => { m with direct := direct }).surplus i c =
      t.surplus i c - if i = n then (direct.get c : Int) - (t.node n).direct.get c else 0 := by
  have hself : (t.modifyNode n fun m => { m with direct := direct }).node n = { t.node n with direct := direct } :=
    node_modifyNode_self hn _
  have hsub : ∀ j, ((t.modifyNode n fun m => { m with direct := direct }).node j).sub = (t.node j).sub := by
    intro j
    rw [node_modifyNode]; split <;> rfl
  by_cases hin : i = n
  · subst hin
    rw [if_pos rfl]
    unfold surplus
    rw [overChildren_congr (t := t) (by rw [hself]) fun j _ => by rw [hsub j], hself]
    simp only
    omega
  · have hnode : (t.modifyNode n fun m => { m with direct := direct }).node i = t.node i := node_modifyNode_of_ne hin _
    rw [if_neg hin, sub_zero]
    exact surplus_congr (by rw [hnode]) (by rw [hnode]) (by rw [hnode]) (fun j _ => hsub j) c

/-- What a dropped child held is its parent's surplus. -/
theorem surplus_detach (h : Shape t) {child : Nat} (hc : (t.node child).alive = true) (hp : (t.node child).parent = some n) {i : Nat}
    (hi : (t.node i).alive = true) (c : Component) :
    (t.detach child).1.surplus i c = t.surplus i c + if i = n then ((t.node child).sub.get c : Int) else 0 := by
  have hnode := h.node_detach hc hp
  have hsub : ∀ j, ((t.detach child).1.node j).sub = (t.node j).sub := fun j => by rw [hnode]
  have hdir : ((t.detach child).1.node i).direct = (t.node i).direct := by rw [hnode]
  by_cases hin : i = n
  · subst hin
    have hk : (t.detach child).1.overChildren i (fun m => m.sub.get c) =
        t.overChildren i (fun m => m.sub.get c) - (t.node child).sub.get c := by
      unfold overChildren
      rw [h.children_detach hc hp, if_pos rfl]
      simp only [hsub]
      exact sum_map_filter_ne (f := fun j => ((t.node j).sub.get c : Int)) (h.nodup hi) (h.listed child i hc hp).2
    rw [if_pos rfl]
    unfold surplus
    rw [hk, hsub, hdir]
    omega
  · rw [if_neg hin, add_zero]
    exact surplus_congr (hsub i) hdir (by rw [h.children_detach hc hp, if_neg hin]) (fun j _ => hsub j) c

/-- What a grafted child holds comes out of its parent's surplus. -/
theorem surplus_graft_old (h : Shape t) {other : DirTree} (g : Grafted t n other u) (ho : Shape other) {i : Nat}
    (hi : (t.node i).alive = true) (c : Component) :
    u.surplus i c = t.surplus i c - if i = n then ((other.node 0).sub.get c : Int) else 0 := by
  have hil := lt_of_alive hi
  have hold : ∀ j < t.nodes.length, (u.node j).sub = (t.node j).sub := fun j hj => by rw [g.old_eq hj]
  have hkid : ∀ k ∈ (t.node i).children, (u.node k).sub = (t.node k).sub := fun k hk =>
    hold k (lt_of_alive (h.child i hi k hk).1)
  have hdir : (u.node i).direct = (t.node i).direct := by rw [g.old_eq hil]
  by_cases hin : i = n
  · subst hin
    have hk : u.overChildren i (fun m => m.sub.get c) =
        t.overChildren i (fun m => m.sub.get c) + (other.node 0).sub.get c := by
      obtain ⟨pre, post, hl, -, -, he⟩ := g.at_
      have h0 : (u.node t.nodes.length).sub = (other.node 0).sub := by
        have := g.new 0 ho.pos
        rw [Nat.add_zero] at this
        rw [this]; rfl
      have hpre : pre.map (fun j => ((u.node j).sub.get c : Int)) = pre.map fun j => ((t.node j).sub.get c : Int) :=
        List.map_congr_left fun j hj => by
          rw [hkid j (by rw [hl]; exact List.mem_append_left _ hj)]
      have hpost : post.map (fun j => ((u.node j).sub.get c : Int)) = post.map fun j => ((t.node j).sub.get c : Int) :=
        List.map_congr_left fun j hj => by
          rw [hkid j (by rw [hl]; exact List.mem_append_right _ hj)]
      unfold overChildren
      rw [he, hl]
      simp only [List.map_append, List.map_cons, List.sum_append, List.sum_cons, hpre, hpost, h0]
      omega
    rw [if_pos rfl]
    unfold surplus
    rw [hk, hold i hil, hdir]
    omega
  · rw [if_neg hin, sub_zero]
    exact surplus_congr (hold i hil) hdir (g.children_of_ne hil hin) hkid c

/-- A grafted directory keeps its surplus. -/
theorem surplus_graft_new {other : DirTree} (g : Grafted t n other u) (ho : Shape other) {k : Nat} (hk : (other.node k).alive = true)
    (c : Component) : u.surplus (t.nodes.length + k) c = other.surplus k c := by
  have hkl := lt_of_alive hk
  have hkids : u.overChildren (t.nodes.length + k) (fun m => m.sub.get c) = other.overChildren k (fun m => m.sub.get c) := by
    unfold overChildren
    rw [g.children_new hkl, List.map_map]
    refine congrArg List.sum (List.map_congr_left fun j hj => ?_)
    have hj := g.new j (lt_of_alive (ho.child k hk j hj).1)
    rw [Function.comp_apply, Nat.add_comm, hj]
    rfl
  unfold surplus
  rw [hkids, g.new k hkl]
  rfl

end DirTree

namespace DirTree.Balanced

variable {t : DirTree} {n : Nat} {owed : Component → Int}

theorem child_le (hb : t.Balanced n owed) {i j : Nat} (hi : (t.node i).alive = true) (hin : i ≠ n)
    (hj : j ∈ (t.node i).children) (c : Component) : (t.node j).sub.get c ≤ (t.node i).sub.get c := by
  have h1 := (hb i hi c).1
  rw [if_neg hin] at h1
  have h2 := le_overChildren (t := t) (i := i) (f := fun n => (n.sub.get c : Int)) (fun n => Int.natCast_nonneg _) hj
  unfold surplus at h1
  omega

/-- What is owed fits at and above `n`, when it fits at the root. -/
theorem fits (h : Shape t) (hn : (t.node n).alive = true) (hb : t.Balanced n owed)
    (hroot : ∀ c, ((t.node 0).sub.get c : Int) + owed c < 2 ^ 64) : t.Fits n owed := by
  have hstep : ∀ {j p : Nat}, Above t.parentOf j n → (t.node j).parent = some p → ∀ c,
      (t.node j).sub.get c ≤ (t.node p).sub.get c := by
    intro j p hj hp c
    have hja := h.alive_of_above hj hn
    obtain ⟨hpa, hm⟩ := h.listed j p hja hp
    refine hb.child_le hpa (fun he => ?_) hm c
    have := hj.le h.down; have := h.down j p hp; omega
  intro j hj c
  constructor
  · -- at `n` by balance, and upwards because parents hold at least as much
    have hlow : ∀ {i : Nat}, Above t.parentOf i n → Above t.parentOf j i → 0 ≤ ((t.node i).sub.get c : Int) + owed c →
        0 ≤ ((t.node j).sub.get c : Int) + owed c := by
      intro i hi hji
      induction hji with
      | refl => exact id
      | step hp _ ih =>
        intro h0
        have := hstep hi hp c
        exact ih ((Above.step hp .refl).trans hi) (by omega)
    refine hlow .refl hj ?_
    have h1 := (hb n hn c).1
    have h2 := overChildren_nonneg (t := t) (i := n) (f := fun n => (n.sub.get c : Int)) fun n => Int.natCast_nonneg _
    rw [if_pos rfl] at h1
    unfold surplus at h1
    omega
  · have hup : ∀ {i : Nat}, Above t.parentOf 0 i → Above t.parentOf i n → (t.node i).sub.get c ≤ (t.node 0).sub.get c := by
      intro i hi
      induction hi with
      | refl => exact fun _ => Nat.le_refl _
      | step hp _ ih =>
        intro hin
        exact Nat.le_trans (hstep hin hp c) (ih ((Above.step hp .refl).trans hin))
    have h1 := hup (h.root_above (lt_of_alive (h.alive_of_above hj hn))) hj
    have := hroot c
    omega

/-! ## What incurs a debt -/

/-- A directory whose `direct` changes is owed the difference. -/
theorem setDirect (hb : t.Balanced n owed) (direct : Tally) (hn : n < t.nodes.length) :
    (t.modifyNode n fun m => { m with direct := direct }).Balanced n
      fun c => owed c + (direct.get c - (t.node n).direct.get c) := by
  intro i hi c
  have hsame : ((t.modifyNode n fun m => { m with direct := direct }).node i).alive = (t.node i).alive ∧
      ((t.modifyNode n fun m => { m with direct := direct }).node i).isSealed = (t.node i).isSealed := by
    rw [node_modifyNode]
    split <;> exact ⟨rfl, rfl⟩
  have hb := hb i (hsame.1.symm.trans hi) c
  rw [surplus_setDirect t direct hn, hsame.2]
  split at hb
  · rename_i hin
    rw [if_pos hin, if_pos hin]
    dsimp only
    exact ⟨by omega, fun h => by have := hb.2 h; omega⟩
  · rename_i hin
    rw [if_neg hin, if_neg hin]
    exact ⟨by omega, fun h => by have := hb.2 h; omega⟩

/-- A directory that loses a child is owed what the child held, negated. -/
theorem detach (hb : t.Balanced n owed) (h : Shape t) {child : Nat} (hc : (t.node child).alive = true)
    (hp : (t.node child).parent = some n) :
    (t.detach child).1.Balanced n fun c => owed c - (t.node child).sub.get c := by
  intro i hi c
  have hia := ((h.alive_detach hc hp i).1 hi).1
  have hseal : ((t.detach child).1.node i).isSealed = (t.node i).isSealed := by rw [h.node_detach hc hp]
  have hb := hb i hia c
  rw [hseal, surplus_detach h hc hp hia]
  split at hb
  · rename_i hin
    rw [if_pos hin, if_pos hin]
    dsimp only
    exact ⟨by omega, fun h => by have := hb.2 h; omega⟩
  · rename_i hin
    rw [if_neg hin, if_neg hin]
    exact ⟨by omega, fun h => by have := hb.2 h; omega⟩

end DirTree.Balanced

/-! ## Down from the root -/

/-- A directory holds at most what the directories above it hold. -/
theorem sub_le_above {t : DirTree} (h : Shape t) {c : Component} (hs : ∀ i, (t.node i).alive = true → 0 ≤ t.surplus i c)
    {a i : Nat} (ha : Above t.parentOf a i) (hi : (t.node i).alive = true) : (t.node i).sub.get c ≤ (t.node a).sub.get c := by
  induction ha with
  | refl => exact le_rfl
  | @step i p hp _ ih =>
    obtain ⟨hpa, hm⟩ := h.listed i p hi hp
    have hle := DirTree.le_overChildren (t := t) (i := p) (f := fun n => (n.sub.get c : Int)) (fun n => Int.natCast_nonneg _) hm
    have hsur := hs p hpa
    unfold DirTree.surplus at hsur
    have := ih hpa
    omega

/-- A rolled up directory holds at least what sits directly in it, and no more than the root. -/
theorem DirTree.RolledUp.le_root (hr : t.RolledUp) (h : Shape t) {i : Nat} (hi : (t.node i).alive = true) (c : Component) :
    (t.node i).direct.get c ≤ (t.node i).sub.get c ∧ (t.node i).sub.get c ≤ (t.node 0).sub.get c := by
  constructor
  · have hsurplus := (hr i hi c).1
    have hkids := DirTree.overChildren_nonneg (t := t) (i := i) (f := fun n => (n.sub.get c : Int)) fun n => Int.natCast_nonneg _
    unfold DirTree.surplus at hsurplus
    omega
  · exact sub_le_above h (fun j hj => (hr j hj c).1) (h.root_above (DirTree.lt_of_alive hi)) hi

end StorageHarvester
