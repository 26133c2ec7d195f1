/-
How a pool's tree adds up: the pool's total is its guests' totals, a guest's its disks'. `Sums` says
it in every component, and `Moved` what a change at one disk does; a change that is carried up to the
pool keeps the sums. What names, children, times and life do to a node leaves its figures alone.
-/
import StorageHarvester.Lvm.Readings
import StorageHarvester.Tree.RollUp

namespace StorageHarvester

open Forest

/-! ## Figures -/

/-- What the sums are made of. -/
def DirNode.figures (n : DirNode) : Option Nat × Nat × Nat × Tally × Tally :=
  (n.parent, n.ownBlocks, n.ownApparent, n.direct, n.sub)

/-- Two trees with the same figures everywhere. -/
structure SameFigures (t u : DirTree) : Prop where
  length : u.nodes.length = t.nodes.length
  figures : ∀ i, (u.node i).figures = (t.node i).figures

namespace SameFigures

variable {t u v : DirTree}

theorem refl (t : DirTree) : SameFigures t t := ⟨rfl, fun _ => rfl⟩

theorem trans (h : SameFigures t u) (h' : SameFigures u v) : SameFigures t v :=
  ⟨h'.length.trans h.length, fun i => (h'.figures i).trans (h.figures i)⟩

theorem parent (h : SameFigures t u) (i : Nat) : (u.node i).parent = (t.node i).parent :=
  congrArg Prod.fst (h.figures i)

theorem ownBlocks (h : SameFigures t u) (i : Nat) : (u.node i).ownBlocks = (t.node i).ownBlocks :=
  congrArg (fun s => s.2.1) (h.figures i)

theorem ownApparent (h : SameFigures t u) (i : Nat) : (u.node i).ownApparent = (t.node i).ownApparent :=
  congrArg (fun s => s.2.2.1) (h.figures i)

theorem direct (h : SameFigures t u) (i : Nat) : (u.node i).direct = (t.node i).direct :=
  congrArg (fun s => s.2.2.2.1) (h.figures i)

theorem sub (h : SameFigures t u) (i : Nat) : (u.node i).sub = (t.node i).sub :=
  congrArg (fun s => s.2.2.2.2) (h.figures i)

theorem parentOf (h : SameFigures t u) : u.parentOf = t.parentOf := funext h.parent

end SameFigures

namespace DirTree

theorem sameFigures_modifyNode (t : DirTree) (i : Nat) {f : DirNode → DirNode} (hf : ∀ n, (f n).figures = n.figures) :
    SameFigures t (t.modifyNode i f) := by
  refine ⟨length_modifyNode t i f, fun j => ?_⟩
  rw [node_modifyNode]
  split
  · exact hf _
  · rfl

theorem sameFigures_markDead (t : DirTree) (fuel : Nat) (stack : List Nat) :
    SameFigures t { t with nodes := markDead fuel stack t.nodes } := by
  refine ⟨length_markDead _ _ _, fun j => ?_⟩
  show ((markDead fuel stack t.nodes).getD j default).figures = _
  rw [getD_markDead]
  split <;> rfl

theorem sameFigures_detach (t : DirTree) (child : Nat) : SameFigures t (t.detach child).1 := by
  have hdead : ∀ t₁ : DirTree, SameFigures t t₁ →
      SameFigures t { t₁ with nodes := markDead t₁.nodes.length [child] t₁.nodes } :=
    fun t₁ h => h.trans (sameFigures_markDead t₁ _ _)
  unfold detach
  cases (t.node child).parent with
  | none =>
    have h := hdead t (.refl t)
    exact ⟨h.length, h.figures⟩
  | some p =>
    have h := hdead _ (sameFigures_modifyNode t p (f := fun n =>
      { n with children := n.children.filter (· ≠ child) }) fun _ => rfl)
    exact ⟨h.length, h.figures⟩

theorem sameFigures_foldl_detach (children : List Nat) : ∀ t : DirTree,
    SameFigures t (children.foldl (fun t child => (t.detach child).1) t) := by
  induction children with
  | nil => exact SameFigures.refl
  | cons c rest ih => exact fun t => (sameFigures_detach t c).trans (ih _)

theorem sameFigures_attach (t : DirTree) (parent child : Nat) : SameFigures t (t.attach parent child) :=
  sameFigures_modifyNode t parent fun _ => rfl

theorem sameFigures_touch (t : DirTree) (i : Nat) (a : Int) : SameFigures t (t.touch i a) :=
  ⟨length_touch t i a, fun j => by rw [node_touch]; rfl⟩

/-! ## Grafting -/

variable {t other : DirTree} {under : Nat}

/-- Up to names, children and times, `graft` appends the other tree's nodes renumbered. -/
theorem sameFigures_graft (t : DirTree) (under : Nat) (other : DirTree) :
    SameFigures
      { t with nodes := t.nodes ++ other.nodes.map (graftNode under t.nodes.length ((t.node under).depth + 1)) }
      (t.graft under other).1 := by
  have h := (sameFigures_attach { t with
    nodes := t.nodes ++ other.nodes.map (graftNode under t.nodes.length ((t.node under).depth + 1)) }
      under t.nodes.length).trans (sameFigures_touch _ under (other.node 0).newest)
  exact ⟨h.length, h.figures⟩

theorem figures_graft_old {j : Nat} (hj : j < t.nodes.length) :
    ((t.graft under other).1.node j).figures = (t.node j).figures := by
  rw [(sameFigures_graft t under other).figures j]
  show ((t.nodes ++ other.nodes.map _).getD j default).figures = _
  rw [getD_append_map, if_pos hj]
  rfl

theorem figures_graft_new {k : Nat} (hk : k < other.nodes.length) :
    ((t.graft under other).1.node (t.nodes.length + k)).figures =
      (graftNode under t.nodes.length 0 (other.node k)).figures := by
  rw [(sameFigures_graft t under other).figures]
  show ((t.nodes ++ other.nodes.map _).getD _ default).figures = _
  rw [getD_append_map, if_neg (by omega), if_pos (by omega), Nat.add_sub_cancel_left]
  rfl

theorem down_graft (hd : Down t.parentOf) (ho : Down other.parentOf) (hu : under < t.nodes.length) :
    Down (t.graft under other).1.parentOf := by
  intro j p hp
  rcases Nat.lt_or_ge j t.nodes.length with hj | hj
  · have := @figures_graft_old t other under j hj
    exact hd j p ((congrArg Prod.fst this).symm.trans hp)
  · obtain ⟨k, rfl⟩ := Nat.exists_eq_add_of_le hj
    by_cases hk : k < other.nodes.length
    · have hf := congrArg Prod.fst (@figures_graft_new t other under k hk)
      have hp := hf.symm.trans hp
      simp only [graftNode, DirNode.figures] at hp
      cases hq : (other.node k).parent with
      | none =>
        rw [hq] at hp
        cases hp
        omega
      | some q =>
        rw [hq] at hp
        cases hp
        have := ho k q hq
        omega
    · rw [parentOf, node_of_le (by rw [length_graft]; omega)] at hp
      cases hp

end DirTree

namespace Lvm

/-! ## Sums -/

/-- A node's total: what is below it, and its own inode. -/
def totalAt (t : DirTree) (n : Nat) (c : Component) : Nat :=
  (t.node n).sub.get c + sizeAt (t.node n).ownBlocks (t.node n).ownApparent c

/-- A node with no bytes of its own. -/
structure Bare (n : DirNode) : Prop where
  ownBlocks : n.ownBlocks = 0
  ownApparent : n.ownApparent = 0
  blocks : n.direct.blocks = 0
  apparent : n.direct.apparent = 0

/-- The pool's total is its guests' totals, and a guest's its disks'. -/
structure Sums (t : DirTree) (guests : List Guest) : Prop where
  down : Down t.parentOf
  root : (t.node 0).parent = none
  guest : ∀ g ∈ guests, (t.node g.node).parent = some 0
  disk : ∀ g ∈ guests, ∀ d ∈ g.disks, (t.node d.node).parent = some g.node
  guests_nodup : (guests.map Guest.node).Nodup
  disks_nodup : ((disksOf guests).map Disk.node).Nodup
  bareRoot : Bare (t.node 0)
  bareGuest : ∀ g ∈ guests, Bare (t.node g.node)
  rootSum : ∀ c, (t.node 0).sub.get c =
    (t.node 0).direct.get c + (guests.map fun g => (t.node g.node).sub.get c).sum
  guestSum : ∀ g ∈ guests, ∀ c, (t.node g.node).sub.get c =
    (t.node g.node).direct.get c + (g.disks.map fun d => totalAt t d.node c).sum
  small : ∀ c, (t.node 0).sub.get c < 2 ^ 63

/-- A change at one disk, under way: its node, or the new one in its place, has moved by `by_`, and
the guest and the pool by `paid`. -/
structure Moving (t u : DirTree) (guest disk new : Nat) (by_ paid : Component → Int) : Prop where
  down : Down u.parentOf
  fresh : new = disk ∨ t.nodes.length ≤ new
  parent : (u.node new).parent = some guest
  total : ∀ c, (totalAt u new c : Int) = totalAt t disk c + by_ c
  off : ∀ j < t.nodes.length, j ≠ disk → j ≠ guest → j ≠ 0 → (u.node j).figures = (t.node j).figures
  on : ∀ j, j = 0 ∨ j = guest → (u.node j).figures = { t.node j with sub := (u.node j).sub }.figures
  sub : ∀ j, j = 0 ∨ j = guest → ∀ c, ((u.node j).sub.get c : Int) = (t.node j).sub.get c + paid c

/-- A change at one disk, carried up to the pool. -/
structure Moved (t u : DirTree) (guest disk new : Nat) (by_ : Component → Int) : Prop
    extends Moving t u guest disk new by_ by_ where
  small : ∀ c, (u.node 0).sub.get c < 2 ^ 63

theorem lt_of_parent {t : DirTree} {i p : Nat} (h : (t.node i).parent = some p) : i < t.nodes.length := by
  by_contra hn
  rw [DirTree.node_of_le (Nat.le_of_not_lt hn)] at h
  cases h

theorem totalAt_congr {t u : DirTree} {i : Nat} (h : (u.node i).figures = (t.node i).figures) (c : Component) :
    totalAt u i c = totalAt t i c := by
  simp only [DirNode.figures, Prod.mk.injEq] at h
  unfold totalAt
  rw [h.2.1, h.2.2.1, h.2.2.2.2]

theorem Bare.congr {m n : DirNode} (h : Bare n) (hf : m.figures = { n with sub := m.sub }.figures) : Bare m := by
  simp only [DirNode.figures, Prod.mk.injEq] at hf
  obtain ⟨-, hb, ha, hd, -⟩ := hf
  exact ⟨hb.trans h.ownBlocks, ha.trans h.ownApparent, by rw [hd]; exact h.blocks, by rw [hd]; exact h.apparent⟩

theorem disksOf_append (gs hs : List Guest) : disksOf (gs ++ hs) = disksOf gs ++ disksOf hs := List.flatMap_append

theorem disksOf_split (pre post : List Guest) {g : Guest} {dpre dpost : List Disk} {d : Disk}
    (hd : g.disks = dpre ++ d :: dpost) :
    disksOf (pre ++ g :: post) = (disksOf pre ++ dpre) ++ d :: (dpost ++ disksOf post) := by
  rw [disksOf_append]
  simp [disksOf, hd]

theorem forall_mem_split {α : Type} {P : α → Prop} {pre post : List α} {b : α} :
    (∀ x ∈ pre ++ b :: post, P x) ↔ P b ∧ ∀ x ∈ pre ++ post, P x := by
  simp only [List.mem_append, List.mem_cons]
  constructor
  · intro h
    exact ⟨h b (.inr (.inl rfl)), fun x hx => h x (hx.imp id .inr)⟩
  · rintro ⟨hb, h⟩ x (hx | rfl | hx)
    · exact h x (.inl hx)
    · exact hb
    · exact h x (.inr hx)

namespace Sums

variable {t u : DirTree} {guests pre post : List Guest} {g : Guest} {dpre dpost : List Disk} {d d' : Disk}
  {by_ : Component → Int}

theorem guest_pos (h : Sums t guests) (hg : g ∈ guests) : 0 < g.node := h.down _ _ (h.guest g hg)

theorem parent_of_mem (h : Sums t guests) {x : Disk} (hx : x ∈ disksOf guests) :
    ∃ g ∈ guests, (t.node x.node).parent = some g.node := by
  obtain ⟨g, hg, hx⟩ := mem_disksOf.1 hx
  exact ⟨g, hg, h.disk g hg x hx⟩

/-- A disk's node is no guest's, and not the pool's. -/
theorem disk_ne (h : Sums t guests) {x : Disk} (hx : x ∈ disksOf guests) :
    x.node ≠ 0 ∧ ∀ y ∈ guests, x.node ≠ y.node := by
  obtain ⟨g, hg, hp⟩ := h.parent_of_mem hx
  constructor
  · intro he
    rw [he, h.root] at hp
    cases hp
  · intro y hy he
    rw [he, h.guest y hy] at hp
    have := h.guest_pos hg
    rw [← Option.some.inj hp] at this
    exact absurd this (Nat.lt_irrefl 0)

section Other

variable (h : Sums t (pre ++ g :: post)) (hd : g.disks = dpre ++ d :: dpost)
  (m : Moved t u g.node d.node d'.node by_)
include h hd m

theorem other_guest {x : Guest} (hx : x ∈ pre ++ post) : (u.node x.node).figures = (t.node x.node).figures := by
  have hx' : x ∈ pre ++ g :: post := (forall_mem_split (P := (· ∈ pre ++ g :: post)).1 fun _ h => h).2 x hx
  have hdm : d ∈ disksOf (pre ++ g :: post) := by rw [disksOf_split pre post hd]; simp
  have hn := h.guests_nodup
  rw [List.map_append, List.map_cons, List.nodup_middle, List.nodup_cons, ← List.map_append] at hn
  apply m.off _ (lt_of_parent (h.guest x hx'))
  · exact Ne.symm ((h.disk_ne hdm).2 x hx')
  · exact fun he => hn.1 (he ▸ List.mem_map_of_mem hx)
  · exact Nat.ne_of_gt (h.guest_pos hx')

theorem other_disk {x : Disk} (hx : x ∈ (disksOf pre ++ dpre) ++ (dpost ++ disksOf post)) :
    x.node ≠ d.node ∧ x.node < t.nodes.length ∧ (u.node x.node).figures = (t.node x.node).figures := by
  have hsplit := disksOf_split pre post hd
  have hx' : x ∈ disksOf (pre ++ g :: post) := by
    rw [hsplit]
    exact (forall_mem_split (P := (· ∈ (disksOf pre ++ dpre) ++ d :: (dpost ++ disksOf post))).1 fun _ h => h).2 x hx
  have hn := h.disks_nodup
  rw [hsplit, List.map_append, List.map_cons, List.nodup_middle, List.nodup_cons, ← List.map_append] at hn
  obtain ⟨g', -, hp⟩ := h.parent_of_mem hx'
  have hne : x.node ≠ d.node := fun he => hn.1 (he ▸ List.mem_map_of_mem hx)
  refine ⟨hne, lt_of_parent hp, m.off _ (lt_of_parent hp) hne ?_ (h.disk_ne hx').1⟩
  exact (h.disk_ne hx').2 g (by simp)

/-- A change carried up to the pool keeps the sums. -/
theorem moved : Sums u (pre ++ { g with disks := dpre ++ d' :: dpost } :: post) := by
  have hdisks := disksOf_split pre post hd
  have hdisks' : disksOf (pre ++ { g with disks := dpre ++ d' :: dpost } :: post) =
      (disksOf pre ++ dpre) ++ d' :: (dpost ++ disksOf post) := disksOf_split pre post rfl
  obtain ⟨hpg, hpo⟩ := forall_mem_split.1 h.guest
  obtain ⟨hdg, hdo⟩ := forall_mem_split.1 h.disk
  rw [hd] at hdg
  obtain ⟨-, hdg⟩ := forall_mem_split.1 hdg
  obtain ⟨hbg, hbo⟩ := forall_mem_split.1 h.bareGuest
  obtain ⟨hsg, hso⟩ := forall_mem_split.1 h.guestSum
  -- the disks of the guest, and of the other guests, that stay
  have hkeep : ∀ x ∈ dpre ++ dpost, x ∈ (disksOf pre ++ dpre) ++ (dpost ++ disksOf post) := by
    simp only [List.mem_append]
    tauto
  have hkeep' : ∀ y ∈ pre ++ post, ∀ x ∈ y.disks, x ∈ (disksOf pre ++ dpre) ++ (dpost ++ disksOf post) := by
    simp only [List.mem_append]
    rintro y (hy | hy) x hx
    · exact .inl (.inl (mem_disksOf.2 ⟨y, hy, hx⟩))
    · exact .inr (.inr (mem_disksOf.2 ⟨y, hy, hx⟩))
  have hfg := m.on g.node (.inr rfl)
  have hf0 := m.on 0 (.inl rfl)
  refine ⟨m.down, (congrArg Prod.fst hf0).trans h.root, ?guest, ?disk, ?guestsNodup, ?disksNodup, h.bareRoot.congr hf0,
    ?bareGuest, ?rootSum, ?guestSum, m.small⟩
  case guest =>
    refine forall_mem_split.2 ⟨(congrArg Prod.fst hfg).trans hpg, fun x hx => ?_⟩
    exact (congrArg Prod.fst (h.other_guest hd m hx)).trans (hpo x hx)
  case disk =>
    refine forall_mem_split.2 ⟨forall_mem_split.2 ⟨m.parent, fun x hx => ?_⟩, fun y hy x hx => ?_⟩
    · exact (congrArg Prod.fst (h.other_disk hd m (hkeep x hx)).2.2).trans (hdg x hx)
    · exact (congrArg Prod.fst (h.other_disk hd m (hkeep' y hy x hx)).2.2).trans (hdo y hy x hx)
  case guestsNodup => simpa using h.guests_nodup
  case disksNodup =>
    have hn := h.disks_nodup
    rw [hdisks, List.map_append, List.map_cons, List.nodup_middle, List.nodup_cons, ← List.map_append] at hn
    rw [hdisks', List.map_append, List.map_cons, List.nodup_middle, List.nodup_cons, ← List.map_append]
    refine ⟨fun hm => ?_, hn.2⟩
    obtain ⟨x, hx, he⟩ := List.mem_map.1 hm
    have hx := h.other_disk hd m hx
    rcases m.fresh with hf | hf
    · exact hx.1 (he.trans hf)
    · have := hx.2.1
      omega
  case bareGuest =>
    refine forall_mem_split.2 ⟨hbg.congr hfg, fun x hx => (hbo x hx).congr ?_⟩
    have := h.other_guest hd m hx
    simp only [DirNode.figures, Prod.mk.injEq] at this ⊢
    tauto
  case rootSum =>
    intro c
    have hroot := h.rootSum c
    have hdir : (u.node 0).direct = (t.node 0).direct := congrArg (fun s => s.2.2.2.1) hf0
    have hsame : ∀ l : List Guest, (∀ x ∈ l, x ∈ pre ++ post) →
        l.map (fun x => (u.node x.node).sub.get c) = l.map fun x => (t.node x.node).sub.get c := fun l hl =>
      List.map_congr_left fun x hx => by
        rw [show (u.node x.node).sub = (t.node x.node).sub from
          congrArg (fun s => s.2.2.2.2) (h.other_guest hd m (hl x hx))]
    have h0 := m.sub 0 (.inl rfl) c
    have hg := m.sub g.node (.inr rfl) c
    rw [List.map_append, List.map_cons, List.sum_append, List.sum_cons] at hroot ⊢
    rw [hsame pre fun x hx => List.mem_append_left _ hx, hsame post fun x hx => List.mem_append_right _ hx, hdir]
    dsimp only
    omega
  case guestSum =>
    refine forall_mem_split.2 ⟨fun c => ?_, fun x hx c => ?_⟩
    · have hguest := hsg c
      have hdir : (u.node g.node).direct = (t.node g.node).direct := congrArg (fun s => s.2.2.2.1) hfg
      have hsame : ∀ l : List Disk, (∀ x ∈ l, x ∈ dpre ++ dpost) →
          l.map (fun x => totalAt u x.node c) = l.map fun x => totalAt t x.node c := fun l hl =>
        List.map_congr_left fun x hx => totalAt_congr (h.other_disk hd m (hkeep x (hl x hx))).2.2 c
      have hg := m.sub g.node (.inr rfl) c
      have htotal := m.total c
      rw [hd, List.map_append, List.map_cons, List.sum_append, List.sum_cons] at hguest
      show (u.node g.node).sub.get c = (u.node g.node).direct.get c +
        ((dpre ++ d' :: dpost).map fun d => totalAt u d.node c).sum
      rw [List.map_append, List.map_cons, List.sum_append, List.sum_cons, hsame dpre fun x hx => List.mem_append_left _ hx,
        hsame dpost fun x hx => List.mem_append_right _ hx, hdir]
      omega
    · have hf := h.other_guest hd m hx
      have hsame : x.disks.map (fun y => totalAt u y.node c) = x.disks.map fun y => totalAt t y.node c :=
        List.map_congr_left fun y hy => totalAt_congr (h.other_disk hd m (hkeep' x hx y hy)).2.2 c
      rw [show (u.node x.node).sub = (t.node x.node).sub from congrArg (fun s => s.2.2.2.2) hf,
        show (u.node x.node).direct = (t.node x.node).direct from congrArg (fun s => s.2.2.2.1) hf, hsame]
      exact hso x hx c

end Other

end Sums

end Lvm

end StorageHarvester
