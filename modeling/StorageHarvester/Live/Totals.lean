/-
The roll-up of totals over re-reads. A re-read leaves every directory with what it counted beyond its
entries and its subdirectories; the one read has beyond them the subtrees there were no nodes for.
Nothing clamps while totals are below the limits and no file written through is counted in a
directory the same re-read drops.
-/
import StorageHarvester.Live.Cap
import StorageHarvester.Live.Holders

namespace StorageHarvester

open Forest

/-! ## Changes paid at once -/

/-- Two trees with the same directories, each with the same figures beyond its entries and its
subdirectories, and nothing clamped between them. -/
structure SameSurplus (t u : DirTree) : Prop where
  shape : SameShape t u
  state : SameState t u
  surplus : ∀ i, (t.node i).alive = true → ∀ c, u.surplus i c = t.surplus i c
  clamped : u.clamped = t.clamped

namespace SameSurplus

variable {t u v : DirTree}

theorem refl (t : DirTree) : SameSurplus t t := ⟨.refl t, sameState_frame.refl t, fun _ _ _ => rfl, rfl⟩

theorem trans (h : SameSurplus t u) (h' : SameSurplus u v) : SameSurplus t v :=
  ⟨h.shape.trans h'.shape, sameState_frame.trans h.state h'.state,
    fun i hi c => (h'.surplus i ((h.shape.alive i).trans hi) c).trans (h.surplus i hi c), h'.clamped.trans h.clamped⟩

theorem rolledUp (h : SameSurplus t u) (hr : t.RolledUp) : u.RolledUp := by
  intro i hi c
  rw [h.shape.alive] at hi
  rw [h.surplus i hi c, (h.state i).2]
  exact hr i hi c

/-- Figures are kept where no tally and no list of children is touched. -/
theorem of_tallies (hs : SameShape t u) (hstate : SameState t u) (hsub : ∀ i, (u.node i).sub = (t.node i).sub)
    (hdirect : ∀ i, (u.node i).direct = (t.node i).direct) (hc : u.clamped = t.clamped) : SameSurplus t u :=
  ⟨hs, hstate, fun i _ c => DirTree.surplus_congr (hsub i) (hdirect i) (hs.children i) (fun j _ => hsub j) c, hc⟩

end SameSurplus

section Grow

variable {t : DirTree} {n : Nat}

/-- What is put into a directory and propagated from it keeps the totals rolled up. -/
theorem sameSurplus_grow (h : Shape t) (hr : t.RolledUp) (hn : (t.node n).alive = true) {d : Delta}
    (hd : ∀ c, 0 ≤ ((t.node n).direct.get c : Int) + d.get c) (hroot : ∀ c, ((t.node 0).sub.get c : Int) + d.get c < 2 ^ 64) :
    SameSurplus t (t.grow n d) ∧ ∀ c, (((t.grow n d).node 0).sub.get c : Int) = (t.node 0).sub.get c + d.get c := by
  have hnl := DirTree.lt_of_alive hn
  have hsame := DirTree.sameShape_applyDirect t n d
  have hput : ∀ c, (((t.node n).direct.apply d).get c : Int) = (t.node n).direct.get c + d.get c := fun c => by
    have hle := hr.le_root h hn c
    have := hroot c
    exact Tally.get_apply_eq (hd c) (by omega)
  have hnode : ∀ i, (t.applyDirect n d).node i =
      (t.modifyNode n fun m => { m with direct := (t.node n).direct.apply d }).node i := fun i => by
    rw [DirTree.node_applyDirect, DirTree.node_modifyNode]
    split
    · rename_i hi
      rw [hi.1]
    · rfl
  -- in between the directory is owed what was put into it
  have howed : ∀ i c, (t.applyDirect n d).surplus i c = t.surplus i c - if i = n then d.get c else 0 := fun i c => by
    have hset := DirTree.surplus_setDirect t ((t.node n).direct.apply d) hnl i c
    rw [hput] at hset
    have hsame : (t.applyDirect n d).surplus i c =
        (t.modifyNode n fun m => { m with direct := (t.node n).direct.apply d }).surplus i c := by
      unfold DirTree.surplus DirTree.overChildren
      simp only [hnode]
    rw [hsame, hset]
    split <;> omega
  have hsub : ∀ i, ((t.applyDirect n d).node i).sub = (t.node i).sub := fun i => by
    rw [DirTree.node_applyDirect]
    split <;> rfl
  have hstate : SameState t (t.applyDirect n d) := fun i => by
    rw [DirTree.node_applyDirect]
    split <;> exact ⟨rfl, rfl⟩
  have hbalanced : (t.applyDirect n d).Balanced n d.get := by
    intro i hi c
    rw [hsame.alive] at hi
    have hone := hr i hi c
    rw [howed, (hstate i).2]
    split <;> exact ⟨by omega, fun hs => by have := hone.2 hs; omega⟩
  have hshape := h.congr hsame
  have halive : ((t.applyDirect n d).node n).alive = true := (hsame.alive n).trans hn
  have hfits := hbalanced.fits hshape halive fun c => by rw [hsub]; exact hroot c
  have hp : DirTree.Propagated _ n d.get (t.grow n d) :=
    DirTree.propagate_spec hshape.down (hnl.trans_eq hsame.length.symm) hfits
  have hclamped : (t.grow n d).clamped = t.clamped := by
    have hrest := congrArg DirTree.clamped hp.rest
    rw [hrest]
    show (t.clamped || _) = _
    rw [Tally.clamps_eq_false hd, Bool.or_false]
  refine ⟨⟨(sameLinks_grow t n d).shape, sameState_frame.grow t n d, fun i hi c => ?_, hclamped⟩, fun c => ?_⟩
  · rw [DirTree.surplus_propagated hshape halive hp ((hsame.alive i).trans hi), howed]
    split <;> omega
  · rw [hp.at_ 0 c (hshape.root_above (hnl.trans_eq hsame.length.symm)), hsub]

end Grow

/-! ## The steps after the merge -/

section Steps

variable {t : DirTree} {node : Nat}

/-- The listing applied: the directory is paid what its subtree gained and lost. -/
theorem surplus_applyListing (h : Shape t) (hn : (t.node node).alive = true) (direct : Tally) {moved : Delta}
    (hb : t.Balanced node moved.get)
    (hdelta : ∀ c, ((Delta.between (t.node node).direct direct).plus moved).get c =
      (direct.get c : Int) - (t.node node).direct.get c + moved.get c)
    (hroot : ∀ c, ((t.node 0).sub.get c : Int) + ((direct.get c : Int) - (t.node node).direct.get c + moved.get c) < 2 ^ 64) :
    (∀ i, (t.node i).alive = true → ∀ c, (applyListing t node direct moved).surplus i c =
        t.surplus i c + if i = node then moved.get c else 0) ∧
      (applyListing t node direct moved).clamped = t.clamped ∧
      ∀ c, (((applyListing t node direct moved).node 0).sub.get c : Int) =
        (t.node 0).sub.get c + ((direct.get c : Int) - (t.node node).direct.get c + moved.get c) := by
  have hnl := DirTree.lt_of_alive hn
  have hsame := DirTree.sameShape_modifyNode t node (f := fun n => { n with direct := direct }) fun _ => rfl
  have hset := hb.setDirect direct hnl
  have howed := DirTree.surplus_setDirect t direct hnl
  have hsub : ∀ i, ((t.modifyNode node fun n => { n with direct := direct }).node i).sub = (t.node i).sub := fun i => by
    rw [DirTree.node_modifyNode]
    split <;> rfl
  have hclamped : (t.modifyNode node fun n => { n with direct := direct }).clamped = t.clamped := rfl
  unfold applyListing
  generalize (Delta.between (t.node node).direct direct).plus moved = delta at hdelta ⊢
  generalize t.modifyNode node (fun n => { n with direct := direct }) = u at *
  have hshape := h.congr hsame
  have halive : (u.node node).alive = true := (hsame.alive node).trans hn
  have hlen : node < u.nodes.length := hnl.trans_eq hsame.length.symm
  have hpay : u.Balanced node delta.get := by
    have hsum : delta.get = fun c => moved.get c + ((direct.get c : Int) - (t.node node).direct.get c) := funext fun c => by
      rw [hdelta]
      omega
    rw [hsum]
    exact hset
  have hfits := hpay.fits hshape halive fun c => by
    rw [hsub, hdelta]
    exact hroot c
  have hp := DirTree.propagate_spec hshape.down hlen hfits
  refine ⟨fun i hi c => ?_, ?_, fun c => ?_⟩
  · rw [DirTree.surplus_propagated hshape halive hp ((hsame.alive i).trans hi), howed, hdelta]
    split <;> omega
  · have hrest := congrArg DirTree.clamped hp.rest
    exact hrest.trans hclamped
  · rw [hp.at_ 0 c (hshape.root_above hlen), hsub, hdelta]

/-- The growth of the directory's own inode goes to its parent. -/
theorem sameSurplus_applyOwn (h : Shape t) (hr : t.RolledUp) (hn : (t.node node).alive = true) (own : Own)
    (hfit : ∀ p, (t.node node).parent = some p → ∀ c, 0 ≤ ((t.node p).direct.get c : Int) + (grownBy t node own).get c)
    (hroot : ∀ c, ((t.node 0).sub.get c : Int) + (grownBy t node own).get c < 2 ^ 64) :
    SameSurplus t (applyOwn t node own) ∧
      ∀ c, (((applyOwn t node own).node 0).sub.get c : Int) ≤ (t.node 0).sub.get c + max 0 ((grownBy t node own).get c) := by
  have hset : ∀ i, (t.modifyNode node fun n => { n with ownBlocks := own.blocks, ownApparent := own.apparent, mtime := own.mtime }).node i =
      if i = node ∧ node < t.nodes.length then
        { t.node i with ownBlocks := own.blocks, ownApparent := own.apparent, mtime := own.mtime } else t.node i := fun i =>
    DirTree.node_modifyNode t node i _
  have hown : SameSurplus t (t.modifyNode node fun n => { n with ownBlocks := own.blocks, ownApparent := own.apparent, mtime := own.mtime }) := by
    refine .of_tallies (DirTree.sameShape_modifyNode _ _ fun _ => rfl) (fun i => ?_) (fun i => ?_) (fun i => ?_) rfl
    · rw [hset]
      split <;> exact ⟨rfl, rfl⟩
    · rw [hset]
      split <;> rfl
    · rw [hset]
      split <;> rfl
  have hsub : ∀ i, ((t.modifyNode node fun n => { n with ownBlocks := own.blocks, ownApparent := own.apparent, mtime := own.mtime }).node i).sub =
      (t.node i).sub := fun i => by
    rw [hset]
    split <;> rfl
  have hdirect : ∀ i, ((t.modifyNode node fun n => { n with ownBlocks := own.blocks, ownApparent := own.apparent, mtime := own.mtime }).node i).direct =
      (t.node i).direct := fun i => by
    rw [hset]
    split <;> rfl
  unfold applyOwn
  dsimp only
  generalize t.modifyNode node (fun n => { n with ownBlocks := own.blocks, ownApparent := own.apparent, mtime := own.mtime }) = u at *
  split
  · exact ⟨hown, fun c => by rw [hsub]; omega⟩
  · rw [hown.shape.parent node]
    split
    · exact ⟨hown, fun c => by rw [hsub]; omega⟩
    · rename_i p hp
      have hpa := (h.listed node p hn hp).1
      obtain ⟨hgrown, hat⟩ := sameSurplus_grow (h.congr hown.shape) (hown.rolledUp hr) ((hown.shape.alive p).trans hpa)
        (fun c => by rw [hdirect]; exact hfit p hp c) (fun c => by rw [hsub]; exact hroot c)
      exact ⟨hown.trans hgrown, fun c => by rw [hat, hsub]; omega⟩

theorem sub_touch (t : DirTree) (j : Nat) (a : Int) (i : Nat) : ((t.touch j a).node i).sub = (t.node i).sub := by
  rw [DirTree.node_touch]

theorem sameSurplus_touch (t : DirTree) (i : Nat) (a : Int) : SameSurplus t (t.touch i a) :=
  .of_tallies (DirTree.sameShape_touch t i a) (sameState_frame.touch t i a) (sub_touch t i a)
    (direct_touch t i a) (DirTree.clamped_touch t i a)

/-- What some size changes add up to. -/
def writtenAll (writes : List (Nat × Delta)) (c : Component) : Int := (writes.map fun w => w.2.get c).sum

theorem writtenAll_append (writes writes' : List (Nat × Delta)) (c : Component) :
    writtenAll (writes ++ writes') c = writtenAll writes c + writtenAll writes' c := by
  unfold writtenAll
  rw [List.map_append, List.sum_append]

theorem writtenAll_cons (w : Nat × Delta) (writes : List (Nat × Delta)) (c : Component) :
    writtenAll (w :: writes) c = w.2.get c + writtenAll writes c := rfl

/-- Size changes of files in alive directories, each leaving its directory with something. -/
theorem sameSurplus_applyWrites : ∀ (writes : List (Nat × Delta)) (t : DirTree), Shape t → t.RolledUp →
    (∀ w ∈ writes, (t.node w.1).alive = true) →
    (∀ pre, pre <+: writes → ∀ w ∈ pre, ∀ c, 0 ≤ ((t.node w.1).direct.get c : Int) + writtenTo pre w.1 c) →
    (∀ pre, pre <+: writes → ∀ c, ((t.node 0).sub.get c : Int) + writtenAll pre c < 2 ^ 64) →
    SameSurplus t (applyWrites t writes) ∧
      ∀ c, (((applyWrites t writes).node 0).sub.get c : Int) = (t.node 0).sub.get c + writtenAll writes c
  | [], t, _, _, _, _, _ => ⟨.refl t, fun _ => (add_zero _).symm⟩
  | w :: writes, t, h, hr, ha, hd, hroot => by
    have hwa := ha w (List.mem_cons_self ..)
    have hfirst : [w] <+: w :: writes := ⟨writes, rfl⟩
    obtain ⟨hgrown, hat⟩ := sameSurplus_grow h hr hwa (d := w.2)
      (fun c => by
        have := hd [w] hfirst w (List.mem_cons_self ..) c
        rw [writtenTo_cons, if_pos rfl, show writtenTo [] w.1 c = 0 from rfl, add_zero] at this
        exact this)
      (fun c => by
        have := hroot [w] hfirst c
        rw [writtenAll_cons, show writtenAll [] c = 0 from rfl, add_zero] at this
        exact this)
    have hdirect : ∀ i c, (t.node i).alive = true → (((t.grow w.1 w.2).node i).direct.get c : Int) =
        (t.node i).direct.get c + if w.1 = i then w.2.get c else 0 := by
      intro i c hi
      rw [DirTree.direct_grow]
      by_cases hw : i = w.1
      · subst hw
        rw [if_pos ⟨rfl, DirTree.lt_of_alive hwa⟩, if_pos rfl]
        have h1 := hd [w] hfirst w (List.mem_cons_self ..) c
        have h2 := hroot [w] hfirst c
        have h3 := hr.le_root h hwa c
        rw [writtenTo_cons, if_pos rfl, show writtenTo [] w.1 c = 0 from rfl] at h1
        rw [writtenAll_cons, show writtenAll [] c = 0 from rfl] at h2
        exact Tally.get_apply_eq (by omega) (by omega)
      · rw [if_neg fun he => hw he.1, if_neg fun he => hw he.symm, add_zero]
    obtain ⟨hrest, hend⟩ := sameSurplus_applyWrites writes (t.grow w.1 w.2) (h.congr hgrown.shape) (hgrown.rolledUp hr)
      (fun x hx => (hgrown.shape.alive x.1).trans (ha x (List.mem_cons_of_mem _ hx)))
      (fun pre hp x hx c => by
        have := hd (w :: pre) ((List.prefix_cons_inj w).2 hp) x (List.mem_cons_of_mem _ hx) c
        rw [writtenTo_cons] at this
        rw [hdirect x.1 c (ha x (List.mem_cons_of_mem _ (hp.subset hx)))]
        omega)
      (fun pre hp c => by
        have := hroot (w :: pre) ((List.prefix_cons_inj w).2 hp) c
        rw [writtenAll_cons] at this
        rw [hat]
        omega)
    refine ⟨hgrown.trans hrest, fun c => ?_⟩
    show (((applyWrites (t.grow w.1 w.2) writes).node 0).sub.get c : Int) = _
    rw [hend, hat, writtenAll_cons]
    omega

section Hands

variable {here : List Inode}

theorem sameSurplus_relinked (t : DirTree) (links : Table Inode LinkOwner) : SameSurplus t { t with links := links } :=
  .of_tallies (sameShape_of_nodes rfl) (fun _ => ⟨rfl, rfl⟩) (fun _ => rfl) (fun _ => rfl) rfl

/-- A size given to a directory. -/
theorem sameSurplus_given {next : Nat} {size : Component → Int} {d : Delta} (h : Shape t) (hr : t.RolledUp)
    (hn : (t.node next).alive = true) (hpos : ∀ c, 0 ≤ size c) (hd : ∀ c, d.get c = size c)
    (hroot : ∀ c, ((t.node 0).sub.get c : Int) + size c < 2 ^ 64) :
    SameSurplus t (t.grow next d) ∧ ∀ c, (((t.grow next d).node 0).sub.get c : Int) = (t.node 0).sub.get c + size c := by
  obtain ⟨hgrown, hat⟩ := sameSurplus_grow h hr hn (d := d)
    (fun c => by have := hpos c; rw [hd]; omega) (fun c => by rw [hd]; exact hroot c)
  exact ⟨hgrown, fun c => by rw [hat, hd]⟩

theorem sub_relinked (t : DirTree) (links : Table Inode LinkOwner) (i : Nat) :
    (DirTree.node { t with links := links } i).sub = (t.node i).sub := rfl

theorem sameSurplus_hand {h : Handing} (hs : Shape h.tree) (hr : h.tree.RolledUp) {link : Inode × LinkOwner}
    (hsize : ∀ c, link.2.size c < 2 ^ 63) (hroot : ∀ c, ((h.tree.node 0).sub.get c : Int) + link.2.size c < 2 ^ 64) :
    SameSurplus h.tree (h.hand node here link).tree ∧
      ∀ c, (((h.hand node here link).tree.node 0).sub.get c : Int) + writtenAll h.changes c =
          (h.tree.node 0).sub.get c + writtenAll (h.hand node here link).changes c ∧
        writtenAll (h.hand node here link).changes c ≤ writtenAll h.changes c + link.2.size c := by
  have hpos := fun c => link.2.size_nonneg c
  rcases @hand_spec node here h link with ⟨counted, others, -, -, he⟩ | ⟨-, ⟨-, he⟩ | ⟨next, others, hn, he⟩⟩
  · rw [he, sub_relinked]
    exact ⟨sameSurplus_relinked _ _, fun c => ⟨rfl, Int.le_add_of_nonneg_right (hpos c)⟩⟩
  · rw [he]
    exact ⟨.refl _, fun c => ⟨rfl, Int.le_add_of_nonneg_right (hpos c)⟩⟩
  · have htakes := (Bool.and_eq_true_iff.1 (nextOwner_some hn).2).1
    have hsizes := get_handSize hsize
    obtain ⟨hgrown, hat⟩ := sameSurplus_given hs hr htakes hpos hsizes hroot
    generalize Delta.size (asI64 link.2.blocks) (asI64 link.2.apparent) = size at he hgrown hat hsizes
    have hadded : ∀ c, writtenAll (h.changes ++ [(next, size)]) c = writtenAll h.changes c + link.2.size c := fun c => by
      rw [writtenAll_append, writtenAll_cons, hsizes]
      exact congrArg _ (add_zero _)
    generalize h.tree.grow next size = u at he hgrown hat
    rw [he, sub_relinked]
    refine ⟨hgrown.trans (sameSurplus_relinked u _), fun c => ?_⟩
    rw [hat, hadded]
    omega

theorem sameSurplus_hands (links : List (Inode × LinkOwner)) (h : Handing) (hs : Shape h.tree) (hr : h.tree.RolledUp)
    (hsize : ∀ c, handedSize links c < 2 ^ 63) (hroot : ∀ c, ((h.tree.node 0).sub.get c : Int) + handedSize links c < 2 ^ 64) :
    SameSurplus h.tree (links.foldl (Handing.hand node here) h).tree ∧
      ∀ c, (((links.foldl (Handing.hand node here) h).tree.node 0).sub.get c : Int) + writtenAll h.changes c =
          (h.tree.node 0).sub.get c + writtenAll (links.foldl (Handing.hand node here) h).changes c ∧
        writtenAll (links.foldl (Handing.hand node here) h).changes c ≤ writtenAll h.changes c + handedSize links c := by
  induction links generalizing h with
  | nil => exact ⟨.refl h.tree, fun _ => ⟨rfl, (add_zero _).ge⟩⟩
  | cons link links ih =>
    have hcons : ∀ c, handedSize (link :: links) c = link.2.size c + handedSize links c := fun _ => rfl
    have hpos := fun c => handedSize_nonneg links c
    have hlink := fun c => link.2.size_nonneg c
    simp only [hcons] at hsize hroot
    obtain ⟨hone, hat⟩ := @sameSurplus_hand node here h hs hr link (fun c => by have := hsize c; have := hpos c; omega)
      (fun c => by have := hroot c; have := hpos c; omega)
    obtain ⟨hrest, hend⟩ := ih _ (hs.congr hone.shape) (hone.rolledUp hr) (fun c => by have := hsize c; have := hlink c; omega)
      fun c => by have := hroot c; have := hat c; omega
    rw [List.foldl_cons]
    refine ⟨hone.trans hrest, fun c => ?_⟩
    have h1 := hat c; have h2 := hend c
    rw [hcons]
    omega

end Hands

end Steps

end StorageHarvester
