/-
The roll-up of totals over a whole re-read. The subtrees a merge drops and grafts are paid for by what
it moves; one it has no nodes for is paid for too, and stays with the directory read, which is sealed.
So totals are rolled up in every state of a run, and what was refused a node is counted where it was.
-/
import StorageHarvester.Live.Links
import StorageHarvester.Live.Resolve
import StorageHarvester.Live.Totals
import StorageHarvester.Scan.Refused

namespace StorageHarvester

open Forest

/-! ## Walked subtrees -/

/-- Every walk's total is below the limit. -/
def Answers.SmallTotals (answers : Answers) : Prop :=
  ∀ target tree, answers.walk target = some tree → ∀ c, (tree.node 0).sub.get c < 2 ^ 62

section Walked

variable {sub : DirTree}

/-- A link untaken comes out of all totals above it. -/
theorem sameSurplus_untake (h : Shape sub) (hr : sub.RolledUp) (hs : Solvent sub) (hroot : ∀ c, (sub.node 0).sub.get c < 2 ^ 62)
    {e : Inode × LinkOwner} (hget : sub.links.get e.1 = some e.2) (ha : (sub.node e.2.node).alive = true) :
    SameSurplus sub (untake sub e) ∧ ∀ c, (((untake sub e).node 0).sub.get c : Int) = (sub.node 0).sub.get c - e.2.size c := by
  have hlt := DirTree.lt_of_alive ha
  have hsize := hs.size_le hget hlt
  have hsmall : ∀ c, sizeAt e.2.blocks e.2.apparent c < 2 ^ 63 := fun c => by
    have h1 := hsize c
    have h2 := (hs e.2.node hlt c).2
    unfold LinkOwner.size at h1
    omega
  have hdelta := get_negated hsmall
  have hrelinked := sameSurplus_relinked sub (sub.links.del e.1)
  have hsub := sub_relinked sub (sub.links.del e.1) 0
  have hdirect : (DirTree.node { sub with links := sub.links.del e.1 } e.2.node).direct = (sub.node e.2.node).direct := rfl
  unfold untake
  dsimp only
  generalize Delta.size (wrapI64 (-asI64 e.2.blocks)) (wrapI64 (-asI64 e.2.apparent)) = d at hdelta ⊢
  generalize ({ sub with links := sub.links.del e.1 } : DirTree) = u at *
  have hsum : ∀ c, (e.2.size c : Int) = (sizeAt e.2.blocks e.2.apparent c : Int) := fun _ => rfl
  obtain ⟨hgrown, hat⟩ := sameSurplus_grow (h.congr hrelinked.shape) (hrelinked.rolledUp hr) ((hrelinked.shape.alive _).trans ha) (d := d)
    (fun c => by
      have h1 := hsize c; have h2 := hsum c
      rw [hdirect, hdelta]
      omega)
    (fun c => by
      have h1 := hroot c
      rw [hsub, hdelta]
      omega)
  refine ⟨hrelinked.trans hgrown, fun c => ?_⟩
  have h1 := hat c; have h2 := hsum c
  rw [hsub, hdelta] at h1
  show (((u.grow e.2.node d).node 0).sub.get c : Int) = _
  omega

theorem sameSurplus_untakes (taken : List (Inode × LinkOwner)) (sub : DirTree) (h : Shape sub) (hr : sub.RolledUp) (hs : Solvent sub)
    (hroot : ∀ c, (sub.node 0).sub.get c < 2 ^ 62) (hn : (taken.map Prod.fst).Nodup)
    (hget : ∀ e ∈ taken, sub.links.get e.1 = some e.2) (ha : ∀ e ∈ taken, (sub.node e.2.node).alive = true) :
    SameSurplus sub (taken.foldl untake sub) ∧
      ∀ c, (((taken.foldl untake sub).node 0).sub.get c : Int) = (sub.node 0).sub.get c - handedSize taken c := by
  induction taken generalizing sub with
  | nil => exact ⟨.refl sub, fun c => (sub_zero _).symm⟩
  | cons e taken ih =>
    rw [List.map_cons, List.nodup_cons] at hn
    have he := hget e (List.mem_cons_self ..)
    have hea := ha e (List.mem_cons_self ..)
    obtain ⟨hone, hat⟩ := sameSurplus_untake h hr hs hroot he hea
    have hrest := rest_untake hs he (DirTree.lt_of_alive hea)
    obtain ⟨hall, hend⟩ := ih (untake sub e) (h.congr hone.shape) (hone.rolledUp hr)
      (fun j hj c => by
        rw [hone.shape.length] at hj
        have h1 := hs j hj c
        have h2 := hrest j c
        exact ⟨h2.1.symm ▸ h1.1, h2.2.trans_lt h1.2⟩)
      (fun c => by
        have h1 := hat c; have h2 := hroot c; have h3 := e.2.size_nonneg c
        omega)
      hn.2
      (fun x hx => by
        rw [links_untake, Table.get_del, if_neg, hget x (List.mem_cons_of_mem _ hx)]
        exact fun hxe => hn.1 (hxe ▸ List.mem_map_of_mem hx))
      fun x hx => (hone.shape.alive _).trans (ha x (List.mem_cons_of_mem _ hx))
    rw [List.foldl_cons]
    refine ⟨hone.trans hall, fun c => ?_⟩
    have hcons : handedSize (e :: taken) c = e.2.size c + handedSize taken c := rfl
    rw [hend, hat, hcons]
    omega

/-- A subtree ready to be grafted: its totals are rolled up, and short of what its walk found by the
files the tree counts already. -/
structure WalkedSubtree (target : Target) (answers : Answers) (tree : DirTree) (parent : Nat) (name : Bytes) (sub : DirTree) : Prop where
  rolledUp : sub.RolledUp
  unclamped : sub.clamped = false
  found : ∃ found, answers.walk (walkTarget target answers tree parent name) = some found ∧
    ∀ c, ((sub.node 0).sub.get c : Int) = (found.node 0).sub.get c - handedSize (takenLinks tree found) c

theorem surplus_renameRoot (t : DirTree) (name : Bytes) (i : Nat) (c : Component) : (t.renameRoot name).surplus i c = t.surplus i c := by
  have hnode := t.node_renameRoot name
  exact DirTree.surplus_congr (by rw [hnode]) (by rw [hnode]) (by rw [hnode]) (fun j _ => by rw [hnode]) c

/-- What is ready to be grafted is what the walk found, short of the files the tree counts already. -/
theorem sameSurplus_walkNew {target : Target} {answers : Answers} {tree : DirTree} {parent : Nat} {name : Bytes}
    {shared : List (Inode × List Nat)} {found : DirTree} (hw : answers.FreshWalks) (hs : answers.SmallWalks) (ht : answers.SmallTotals)
    (hf : answers.walk (walkTarget target answers tree parent name) = some found)
    (h : walkNew target answers tree parent name = some (sub, shared)) :
    SameSurplus (found.renameRoot name) sub ∧
      ∀ c, ((sub.node 0).sub.get c : Int) = (found.node 0).sub.get c - handedSize (takenLinks tree found) c := by
  obtain ⟨found', hf', rfl, -⟩ := walkNew_eq_some h
  cases hf'.symm.trans hf
  have hfresh := hw _ _ hf
  have htotal := ht _ _ hf
  have hrolled : found.RolledUp := hfresh.rolledUp fun c => (htotal c).trans (by decide)
  have hnode := found.node_renameRoot name
  have hrenamed : (found.renameRoot name).RolledUp := by
    intro i hi c
    rw [surplus_renameRoot]
    rw [hnode] at hi ⊢
    exact hrolled i hi c
  have hroot : ((found.renameRoot name).node 0).sub = (found.node 0).sub := by rw [hnode]
  have hsub : (takenLinks tree (found.renameRoot name)).Sublist found.links.entries := List.filter_sublist ..
  have hget : ∀ e ∈ takenLinks tree (found.renameRoot name), found.links.get e.1 = some e.2 := fun e he =>
    Table.get_eq_some.2 (hsub.subset he)
  obtain ⟨hsame, hat⟩ := sameSurplus_untakes (takenLinks tree (found.renameRoot name)) (found.renameRoot name)
    (hfresh.shape.renameRoot name) hrenamed (solvent_renameRoot hfresh (hs _ _ hf) name) (fun c => by rw [hroot]; exact htotal c)
    (found.links.nodup.sublist (hsub.map _)) hget fun e he => by
      rw [hnode]
      exact hfresh.alive _ (hfresh.owners _ _ (hget e he))
  exact ⟨hsame, fun c => by rw [hat, hroot]; rfl⟩

theorem walkedSubtree {target : Target} {answers : Answers} {tree : DirTree} {parent : Nat} {name : Bytes}
    {shared : List (Inode × List Nat)} (hw : answers.FreshWalks) (hs : answers.SmallWalks) (ht : answers.SmallTotals)
    (h : walkNew target answers tree parent name = some (sub, shared)) : WalkedSubtree target answers tree parent name sub := by
  obtain ⟨found, hf, -, -⟩ := walkNew_eq_some h
  obtain ⟨hsame, hat⟩ := sameSurplus_walkNew hw hs ht hf h
  have hrolled : found.RolledUp := (hw _ _ hf).rolledUp fun c => (ht _ _ hf c).trans (by decide)
  refine ⟨hsame.rolledUp fun i hi c => ?_, hsame.clamped.trans (hw _ _ hf).unclamped, found, hf, hat⟩
  rw [surplus_renameRoot]
  rw [found.node_renameRoot name] at hi ⊢
  exact hrolled i hi c

end Walked

/-! ## The merge -/

/-- The subtree a listed subdirectory brings that there are no nodes for. -/
def Merge.refuses (target : Target) (answers : Answers) (node : Nat) (m : Merge) (subdir : Subdir) : List DirTree :=
  match walkNew target answers m.st.tree node subdir.name with
  | none => []
  | some (sub, _) => if m.st.tree.nodes.length + sub.nodes.length ≤ target.treeMaxDirectories then [] else [sub]

/-- All those of a merge. -/
def mergeRefused (target : Target) (answers : Answers) (node : Nat) : Nat → List Nat → List Subdir → Merge → List DirTree
  | 0, _, _, _ => []
  | _, [], [], _ => []
  | fuel + 1, child :: children, [], m => mergeRefused target answers node fuel children [] (m.drop child)
  | fuel + 1, [], subdir :: subdirs, m =>
    m.refuses target answers node subdir ++ mergeRefused target answers node fuel [] subdirs (m.add target answers node subdir)
  | fuel + 1, child :: children, subdir :: subdirs, m =>
    match childOrder answers m.st child subdir with
    | .eq => mergeRefused target answers node fuel children subdirs (m.keep child subdir)
    | .lt => mergeRefused target answers node fuel children (subdir :: subdirs) (m.drop child)
    | .gt =>
      m.refuses target answers node subdir ++
        mergeRefused target answers node fuel (child :: children) subdirs (m.add target answers node subdir)

/-- The sum of some trees' totals. -/
def totalsOf (trees : List DirTree) (c : Component) : Int := (trees.map fun t => ((t.node 0).sub.get c : Int)).sum

theorem totalsOf_append (trees trees' : List DirTree) (c : Component) :
    totalsOf (trees ++ trees') c = totalsOf trees c + totalsOf trees' c := by
  simp [totalsOf]

theorem totalsOf_nonneg (trees : List DirTree) (c : Component) : 0 ≤ totalsOf trees c :=
  List.sum_nonneg fun x hx => by
    obtain ⟨t, -, rfl⟩ := List.mem_map.1 hx
    exact Int.natCast_nonneg _

/-- From `t` to `u` the directory `node` dropped `went` and was paid `came`, of which `refused` came without nodes; the others
are as they were, and what is new is rolled up. -/
structure Weighs (node : Nat) (t : DirTree) (went came : List Tally) (refused : List DirTree) (u : DirTree) : Prop where
  length : t.nodes.length ≤ u.nodes.length
  alive : ∀ i < t.nodes.length, (u.node i).alive = true → (t.node i).alive = true
  isSealed : ∀ i < t.nodes.length, (u.node i).isSealed = ((t.node i).isSealed || decide (i = node) && !refused.isEmpty)
  surplus : ∀ i < t.nodes.length, (u.node i).alive = true → ∀ c, u.surplus i c = t.surplus i c +
    if i = node then tallySum c went + totalsOf refused c - tallySum c came else 0
  new : ∀ i, t.nodes.length ≤ i → (u.node i).alive = true → ∀ c,
    0 ≤ u.surplus i c ∧ ((u.node i).isSealed = false → u.surplus i c = 0)
  clamped : u.clamped = t.clamped

namespace Weighs

variable {node : Nat} {t u v : DirTree} {went came went' came' : List Tally} {refused refused' : List DirTree}

theorem refl (node : Nat) (t : DirTree) : Weighs node t [] [] [] t where
  length := le_rfl
  alive _ _ ha := ha
  isSealed i _ := by simp
  surplus i _ _ c := by simp [tallySum, totalsOf]
  new i hi ha := absurd (DirTree.lt_of_alive ha) (Nat.not_lt.2 hi)
  clamped := rfl

theorem trans (h : Weighs node t went came refused u) (h' : Weighs node u went' came' refused' v) (hn : node < t.nodes.length) :
    Weighs node t (went ++ went') (came ++ came') (refused ++ refused') v := by
  have hsum : ∀ (c : Component) (l l' : List Tally), tallySum c (l ++ l') = tallySum c l + tallySum c l' := fun c l l' => by
    simp [tallySum]
  refine ⟨h.length.trans h'.length, fun i hi ha => h.alive i hi (h'.alive i (hi.trans_le h.length) ha), fun i hi => ?_,
    fun i hi ha c => ?_, fun i hi ha c => ?_, h'.clamped.trans h.clamped⟩
  · rw [h'.isSealed i (hi.trans_le h.length), h.isSealed i hi]
    cases (t.node i).isSealed <;> cases decide (i = node) <;> cases refused <;> cases refused' <;> rfl
  · rw [h'.surplus i (hi.trans_le h.length) ha, h.surplus i hi (h'.alive i (hi.trans_le h.length) ha)]
    simp only [hsum, totalsOf_append]
    split <;> omega
  · rcases Nat.lt_or_ge i u.nodes.length with hlt | hge
    · have hua := h'.alive i hlt ha
      have hin : i ≠ node := by omega
      rw [h'.surplus i hlt ha, h'.isSealed i hlt, if_neg hin, decide_eq_false hin, Bool.false_and, Bool.or_false, add_zero]
      exact h.new i hi hua c
    · exact h'.new i hge ha c

/-- Nothing comes or goes. -/
theorem of_same (h : SameSurplus t u) : Weighs node t [] [] [] u where
  length := h.shape.length.ge
  alive i _ ha := (h.shape.alive i).symm.trans ha
  isSealed i _ := by rw [(h.state i).2]; simp
  surplus i _ ha c := by
    rw [h.surplus i ((h.shape.alive i).symm.trans ha)]
    simp [tallySum, totalsOf]
  new i hi ha := absurd (DirTree.lt_of_alive ha) (Nat.not_lt.2 (h.shape.length.le.trans hi))
  clamped := h.clamped

end Weighs

theorem clamped_detach (t : DirTree) (child : Nat) : (t.detach child).1.clamped = t.clamped := by
  unfold DirTree.detach
  dsimp only
  split <;> rfl

theorem clamped_graft (t : DirTree) (under : Nat) (other : DirTree) : (t.graft under other).1.clamped = (t.clamped || other.clamped) := by
  unfold DirTree.graft
  dsimp only
  rw [DirTree.clamped_touch]
  rfl

theorem clamped_shareLinks (start : Nat) (shared : List (Inode × List Nat)) (t : DirTree) :
    (shared.foldl (shareLink start) t).clamped = t.clamped := by
  induction shared generalizing t with
  | nil => rfl
  | cons e shared ih =>
    rw [List.foldl_cons, ih]
    unfold shareLink
    split <;> rfl

/-- A subtree grafted is in the directory's children. -/
theorem weighs_graft {t sub : DirTree} {node : Nat} (h : Shape t)
    (g : DirTree.Grafted t node sub (t.graft node sub).1) (hs : Shape sub) (hr : sub.RolledUp) (hc : sub.clamped = false) :
    Weighs node t [] [(sub.node 0).sub] [] (t.graft node sub).1 := by
  have hone : ∀ c, tallySum c [] + totalsOf [] c - tallySum c [(sub.node 0).sub] = -((sub.node 0).sub.get c : Int) := fun c => by
    simp [tallySum, totalsOf]
  refine ⟨g.length.ge.trans' (Nat.le_add_right _ _), fun i hi ha => (g.alive_old hi).symm.trans ha, fun i hi => ?_,
    fun i hi ha c => ?_, fun i hi ha c => ?_, ?_⟩
  · rw [g.old_eq hi]
    simp
  · rw [DirTree.surplus_graft_old h g hs ((g.alive_old hi).symm.trans ha), hone]
    split <;> omega
  · obtain ⟨k, rfl⟩ := Nat.exists_eq_add_of_le hi
    have hlt := DirTree.lt_of_alive ha
    rw [g.length] at hlt
    have hk : k < sub.nodes.length := by omega
    have hka := (g.alive_new hk).symm.trans ha
    have hseal : ((t.graft node sub).1.node (t.nodes.length + k)).isSealed = (sub.node k).isSealed := by
      rw [g.new k hk]
      rfl
    rw [DirTree.surplus_graft_new g hs hka, hseal]
    exact hr k hka c
  · rw [clamped_graft, hc, Bool.or_false]

/-- A subtree refused nodes stays with the directory, which is sealed. -/
theorem weighs_seal (t sub : DirTree) (node : Nat) :
    Weighs node t [] [(sub.node 0).sub] [sub] (t.modifyNode node fun n => { n with isSealed := true }) := by
  have hshape := DirTree.sameShape_modifyNode t node (f := fun n => { n with isSealed := true }) fun _ => rfl
  have hnode : ∀ i, (t.modifyNode node fun n => { n with isSealed := true }).node i =
      if i = node ∧ node < t.nodes.length then { t.node i with isSealed := true } else t.node i := fun i =>
    DirTree.node_modifyNode t node i _
  have hone : ∀ c, tallySum c [] + totalsOf [sub] c - tallySum c [(sub.node 0).sub] = 0 := fun c => by
    simp [tallySum, totalsOf]
  refine ⟨hshape.length.ge, fun i _ ha => (hshape.alive i).symm.trans ha, fun i hi => ?_, fun i _ _ c => ?_,
    fun i hi ha => ?_, rfl⟩
  · rw [hnode]
    by_cases hin : i = node
    · rw [if_pos ⟨hin, by omega⟩, decide_eq_true hin]
      simp
    · rw [if_neg fun h => hin h.1, decide_eq_false hin]
      simp
  · rw [hone, ite_self, add_zero]
    have htallies : ∀ j, ((t.modifyNode node fun n => { n with isSealed := true }).node j).sub = (t.node j).sub ∧
        ((t.modifyNode node fun n => { n with isSealed := true }).node j).direct = (t.node j).direct := fun j => by
      rw [hnode]
      split <;> exact ⟨rfl, rfl⟩
    exact DirTree.surplus_congr (htallies i).1 (htallies i).2 (hshape.children i) (fun j _ => (htallies j).1) c
  · have hlt := DirTree.lt_of_alive ha
    rw [hshape.length] at hlt
    omega

section Steps

variable {target : Target} {answers : Answers} {node : Nat} {all subdirs : List Subdir} {children : List Nat} {m : Merge}

theorem weighs_keep (m : Merge) (child : Nat) (subdir : Subdir) : Weighs node m.st.tree [] [] [] (m.keep child subdir).st.tree := by
  have hnode : ∀ i, (m.keep child subdir).st.tree.node i = _ := fun i => DirTree.node_modifyNode m.st.tree child i _
  refine .of_same (.of_tallies (sameShape_keep m child subdir) (fun i => ?_) (fun i => ?_) (fun i => ?_) rfl)
  · rw [hnode]
    split <;> exact ⟨rfl, rfl⟩
  · rw [hnode]
    split <;> rfl
  · rw [hnode]
    split <;> rfl

theorem weighs_drop {child : Nat} (h : Merging node all (child :: children) subdirs m) :
    Weighs node m.st.tree [(m.st.tree.node child).sub] [] [] (m.drop child).st.tree := by
  obtain ⟨ha, hp, -, -⟩ := h.child
  have hnode := h.shape.node_detach ha hp
  have halive : ∀ i, ((m.st.tree.detach child).1.node i).alive = true → (m.st.tree.node i).alive = true := fun i hi =>
    ((h.shape.alive_detach ha hp i).1 hi).1
  rw [tree_drop]
  refine ⟨(DirTree.length_detach _ _).ge, fun i _ hi => halive i hi, fun i _ => ?_, fun i _ hi c => ?_, fun i hi hai => ?_,
    clamped_detach _ _⟩
  · rw [hnode]
    simp
  · rw [DirTree.surplus_detach h.shape ha hp (halive i hi)]
    simp [tallySum, totalsOf]
  · have hlt := DirTree.lt_of_alive hai
    rw [DirTree.length_detach] at hlt
    omega

theorem weighs_add (hw : answers.FreshWalks) (hs : answers.SmallWalks) (ht : answers.SmallTotals) {subdir : Subdir}
    (h : Merging node all children (subdir :: subdirs) m)
    (ho : ∀ child ∈ children.head?, childOrder answers m.st child subdir = .gt) :
    Weighs node m.st.tree [] [m.brings target answers node subdir] (m.refuses target answers node subdir)
      (m.add target answers node subdir).st.tree := by
  unfold Merge.brings Merge.refuses Merge.add
  cases hsub : walkNew target answers m.st.tree node subdir.name with
  | none =>
    dsimp only
    have hrefl := Weighs.refl node m.st.tree
    refine ⟨hrefl.length, hrefl.alive, hrefl.isSealed, fun i hi ha c => ?_, hrefl.new, rfl⟩
    have hnone : tallySum c [] + totalsOf [] c - tallySum c [({} : Tally)] = 0 := by
      simp [tallySum, totalsOf]
    rw [hnone, ite_self, add_zero]
  | some p =>
    obtain ⟨sub, shared⟩ := p
    have hwalked := walkNew_walked hw hsub
    have hsubtree := walkedSubtree hw hs ht hsub
    have hfresh := h.fresh (h.ahead ho)
    rw [← hwalked.root] at hfresh
    dsimp only
    split
    · have g := h.shape.graft_spec h.alive hwalked.shape.pos hfresh
      have hgraft := weighs_graft h.shape g hwalked.shape hsubtree.rolledUp hsubtree.unclamped
      have hnodes := nodes_shareLinks m.st.tree.nodes.length shared (m.st.tree.graft node sub).1
      have hclamped := clamped_shareLinks m.st.tree.nodes.length shared (m.st.tree.graft node sub).1
      generalize shared.foldl (shareLink m.st.tree.nodes.length) (m.st.tree.graft node sub).1 = u at hnodes hclamped ⊢
      have hnode : ∀ i, u.node i = (m.st.tree.graft node sub).1.node i := fun i => by
        unfold DirTree.node
        rw [hnodes]
      have hsame : SameSurplus (m.st.tree.graft node sub).1 u :=
        .of_tallies (sameShape_of_nodes hnodes) (fun i => by rw [hnode]; exact ⟨rfl, rfl⟩) (fun i => by rw [hnode])
          (fun i => by rw [hnode]) hclamped
      have hdrained : SameSurplus u { u with handles := [], plain := [] } :=
        .of_tallies (sameShape_of_nodes rfl) (fun _ => ⟨rfl, rfl⟩) (fun _ => rfl) (fun _ => rfl) rfl
      exact hgraft.trans (.of_same (hsame.trans hdrained)) (DirTree.lt_of_alive h.alive)
    · exact weighs_seal m.st.tree sub node

/-- What the merge of a listing weighs. -/
theorem weighs_mergeChildren (hw : answers.FreshWalks) (hs : answers.SmallWalks) (ht : answers.SmallTotals) (fuel : Nat)
    (children : List Nat) (subdirs : List Subdir) (m : Merge) (hl : children.length + subdirs.length ≤ fuel)
    (hm : Merging node all children subdirs m) :
    Weighs node m.st.tree (mergeMoves target answers node fuel children subdirs m).went
      (mergeMoves target answers node fuel children subdirs m).came (mergeRefused target answers node fuel children subdirs m)
      (mergeChildren target answers node fuel children subdirs m).st.tree := by
  fun_induction mergeRefused target answers node fuel children subdirs m with
  | case1 children subdirs m =>
    obtain ⟨rfl, rfl⟩ := MergeJoin.eq_nil_of_length hl
    exact .refl node m.st.tree
  | case2 fuel m => cases fuel <;> exact .refl node m.st.tree
  | case3 fuel child children m ih =>
    rw [mergeChildren, mergeMoves]
    have hrest := ih (by simp only [List.length_cons] at hl ⊢; omega) hm.drop
    exact (weighs_drop hm).trans hrest (DirTree.lt_of_alive hm.alive)
  | case4 fuel subdir subdirs m ih =>
    have ho : ∀ child ∈ ([] : List Nat).head?, childOrder answers m.st child subdir = .gt := fun _ h => by cases h
    rw [mergeChildren, mergeMoves]
    have hrest := ih (by simp only [List.length_cons] at hl ⊢; omega) (hm.add hw (hm.ahead ho))
    exact (weighs_add hw hs ht hm ho).trans hrest (DirTree.lt_of_alive hm.alive)
  | case5 fuel child children subdir subdirs m ho ih =>
    rw [mergeChildren, mergeMoves, ho]
    have hrest := ih (by simp only [List.length_cons] at hl; omega) (hm.keep (childOrder_eq ho).1)
    exact (weighs_keep m child subdir).trans hrest (DirTree.lt_of_alive hm.alive)
  | case6 fuel child children subdir subdirs m ho ih =>
    rw [mergeChildren, mergeMoves, ho]
    have hrest := ih (by simp only [List.length_cons] at hl ⊢; omega) hm.drop
    exact (weighs_drop hm).trans hrest (DirTree.lt_of_alive hm.alive)
  | case7 fuel child children subdir subdirs m ho ih =>
    have ho' : ∀ c ∈ (child :: children).head?, childOrder answers m.st c subdir = .gt := fun c hc => by cases hc; exact ho
    rw [mergeChildren, mergeMoves, ho]
    have hrest := ih (by simp only [List.length_cons] at hl ⊢; omega) (hm.add hw (hm.ahead ho'))
    exact (weighs_add hw hs ht hm ho').trans hrest (DirTree.lt_of_alive hm.alive)

/-- So does any part of it that goes on to the end. -/
theorem weighs_run (hw : answers.FreshWalks) (hs : answers.SmallWalks) (ht : answers.SmallTotals) (hm : Merging node all children subdirs m)
    {mEnd : Merge} (hr : MergeRun target answers node children subdirs m [] [] mEnd) :
    ∃ went came refused, Weighs node m.st.tree went came refused mEnd.st.tree := by
  rw [hr.eq_mergeChildren]
  exact ⟨_, _, _, weighs_mergeChildren hw hs ht _ children subdirs m le_rfl hm⟩

end Steps

/-- A re-read that pays for what it drops and grafts leaves the totals rolled up. -/
theorem Weighs.rolledUp {node : Nat} {t u : DirTree} {refused : List DirTree} (h : Weighs node t [] [] refused u) (hr : t.RolledUp) :
    u.RolledUp := by
  intro i hi c
  rcases Nat.lt_or_ge i t.nodes.length with hlt | hge
  · have hone := hr i (h.alive i hlt hi) c
    have hpos := totalsOf_nonneg refused c
    have hnone : ∀ c, tallySum c [] = 0 := fun _ => rfl
    rw [h.surplus i hlt hi, hnone, h.isSealed i hlt]
    by_cases hin : i = node
    · rw [if_pos hin, decide_eq_true hin, Bool.true_and, Bool.or_eq_false_iff]
      refine ⟨by omega, fun hs => ?_⟩
      obtain rfl : refused = [] := by
        cases refused with
        | nil => rfl
        | cons => cases hs.2
      have := hone.2 hs.1
      rw [this]
      rfl
    · rw [if_neg hin, decide_eq_false hin, Bool.false_and, Bool.or_false, add_zero]
      exact hone
  · exact h.new i hge hi c

/-! ## A re-read -/

/-- The subtrees a re-read has no nodes for. -/
def refusedTrees (target : Target) (answers : Answers) (st : TreeState) (node : Nat) (listing : Listing) : List DirTree :=
  mergeRefused target answers node ((st.tree.node node).children.length + listing.subdirs.length) (st.tree.node node).children
    listing.subdirs (startMerge st node listing)

/-- A file listed with another size than on record, and counted in another directory, counts in one that stays. -/
def WritesStay (target : Target) (answers : Answers) (st : TreeState) (node : Nat) (listing : Listing) : Prop :=
  ∀ link ∈ Records.firsts ListedLink.inode listing.links, ∀ owner, st.tree.links.get link.inode = some owner → owner.node ≠ node →
    ¬(owner.blocks = link.blocks ∧ owner.apparent = link.apparent) → (st.tree.node owner.node).alive = true →
    Stays target answers st node listing owner.node

/-- All that is counted and all that is found, together below the limit. -/
structure TotalsFit (target : Target) (answers : Answers) (st : TreeState) (node : Nat) (listing : Listing) : Prop extends
    SizesFit answers st node listing where
  totals : answers.SmallTotals
  room : ∀ c, ((st.tree.node 0).sub.get c : Int) + heldAfter target answers st node listing c +
    sizeAt listing.own.blocks listing.own.apparent c + listedSize listing.links c + st.tree.linked c < 2 ^ 62

section Relist

variable {target : Target} {answers : Answers} {st : TreeState} {node : Nat} {listing : Listing}

theorem heldAfter_nonneg (target : Target) (answers : Answers) (st : TreeState) (node : Nat) (listing : Listing) (c : Component) :
    0 ≤ heldAfter target answers st node listing c := by
  have hcame := tallySum_nonneg c (relistMoves target answers st node listing).came
  unfold heldAfter
  omega

theorem TotalsFit.withinLimit (hk : TotalsFit target answers st node listing) (h : Shape st.tree) (hr : st.tree.RolledUp)
    (ha : (st.tree.node node).alive = true) : WithinLimit target answers st node listing := by
  have hparts := fun c => And.intro (heldAfter_nonneg target answers st node listing c) (listedSize_nonneg listing.links c)
  have hlinked := fun c => st.tree.linked_nonneg c
  refine ⟨fun i hi c => (hr i hi c).1, fun i hi c => ?_, fun c => ?_, fun c => ?_⟩
  · have := (hr.le_root h hi c).2; have := hk.room c; have := hparts c; have := hlinked c
    omega
  · have h1 := (hr.le_root h ha c).2; have h2 := hk.room c; have h3 := hparts c; have h4 := hlinked c
    have h5 := (hk.own c).1
    have h6 : (sizeAt (st.tree.node node).ownBlocks (st.tree.node node).ownApparent c : Int) = (st.tree.node node).own c := rfl
    omega
  · have := hk.room c; have := hparts c; have := hlinked c
    omega

/-! ### Sizes written down -/

theorem sublist_firsts : ∀ listed : List ListedLink, (Records.firsts ListedLink.inode listed).Sublist listed
  | [] => .refl []
  | link :: listed => (List.filter_sublist.trans (sublist_firsts listed)).cons_cons link

/-- What was written down by any time is no more than the files written through hold. -/
theorem writtenAll_le {f : ListedLink → Option (Nat × Delta)} {c : Component} : ∀ listed : List ListedLink,
    (∀ link ∈ listed, ∀ w, f link = some w → w.2.get c ≤ link.size c) →
    ∀ pre, pre <+: listed.filterMap f → writtenAll pre c ≤ listedSize listed c
  | [], _, pre, hp => by
    obtain rfl : pre = [] := List.prefix_nil.1 hp
    exact le_rfl
  | link :: listed, hf, pre, hp => by
    have hrest := writtenAll_le listed fun other ho => hf other (List.mem_cons_of_mem _ ho)
    have hpos : 0 ≤ link.size c := Int.natCast_nonneg _
    have hnonneg := listedSize_nonneg listed c
    rw [listedSize_cons]
    cases hw : f link with
    | none =>
      rw [List.filterMap_cons_none hw] at hp
      have := hrest pre hp
      omega
    | some w =>
      rw [List.filterMap_cons_some hw] at hp
      cases pre with
      | nil =>
        show (0 : Int) ≤ _
        omega
      | cons w' pre =>
        obtain ⟨rfl, hrestp⟩ := List.cons_prefix_cons.1 hp
        have h1 := hrest pre hrestp
        have h2 := hf link (List.mem_cons_self ..) w' hw
        rw [writtenAll_cons]
        omega

/-- The size changes of a re-read within the limits. -/
theorem writes_settled (hk : SizesFit answers st node listing) :
    (settleListed st.tree node listing.links listing.direct).writes = (Records.firsts ListedLink.inode listing.links).filterMap fun link =>
      (st.tree.links.get link.inode).bind (writeOf st.tree node link) := by
  have hone : ∀ link ∈ listing.links, ∀ c, link.size c < 2 ^ 62 := fun link hlink c => by
    have hle : link.size c ≤ listedSize listing.links c :=
      List.single_le_sum (fun x hx => by
        obtain ⟨other, -, rfl⟩ := List.mem_map.1 hx
        exact Int.natCast_nonneg _) _ (List.mem_map_of_mem hlink)
    have := (hk.listed c).2
    omega
  refine (settledSo_all (fun c => ?_) (fun inode owner ho => ?_) listing.links fun link hlink => ?_).writes
  · have := (hk.listed c).1
    unfold u64Max
    omega
  · have h1 := fun c => (size_le_linkedIn ho c).trans_lt (hk.linked c)
    have h2 := h1 .blocks
    have h3 := h1 .apparent
    simp only [LinkOwner.size, sizeAt] at h2 h3
    unfold u64Max
    omega
  · have h2 := hone link hlink .blocks
    have h3 := hone link hlink .apparent
    simp only [ListedLink.size, sizeAt] at h2 h3
    unfold u64Max
    omega

/-- What is written down goes to directories that stay, and is no more than what is listed. -/
theorem written_within (hk : SizesFit answers st node listing) (hs : WritesStay target answers st node listing) :
    (∀ w ∈ (settleListed st.tree node listing.links listing.direct).writes, Stays target answers st node listing w.1) ∧
      ∀ pre, pre <+: (settleListed st.tree node listing.links listing.direct).writes → ∀ c,
        writtenAll pre c ≤ listedSize listing.links c := by
  rw [writes_settled hk]
  constructor
  · intro w hw
    obtain ⟨link, hlink, hwrite⟩ := List.mem_filterMap.1 hw
    obtain ⟨owner, hget, hwrite⟩ := Option.bind_eq_some_iff.1 hwrite
    unfold writeOf at hwrite
    split at hwrite
    · rename_i hc
      cases hwrite
      exact hs link hlink owner hget hc.1 hc.2.2 hc.2.1
    · cases hwrite
  · intro pre hp c
    refine (writtenAll_le _ (fun link hlink w hw => ?_) pre hp).trans ?_
    · obtain ⟨owner, hget, hwrite⟩ := Option.bind_eq_some_iff.1 hw
      unfold writeOf at hwrite
      split at hwrite
      · cases hwrite
        have h1 := (size_le_linkedIn hget c).trans_lt (hk.linked c)
        have h2 : link.size c ≤ listedSize listing.links c :=
          List.single_le_sum (fun x hx => by
            obtain ⟨other, -, rfl⟩ := List.mem_map.1 hx
            exact Int.natCast_nonneg _) _ (List.mem_map_of_mem (Records.mem_of_firsts hlink))
        have h3 := (hk.listed c).2
        have h4 := owner.size_nonneg c
        rw [get_changeOf (by omega) (by omega)]
        omega
      · cases hwrite
    · exact List.Sublist.sum_le_sum ((sublist_firsts listing.links).map _) fun x hx => by
        obtain ⟨link, -, rfl⟩ := List.mem_map.1 hx
        exact Int.natCast_nonneg _

/-- The merge leaves the directory owed what it moved. -/
theorem balanced_merged (hw : answers.FreshWalks) (ho : answers.ProperEntries) (h : Owned st.tree) (hr : st.tree.RolledUp)
    (hl : Relists target answers st node listing) (hk : TotalsFit target answers st node listing) :
    Weighs node st.tree (relistMoves target answers st node listing).went (relistMoves target answers st node listing).came
        (refusedTrees target answers st node listing) (merged target answers st node listing).st.tree ∧
      (merged target answers st node listing).st.tree.Balanced node (merged target answers st node listing).moved.get := by
  have hstart := merging_start ho h.shape h.names hl.1 hl.2.2
  have hweighs : Weighs node (startMerge st node listing).st.tree (relistMoves target answers st node listing).went
      (relistMoves target answers st node listing).came (refusedTrees target answers st node listing)
      (merged target answers st node listing).st.tree :=
    weighs_mergeChildren hw hk.walks hk.totals _ _ _ _ le_rfl hstart
  have hw : Weighs node st.tree (relistMoves target answers st node listing).went (relistMoves target answers st node listing).came
      (refusedTrees target answers st node listing) (merged target answers st node listing).st.tree :=
    ⟨hweighs.length, hweighs.alive, hweighs.isSealed, hweighs.surplus, hweighs.new, hweighs.clamped⟩
  refine ⟨hw, fun i hi c => ?_⟩
  have hmoved := (moved_merged ‹_› ho h.shape h.names hl.1 hl.2.2 (hk.withinLimit h.shape hr hl.1) c).1
  rcases Nat.lt_or_ge i st.tree.nodes.length with hlt | hge
  · have hone := hr i (hw.alive i hlt hi) c
    have hpos := totalsOf_nonneg (refusedTrees target answers st node listing) c
    rw [hw.surplus i hlt hi, hw.isSealed i hlt]
    by_cases hin : i = node
    · subst hin
      rw [if_pos rfl, if_pos rfl, decide_eq_true rfl, Bool.true_and, hl.2.1, Bool.false_or]
      refine ⟨by omega, fun hs => ?_⟩
      have hnone : refusedTrees target answers st i listing = [] := by
        cases hlist : refusedTrees target answers st i listing with
        | nil => rfl
        | cons => rw [hlist] at hs; cases hs
      have hzero := hone.2 hl.2.1
      rw [hnone]
      have h0 : totalsOf [] c = 0 := rfl
      omega
    · rw [if_neg hin, if_neg hin, decide_eq_false hin, Bool.false_and, Bool.or_false, add_zero, add_zero]
      exact hone
  · have hnew := hw.new i hge hi c
    have hnl := DirTree.lt_of_alive hl.1
    rw [if_neg (by omega), add_zero]
    exact hnew

/-- The room left at the root when some of what was found is applied. -/
def RoomFor (t : DirTree) (c : Component) (size : Int) : Prop := ((t.node 0).sub.get c : Int) + size < 2 ^ 62

section Applied

variable (hw : answers.FreshWalks) (ho : answers.ProperEntries) (h : Owned st.tree) (hb : st.tree.Backed) (hr : st.tree.RolledUp)
  (hl : Relists target answers st node listing) (hk : TotalsFit target answers st node listing)

include hw ho h hr hl hk

/-- The listing applied. -/
theorem surplus_applied : (∀ i, ((merged target answers st node listing).st.tree.node i).alive = true → ∀ c,
      (appliedTree target answers st node listing).surplus i c = (merged target answers st node listing).st.tree.surplus i c +
        if i = node then (merged target answers st node listing).moved.get c else 0) ∧
    (appliedTree target answers st node listing).clamped = (merged target answers st node listing).st.tree.clamped ∧
    ∀ c, RoomFor (appliedTree target answers st node listing) c
      (sizeAt listing.own.blocks listing.own.apparent c + listedSize listing.links c + st.tree.linked c) := by
  have hwithin := hk.withinLimit h.shape hr hl.1
  obtain ⟨hm, -⟩ := accounts_merged hw ho h hl.1 hl.2.2 hk.toSizesFit
  have hdelta := delta_merged hw ho h.shape h.names hl.1 hl.2.2 hwithin
  have hmoved := moved_merged hw ho h.shape h.names hl.1 hl.2.2 hwithin
  have hkeeps := (hmoved .files).2.2
  have hentries := hkeeps.direct node (DirTree.lt_of_alive hl.1)
  have hbefore := hkeeps.sub 0 h.shape.pos
  have hbalanced := (balanced_merged hw ho h hr hl hk).2
  have hpaid : ∀ c, ((settledDirect st node listing).get c : Int) -
      ((merged target answers st node listing).st.tree.node node).direct.get c + (merged target answers st node listing).moved.get c =
        heldAfter target answers st node listing c - heldBefore target answers st node listing c := fun c => by
    rw [hentries, (hmoved c).1]
    unfold heldAfter heldBefore
    omega
  have hroom : ∀ c, ((st.tree.node 0).sub.get c : Int) +
      (heldAfter target answers st node listing c - heldBefore target answers st node listing c) +
        (sizeAt listing.own.blocks listing.own.apparent c + listedSize listing.links c + st.tree.linked c) < 2 ^ 62 := fun c => by
    have h1 := hk.room c
    have h2 := tallySum_nonneg c (relistMoves target answers st node listing).went
    unfold heldBefore
    omega
  obtain ⟨hsurplus, hclamped, hroot⟩ := surplus_applyListing hm.shape hm.alive (settledDirect st node listing) hbalanced
    (fun c => by rw [hdelta, hpaid]) fun c => by
      have h1 := hroom c; have h2 := listedSize_nonneg listing.links c; have h3 := st.tree.linked_nonneg c
      rw [hbefore, hpaid]
      omega
  refine ⟨hsurplus, hclamped, fun c => ?_⟩
  have h1 := hroot c
  rw [hbefore, hpaid] at h1
  unfold RoomFor
  rw [show (((appliedTree target answers st node listing).node 0).sub.get c : Int) = _ from h1]
  exact hroom c

theorem rolledUp_applied : Shape (appliedTree target answers st node listing) ∧ (appliedTree target answers st node listing).RolledUp := by
  obtain ⟨hm, -⟩ := accounts_merged hw ho h hl.1 hl.2.2 hk.toSizesFit
  have hshape := (sameLinks_applyListing (merged target answers st node listing).st.tree node (settledDirect st node listing)
    (merged target answers st node listing).moved).shape
  have hstate := sameState_frame.applyListing (merged target answers st node listing).st.tree node (settledDirect st node listing)
    (merged target answers st node listing).moved
  refine ⟨hm.shape.congr hshape, fun i hi c => ?_⟩
  have hai := (hshape.alive i).symm.trans hi
  rw [(surplus_applied hw ho h hr hl hk).1 i hai, show ((appliedTree target answers st node listing).node i).isSealed = _ from (hstate i).2]
  exact (balanced_merged hw ho h hr hl hk).2 i hai c

/-- The directory's own growth applied. -/
theorem sameSurplus_grown : SameSurplus (appliedTree target answers st node listing) (grownTree target answers st node listing) ∧
    ∀ c, RoomFor (grownTree target answers st node listing) c (listedSize listing.links c + st.tree.linked c) := by
  obtain ⟨hm, hacc⟩ := accounts_merged hw ho h hl.1 hl.2.2 hk.toSizesFit
  obtain ⟨hshape, hrolled⟩ := rolledUp_applied hw ho h hr hl hk
  have hroom := (surplus_applied hw ho h hr hl hk).2.2
  have hgrown : ∀ c, (grownBy (appliedTree target answers st node listing) node listing.own).get c = _ :=
    get_grownBy_applied hw ho h hl.1 hl.2.2 hk.toSizesFit
  have hsame : SameShape (merged target answers st node listing).st.tree (appliedTree target answers st node listing) :=
    (sameLinks_applyListing _ _ _ _).shape
  have hdirect : ∀ i, ((appliedTree target answers st node listing).node i).direct = _ :=
    direct_applyListing (DirTree.lt_of_alive hm.alive) (settledDirect st node listing) _
  have hnl := DirTree.lt_of_alive hl.1
  have hgrownTree : grownTree target answers st node listing =
      (applyOwn (appliedTree target answers st node listing) node listing.own).touch node (toSeconds listing.newest) := rfl
  rw [hgrownTree]
  generalize appliedTree target answers st node listing = t at *
  obtain ⟨hown, hroot⟩ := sameSurplus_applyOwn hshape hrolled ((hsame.alive node).trans hm.alive) listing.own
    (fun p hp c => by
      rw [hsame.parent] at hp
      have hparent : (st.tree.node node).parent = some p := (hacc.parent node hnl).symm.trans hp
      have hlt := h.shape.down node p hparent
      have hkept : ((merged target answers st node listing).st.tree.node p).direct = (st.tree.node p).direct :=
        hacc.direct p (hlt.trans hnl)
      have h1 := hk.parent p hparent c
      have h2 := st.tree.owned_nonneg p c
      have h3 := st.tree.direct_eq p c
      rw [hdirect, if_neg (by omega), hkept, hgrown]
      omega)
    (fun c => by
      have h1 := hroom c; have h2 := listedSize_nonneg listing.links c; have h3 := st.tree.linked_nonneg c
      have h4 := (st.tree.node node).own_nonneg c
      unfold RoomFor at h1
      rw [hgrown]
      omega)
  refine ⟨hown.trans (sameSurplus_touch _ _ _), fun c => ?_⟩
  have h1 := hroom c; have h2 := hroot c; have h4 := (st.tree.node node).own_nonneg c
  unfold RoomFor at h1 ⊢
  rw [hgrown] at h2
  rw [sub_touch]
  omega

include hb in
/-- The sizes written down applied. -/
theorem sameSurplus_settled (hs : WritesStay target answers st node listing) :
    SameSurplus (appliedTree target answers st node listing) (settledTree target answers st node listing) ∧
      ∀ c, RoomFor (settledTree target answers st node listing) c (st.tree.linked c) ∧
        (((settledTree target answers st node listing).node 0).sub.get c : Int) =
          ((grownTree target answers st node listing).node 0).sub.get c +
            writtenAll (settleListed st.tree node listing.links listing.direct).writes c := by
  obtain ⟨hm, hacc⟩ := accounts_merged hw ho h hl.1 hl.2.2 hk.toSizesFit
  obtain ⟨hshape, hrolled⟩ := rolledUp_applied hw ho h hr hl hk
  obtain ⟨hgrown, hroom⟩ := sameSurplus_grown hw ho h hr hl hk
  have hsettles := hk.toSizesFit.settles h hl.1
  have hdirect := direct_grownTree hw ho h hl.1 hl.2.2 hk.toSizesFit
  obtain ⟨hstay, hwritten⟩ := written_within hk.toSizesFit hs
  have hsame := (sameLinks_grownTree target answers st node listing).shape
  have halive : ∀ i, Stays target answers st node listing i → ((grownTree target answers st node listing).node i).alive = true := by
    intro i hi
    rw [hsame.alive]
    exact (alive_mergeRun hw (mergeRun_merged target answers st node listing) (merging_start ho h.shape h.names hl.1 hl.2.2)
      (DirTree.lt_of_alive hi.1)).2 hi
  obtain ⟨hwrites, hroot⟩ := sameSurplus_applyWrites (settleListed st.tree node listing.links listing.direct).writes
    (grownTree target answers st node listing) (hshape.congr hgrown.shape) (hgrown.rolledUp hrolled) (fun w hw => halive _ (hstay w hw))
    (fun pre hp w hw c => by
      obtain ⟨haway, hwa⟩ := hsettles.away w (hp.subset hw)
      have h1 := (hsettles.written pre hp w.1 haway c).1
      have h2 := besideFiles_nonneg hk.toSizesFit hb hwa c
      have h3 := st.tree.direct_eq w.1 c
      have hkept : ((merged target answers st node listing).st.tree.node w.1).direct = (st.tree.node w.1).direct :=
        hacc.direct w.1 (DirTree.lt_of_alive hwa)
      unfold besideFiles at h2
      rw [if_neg haway] at h2
      rw [hdirect, if_neg haway, hkept]
      omega)
    (fun pre hp c => by
      have h1 := hroom c; have h2 := hwritten pre hp c; have h3 := st.tree.linked_nonneg c
      unfold RoomFor at h1
      omega)
  refine ⟨hgrown.trans hwrites, fun c => ⟨?_, hroot c⟩⟩
  have h1 := hroom c; have h2 := hwritten _ (List.prefix_refl _) c; have h3 := hroot c
  unfold RoomFor at h1 ⊢
  rw [show (((settledTree target answers st node listing).node 0).sub.get c : Int) = _ from h3]
  omega

include hb in
/-- After the listing is applied nothing changes what a directory has beyond its entries and its
subdirectories; and what is published after the directory's own change goes to the total. -/
theorem sameSurplus_applyAll (hs : WritesStay target answers st node listing) :
    SameSurplus (appliedTree target answers st node listing) (applyAll target answers st node listing).1.tree ∧
      ∀ c, (((applyAll target answers st node listing).1.tree.node 0).sub.get c : Int) =
          ((grownTree target answers st node listing).node 0).sub.get c +
            writtenAll (applyAll target answers st node listing).2.changes.tail c ∧
        ((applyAll target answers st node listing).1.tree.node 0).sub.get c < 2 ^ 63 := by
  obtain ⟨-, hacc⟩ := accounts_merged hw ho h hl.1 hl.2.2 hk.toSizesFit
  obtain ⟨hshape, hrolled⟩ := rolledUp_applied hw ho h hr hl hk
  obtain ⟨hsettled, hroom⟩ := sameSurplus_settled hw ho h hb hr hl hk hs
  have hlinked := (hk.toSizesFit.settles h hl.1).linked
  have hhanded : ∀ c, handedSize (merged target answers st node listing).handed c ≤ st.tree.linked c + listedSize listing.links c := by
    intro c
    have h1 := hacc.handed c
    have h2 := hlinked c
    have h3 : 0 ≤ ownedBelow (merged target answers st node listing).st.tree.links (startMerge st node listing).st.tree.nodes.length c :=
      DirTree.Table.total_nonneg fun _ owner => by split; exacts [owner.size_nonneg c, le_rfl]
    omega
  obtain ⟨asked, he, -, hc⟩ := applyAll_handing target answers st node listing
  have hlisted := fun c => (hk.listed c).2
  have htotal := hk.linked
  rw [he, hc]
  obtain ⟨hhands, hend⟩ := @sameSurplus_hands node (listedLinks st node listing) (merged target answers st node listing).handed
      { tree := settledTree target answers st node listing, requeue := asked } (hshape.congr hsettled.shape) (hsettled.rolledUp hrolled)
      (fun c => by have := hhanded c; have := hlisted c; have := htotal c; omega)
      fun c => by
        have h1 : RoomFor (settledTree target answers st node listing) c (st.tree.linked c) := (hroom c).1
        have h2 := hhanded c; have h3 := hlisted c
        unfold RoomFor at h1
        show (((settledTree target answers st node listing).node 0).sub.get c : Int) + _ < _
        omega
  refine ⟨hsettled.trans hhands, fun c => ?_⟩
  have h1 := hroom c; have h2 := hend c; have h3 := hhanded c; have h4 := hlisted c
  have hnone : writtenAll [] c = 0 := rfl
  rw [writtenAll_append]
  unfold RoomFor at h1
  dsimp only at h2
  omega

include hb in
/-- What the steps after the merge make of it: only the directory read gets back what it was owed. -/
theorem surplus_applyAll (hs : WritesStay target answers st node listing) :
    SameShape (merged target answers st node listing).st.tree (applyAll target answers st node listing).1.tree ∧
      SameState (merged target answers st node listing).st.tree (applyAll target answers st node listing).1.tree ∧
      (∀ i, ((merged target answers st node listing).st.tree.node i).alive = true → ∀ c,
        (applyAll target answers st node listing).1.tree.surplus i c = (merged target answers st node listing).st.tree.surplus i c +
          if i = node then (merged target answers st node listing).moved.get c else 0) ∧
      (applyAll target answers st node listing).1.tree.clamped = (merged target answers st node listing).st.tree.clamped := by
  obtain ⟨hsurplus, hclamped, -⟩ := surplus_applied hw ho h hr hl hk
  have hall := (sameSurplus_applyAll hw ho h hb hr hl hk hs).1
  have happlied : SameShape (merged target answers st node listing).st.tree (appliedTree target answers st node listing) :=
    (sameLinks_applyListing (merged target answers st node listing).st.tree node (settledDirect st node listing)
      (merged target answers st node listing).moved).shape
  have hstate : SameState (merged target answers st node listing).st.tree (appliedTree target answers st node listing) :=
    sameState_frame.applyListing (merged target answers st node listing).st.tree node (settledDirect st node listing)
      (merged target answers st node listing).moved
  refine ⟨happlied.trans hall.shape, sameState_frame.trans hstate hall.state, fun i hi c => ?_, hall.clamped.trans hclamped⟩
  rw [hall.surplus i ((happlied.alive i).trans hi), hsurplus i hi]

include hb in
/-- After a re-read every directory has beyond its entries and its subdirectories what it had, and the
one read what was refused nodes. -/
theorem weighs_applyAll (hs : WritesStay target answers st node listing) :
    Weighs node st.tree [] [] (refusedTrees target answers st node listing) (applyAll target answers st node listing).1.tree := by
  have hweighs := (balanced_merged hw ho h hr hl hk).1
  have hmoved := fun c => (moved_merged hw ho h.shape h.names hl.1 hl.2.2 (hk.withinLimit h.shape hr hl.1) c).1
  obtain ⟨hsame, hstate, hrest, hclamped⟩ := surplus_applyAll hw ho h hb hr hl hk hs
  generalize (applyAll target answers st node listing).1.tree = u at hsame hstate hrest hclamped ⊢
  have hnone : ∀ c, tallySum c [] = 0 := fun _ => rfl
  refine ⟨hweighs.length.trans_eq hsame.length.symm, fun i hlt hi => ?_, fun i hlt => ?_, fun i hlt hi c => ?_,
    fun i hge hi c => ?_, hclamped.trans hweighs.clamped⟩
  · exact hweighs.alive i hlt ((hsame.alive i).symm.trans hi)
  · rw [(hstate i).2]
    exact hweighs.isSealed i hlt
  · have hi := (hsame.alive i).symm.trans hi
    rw [hrest i hi, hweighs.surplus i hlt hi, hmoved, hnone]
    split <;> omega
  · have hi := (hsame.alive i).symm.trans hi
    have hnl := DirTree.lt_of_alive hl.1
    rw [hrest i hi, (hstate i).2, if_neg (by omega), add_zero]
    exact hweighs.new i hge hi c

end Applied

end Relist

/-! ## Runs -/

/-- The states reached from a scan while totals stay below the limit, parents count what their
subdirectories' inodes lose, and no file written through is counted in a directory that goes. -/
inductive TotalsRun : TreeState → Prop
  | scan {host : Host} {target : Target} {hash : Bytes → Nat} {t : DirTree} {counted : Table Inode (Nat × Link)}
      (h : Walk.CountScan host target hash t counted) (hk : host.listing.Proper) (hs : ∀ c, (t.node 0).sub.get c < 2 ^ 62)
      (generation : Nat) : TotalsRun (TreeState.new t generation)
  | relist {st : TreeState} (h : TotalsRun st) (target : Target) (answers : Answers) (node : Nat) (hs : answers.Sound)
      (hk : ∀ listing, Relists target answers st node listing → TotalsFit target answers st node listing)
      (hw : ∀ listing, Relists target answers st node listing → WritesStay target answers st node listing) :
      TotalsRun (relist target answers st node).1
  | touch {st : TreeState} (h : TotalsRun st) (dir : Nat) (at_ : Int) : TotalsRun { st with tree := st.tree.touch dir at_ }

section Runs

variable {target : Target} {answers : Answers} {st : TreeState} {node : Nat} {listing : Listing}

theorem TotalsRun.sized (h : TotalsRun st) : SizedRun st := by
  induction h with
  | @scan host target hash t counted h hk hs generation =>
    refine .scan h hk (fun i hi c => ?_) generation
    have hfresh := h.fresh hk
    have hrolled := hfresh.rolledUp fun c => (hs c).trans (by decide)
    have hle := hrolled.le_root hfresh.shape (hfresh.alive i hi) c
    have := hs c
    omega
  | relist h target answers node hs hk hw ih => exact ih.relist target answers node hs fun listing hl => (hk listing hl).toSizesFit
  | touch h dir at_ ih => exact ih.touch dir at_

/-- A re-read of a run, weighed. -/
theorem weighs_relist (h : TotalsRun st) (hr : st.tree.RolledUp) (hs : answers.Sound) (hl : Relists target answers st node listing)
    (hk : TotalsFit target answers st node listing) (hw : WritesStay target answers st node listing) :
    Weighs node st.tree [] [] (refusedTrees target answers st node listing) (relist target answers st node).1.tree := by
  rw [hl.relist_eq]
  exact weighs_applyAll hs.walks hs.entries (owned_of_reached h.sized.reached) (backed_of_run h.sized) hr hl hk hw

theorem rolledUp_of_run (h : TotalsRun st) : st.tree.RolledUp ∧ st.tree.clamped = false := by
  induction h with
  | @scan host target hash t counted h hk hs generation =>
    have hfresh := h.fresh hk
    exact ⟨hfresh.rolledUp fun c => (hs c).trans (by decide), hfresh.unclamped⟩
  | @relist st h target answers node hs hk hw ih =>
    by_cases hl : ∃ listing, Relists target answers st node listing
    · obtain ⟨listing, hl⟩ := hl
      have hweighs := weighs_relist h ih.1 hs hl (hk listing hl) (hw listing hl)
      exact ⟨hweighs.rolledUp ih.1, hweighs.clamped.trans ih.2⟩
    · rcases relist_cases target answers st node with ⟨listing, hl', -⟩ | ⟨-, he⟩
      · exact absurd ⟨listing, hl'⟩ hl
      · rw [he]
        exact ih
  | @touch st h dir at_ ih =>
    have hsame := sameSurplus_touch st.tree dir at_
    exact ⟨hsame.rolledUp ih.1, hsame.clamped.trans ih.2⟩

/-- Totals that add up: a directory that is not sealed holds its entries and its subdirectories, a sealed
one at least these, and nothing was ever clamped at zero. -/
structure AddsUp (t : DirTree) : Prop where
  unsealed : ∀ i, (t.node i).alive = true → (t.node i).isSealed = false → ∀ c,
    ((t.node i).sub.get c : Int) = (t.node i).direct.get c + t.overChildren i fun n => n.sub.get c
  isSealed : ∀ i, (t.node i).alive = true → ∀ c,
    ((t.node i).direct.get c : Int) + t.overChildren i (fun n => n.sub.get c) ≤ (t.node i).sub.get c
  unclamped : t.clamped = false

/-- Totals add up in every state of such a run. -/
theorem totals_add_up (h : TotalsRun st) : AddsUp st.tree := by
  obtain ⟨hrolled, hclamped⟩ := rolledUp_of_run h
  refine ⟨fun i hi hs c => ?_, fun i hi c => ?_, hclamped⟩
  · have hzero := (hrolled i hi c).2 hs
    unfold DirTree.surplus at hzero
    omega
  · have hpos := (hrolled i hi c).1
    unfold DirTree.surplus at hpos
    omega

end Runs

/-! ## A file that grew, and its directory gone -/

open Walk

theorem totalsRun_holding : TotalsRun holdingState := by
  obtain ⟨counted, h⟩ := scan_holding
  exact .scan h (proper_holdingHost (by decide)) (fun c => by cases c <;> decide) 1

theorem fits_larger {names : List Bytes} (hroom : ∀ c, ((holdingState.tree.node 0).sub.get c : Int) +
      heldAfter smallTarget (largerAnswers names) holdingState 0 (largerListing names) c + sizeAt 0 2 c +
      listedSize (largerListing names).links c + holdingState.tree.linked c < 2 ^ 62)
    (hdirect : ∀ c, (largerListing names).direct.get c < 2 ^ 62) :
    TotalsFit smallTarget (largerAnswers names) holdingState 0 (largerListing names) :=
  ⟨sizesFit_larger hdirect, fun _ _ he => (by cases he), hroom⟩

/-- The file grew through its link in `/d`: `/d/b` counts it, and all totals add up. -/
theorem totals_add_up_larger : AddsUp (relist smallTarget (largerAnswers [[98]]) holdingState 0).1.tree := by
  have hsound : (largerAnswers [[98]]).Sound := sound_larger (by decide) (by decide)
  refine totals_add_up (totalsRun_holding.relist smallTarget (largerAnswers [[98]]) 0 hsound (fun listing hl => ?_) fun listing hl => ?_)
  · obtain rfl : largerListing [[98]] = listing := Except.ok.inj hl.2.2
    exact fits_larger (fun c => by cases c <;> decide) fun c => by cases c <;> decide
  · obtain rfl : largerListing [[98]] = listing := Except.ok.inj hl.2.2
    intro link hlink owner hget hne _ halive
    have howned := owned_of_reached totalsRun_holding.sized.reached
    obtain rfl : ⟨(1, 7), 1024, 20⟩ = link := (List.mem_singleton.1 hlink).symm
    cases hget
    have hrun := mergeRun_merged smallTarget (largerAnswers [[98]]) holdingState 0 (largerListing [[98]])
    exact (alive_mergeRun hsound.walks hrun (merging_start hsound.entries howned.shape howned.names hl.1 hl.2.2) (by decide)).1 (by decide)

/-- The same with `/d/b` gone: its growth is left counted in `/d`, beside the file that `/d` takes over. -/
theorem dropped_growth_counted : ¬∀ (st : TreeState) (target : Target) (answers : Answers) (node : Nat), TotalsRun st → answers.Sound →
    (∀ listing, Relists target answers st node listing → TotalsFit target answers st node listing) →
    AddsUp (relist target answers st node).1.tree := by
  intro h
  have hadds := h holdingState smallTarget (largerAnswers []) 0 totalsRun_holding (sound_larger (by decide) (by decide)) fun listing hl => by
    obtain rfl : largerListing [] = listing := Except.ok.inj hl.2.2
    exact fits_larger (fun c => by cases c <;> decide) fun c => by cases c <;> decide
  have hroot := hadds.unsealed 0 (by decide) (by decide) .apparent
  exact absurd hroot (by decide)

end StorageHarvester
