/-
A multiply linked file is counted exactly once, in one alive directory, over whole runs: a re-read
leaves the directory with what it lists and the files it owns, and every other directory with what it
counted beside its files. Only its parent changes, by the growth of the directory's own inode, as long
as the parent counts at least what that inode loses.
-/
import StorageHarvester.Live.Accounts
import StorageHarvester.Live.PastCap

namespace StorageHarvester

open Forest

/-! ## Figures before links are handed on -/

theorem writtenTo_cons (w : Nat × Delta) (writes : List (Nat × Delta)) (m : Nat) (c : Component) :
    writtenTo (w :: writes) m c = (if w.1 = m then w.2.get c else 0) + writtenTo writes m c := rfl

theorem writtenTo_zero {writes : List (Nat × Delta)} {m : Nat} (h : ∀ w ∈ writes, w.1 ≠ m) (c : Component) :
    writtenTo writes m c = 0 :=
  List.sum_eq_zero fun x hx => by
    obtain ⟨w, hw, rfl⟩ := List.mem_map.1 hx
    exact if_neg (h w hw)

/-- Size changes, applied one after the other while each leaves something within the limit. -/
theorem direct_applyWrites {m : Nat} {c : Component} : ∀ (writes : List (Nat × Delta)) (t : DirTree), m < t.nodes.length →
    (∀ pre, pre <+: writes → 0 ≤ ((t.node m).direct.get c : Int) + writtenTo pre m c ∧
      ((t.node m).direct.get c : Int) + writtenTo pre m c < 2 ^ 64) →
    (((applyWrites t writes).node m).direct.get c : Int) = (t.node m).direct.get c + writtenTo writes m c
  | [], _, _, _ => (add_zero _).symm
  | w :: writes, t, hm, hfit => by
    have hlen : (t.grow w.1 w.2).nodes.length = t.nodes.length := (sameLinks_grow t w.1 w.2).shape.length
    have hone : (((t.grow w.1 w.2).node m).direct.get c : Int) = (t.node m).direct.get c + (if w.1 = m then w.2.get c else 0) := by
      have hfirst := hfit [w] ⟨writes, rfl⟩
      rw [writtenTo_cons, show writtenTo [] m c = 0 from rfl, add_zero] at hfirst
      rw [DirTree.direct_grow]
      by_cases hw : w.1 = m
      · rw [if_pos hw] at hfirst ⊢
        rw [if_pos ⟨hw.symm, hw ▸ hm⟩]
        exact Tally.get_apply_eq hfirst.1 hfirst.2
      · rw [if_neg hw, if_neg fun h => hw h.1.symm, add_zero]
    have hrest := direct_applyWrites writes (t.grow w.1 w.2) (hm.trans_eq hlen.symm) fun pre hp => by
      have := hfit (w :: pre) ((List.prefix_cons_inj w).2 hp)
      rw [writtenTo_cons] at this
      rw [hone]
      omega
    show (((applyWrites (t.grow w.1 w.2) writes).node m).direct.get c : Int) = _
    rw [hrest, hone, writtenTo_cons]
    omega

/-- The directory's own growth goes to its parent, where it fits. -/
theorem direct_applyOwn {t : DirTree} {node : Nat} {own : Own} (hfit : ∀ p, (t.node node).parent = some p → p ≠ node ∧ p < t.nodes.length ∧
      ∀ c, 0 ≤ ((t.node p).direct.get c : Int) + (grownBy t node own).get c ∧
        ((t.node p).direct.get c : Int) + (grownBy t node own).get c < 2 ^ 64) (i : Nat) (c : Component) :
    (((applyOwn t node own).node i).direct.get c : Int) =
      (t.node i).direct.get c + if (t.node node).parent = some i then (grownBy t node own).get c else 0 := by
  have hown : ∀ j, ((t.modifyNode node fun n => { n with ownBlocks := own.blocks, ownApparent := own.apparent, mtime := own.mtime }).node j).direct =
      (t.node j).direct := fun j => by
    rw [DirTree.node_modifyNode]
    split <;> rfl
  have hparent : ((t.modifyNode node fun n => { n with ownBlocks := own.blocks, ownApparent := own.apparent, mtime := own.mtime }).node node).parent =
      (t.node node).parent := by
    rw [DirTree.node_modifyNode]
    split <;> rfl
  unfold applyOwn
  dsimp only
  split
  · rename_i hz
    have hz := Delta.isZero_iff.1 hz c
    rw [hown, hz, ite_self, add_zero]
  · rw [hparent]
    cases hp : (t.node node).parent with
    | none => rw [hown, if_neg (fun h => by cases h), add_zero]
    | some p =>
      obtain ⟨-, hlt, hc⟩ := hfit p hp
      dsimp only
      rw [DirTree.direct_grow, hown]
      by_cases hi : i = p
      · subst hi
        rw [if_pos ⟨rfl, by rw [DirTree.length_modifyNode]; exact hlt⟩, if_pos rfl]
        exact Tally.get_apply_eq (hc c).1 (hc c).2
      · rw [if_neg fun h => hi h.1, if_neg fun h => hi (Option.some.inj h).symm, add_zero]

/-- The tree with the listing applied, before size changes written down are. -/
def grownTree (target : Target) (answers : Answers) (st : TreeState) (node : Nat) (listing : Listing) : DirTree :=
  (applyOwn (applyListing (merged target answers st node listing).st.tree node (settledDirect st node listing)
    (merged target answers st node listing).moved) node listing.own).touch node (toSeconds listing.newest)

/-- The tree when links are about to be handed on. -/
def settledTree (target : Target) (answers : Answers) (st : TreeState) (node : Nat) (listing : Listing) : DirTree :=
  applyWrites (grownTree target answers st node listing) (settleListed st.tree node listing.links listing.direct).writes

theorem applyAll_handing (target : Target) (answers : Answers) (st : TreeState) (node : Nat) (listing : Listing) :
    ∃ asked : List Nat, (applyAll target answers st node listing).1.tree =
        ((merged target answers st node listing).handed.foldl (Handing.hand node (listedLinks st node listing))
          { tree := settledTree target answers st node listing, requeue := asked }).tree ∧
      (applyAll target answers st node listing).2.requeue =
        ((merged target answers st node listing).handed.foldl (Handing.hand node (listedLinks st node listing))
          { tree := settledTree target answers st node listing, requeue := asked }).requeue ∧
      (applyAll target answers st node listing).2.changes.tail = (settleListed st.tree node listing.links listing.direct).writes ++
        ((merged target answers st node listing).handed.foldl (Handing.hand node (listedLinks st node listing))
          { tree := settledTree target answers st node listing, requeue := asked }).changes :=
  ⟨_, rfl, rfl, rfl⟩

theorem sameLinks_grownTree (target : Target) (answers : Answers) (st : TreeState) (node : Nat) (listing : Listing) :
    SameLinks (merged target answers st node listing).st.tree (grownTree target answers st node listing) :=
  ((sameLinks_applyListing _ _ _ _).trans (sameLinks_applyOwn _ _ _)).trans (sameLinks_touch _ _ _)

theorem sameLinks_settledTree (target : Target) (answers : Answers) (st : TreeState) (node : Nat) (listing : Listing) :
    SameLinks (merged target answers st node listing).st.tree (settledTree target answers st node listing) :=
  (sameLinks_grownTree target answers st node listing).trans (sameLinks_applyWrites _ _)

/-! ## A re-read within the limits -/

/-- Totals below the limit. -/
structure BelowLimit (answers : Answers) (st : TreeState) (node : Nat) (listing : Listing) : Prop where
  direct : ∀ i, (st.tree.node i).alive = true → ∀ c, (st.tree.node i).direct.get c < 2 ^ 62
  linked : ∀ c, st.tree.linked c < 2 ^ 62
  listed : ∀ c, listing.direct.get c < 2 ^ 62 ∧ listedSize listing.links c < 2 ^ 62
  own : ∀ c, (st.tree.node node).own c < 2 ^ 62 ∧ sizeAt listing.own.blocks listing.own.apparent c < 2 ^ 62
  walks : answers.SmallWalks

/-- Also the parent counts, beside its files, what the directory's own inode loses. -/
structure SizesFit (answers : Answers) (st : TreeState) (node : Nat) (listing : Listing) : Prop extends
    BelowLimit answers st node listing where
  parent : ∀ p, (st.tree.node node).parent = some p → ∀ c,
    (st.tree.node node).own c ≤ st.tree.rest p c + sizeAt listing.own.blocks listing.own.apparent c

/-- What a directory counts beside its files after `node` is read: what `node` lists; its parent grows
with it; the others keep what they had. -/
def besideFiles (st : TreeState) (node : Nat) (listing : Listing) (i : Nat) (c : Component) : Int :=
  if i = node then listing.direct.get c
  else st.tree.rest i c +
    if (st.tree.node node).parent = some i then sizeAt listing.own.blocks listing.own.apparent c - (st.tree.node node).own c else 0

section Relist

variable {target : Target} {answers : Answers} {st : TreeState} {node : Nat} {listing : Listing}

theorem SizesFit.settles (hk : SizesFit answers st node listing) (h : Owned st.tree) (ha : (st.tree.node node).alive = true) :
    Settles st.tree node listing.direct (listedSize listing.links) (settleListed st.tree node listing.links listing.direct) := by
  refine settles_settleListed ha h.owners listing.links listing.direct (fun c => ?_) fun c => ?_
  · have := hk.linked c; have := (hk.listed c).2
    omega
  · have := hk.linked c; have := hk.listed c
    omega

theorem linkedIn_settled (hk : SizesFit answers st node listing) (h : Owned st.tree) (ha : (st.tree.node node).alive = true)
    (c : Component) : linkedIn (settleListed st.tree node listing.links listing.direct).links c < 2 ^ 63 := by
  have := (hk.settles h ha).linked c
  have := hk.linked c; have := (hk.listed c).2
  omega

/-- The accounts at the end of the merge. -/
theorem accounts_merged (hw : answers.FreshWalks) (ho : answers.ProperEntries) (h : Owned st.tree)
    (ha : (st.tree.node node).alive = true) (hl : readListing target answers st node = .ok listing)
    (hk : SizesFit answers st node listing) :
    Merging node listing.subdirs [] [] (merged target answers st node listing) ∧
      Accounts node (startMerge st node listing).st.tree (linkedIn (settleListed st.tree node listing.links listing.direct).links) []
        (merged target answers st node listing) := by
  refine mergeRun_rule hw (fun children _ m => Accounts node (startMerge st node listing).st.tree _ children m)
    (accounts_step hw hk.walks) (mergeRun_merged target answers st node listing) (merging_start ho h.shape h.names ha hl) ?_
  refine ⟨newcomers_start listing h.shape ha, ownersAlive_startMerge listing ha h.owners, fun _ _ ha => ha, fun _ _ => rfl,
    fun _ _ => rfl, fun _ _ _ _ => rfl, fun i hi hlt => absurd hlt (Nat.not_lt.2 hi), fun c => ?_⟩
  have hboth := linkedIn_kept (settleListed st.tree node listing.links listing.direct) node c
  have hle : ownedBelow ((settleListed st.tree node listing.links listing.direct).kept node) (startMerge st node listing).st.tree.nodes.length c ≤
      linkedIn ((settleListed st.tree node listing.links listing.direct).kept node) c :=
    DirTree.Table.total_mono fun _ owner _ => by split; exacts [le_rfl, owner.size_nonneg c]
  show handedSize ((settleListed st.tree node listing.links listing.direct).handed node) c +
    ownedBelow ((settleListed st.tree node listing.links listing.direct).kept node) _ c ≤ _
  omega

/-- Figures of the directories of a tree in which links are about to be handed on. -/
structure SettledFigures (st : TreeState) (node : Nat) (listing : Listing) (u : DirTree) (handed : List (Inode × LinkOwner)) : Prop where
  old : ∀ i < st.tree.nodes.length, (u.node i).alive = true → ∀ c, u.rest i c = besideFiles st node listing i c
  new : ∀ i, st.tree.nodes.length ≤ i → (u.node i).alive = true → ∀ c, 0 ≤ u.rest i c
  /-- There is room for every link handed on. -/
  room : ∀ i, (u.node i).alive = true → ∀ c, (u.node i).direct.get c + handedSize handed c < 2 ^ 64
  handed : ∀ c, handedSize handed c < 2 ^ 63

theorem besideFiles_nonneg (hk : SizesFit answers st node listing) (hb : st.tree.Backed) {i : Nat}
    (hi : (st.tree.node i).alive = true) (c : Component) : 0 ≤ besideFiles st node listing i c := by
  unfold besideFiles
  split
  · exact Int.natCast_nonneg _
  · have := hb i hi c
    split
    · have := hk.parent i ‹_› c
      omega
    · omega

/-- What sits beside the files stays below twice the limit. -/
theorem besideFiles_lt (hk : SizesFit answers st node listing) {i : Nat} (hi : (st.tree.node i).alive = true)
    (c : Component) : besideFiles st node listing i c < 2 ^ 63 := by
  have h1 := hk.direct i hi c
  have h2 := st.tree.owned_nonneg i c
  have h3 := (hk.own c).2
  have h4 := (st.tree.node node).own_nonneg c
  have h5 := (hk.listed c).1
  have h6 := st.tree.direct_eq i c
  unfold besideFiles
  split
  · omega
  · split <;> omega

theorem direct_applyListing {t : DirTree} (hn : node < t.nodes.length) (direct : Tally) (moved : Delta) (j : Nat) :
    ((applyListing t node direct moved).node j).direct = if j = node then direct else (t.node j).direct := by
  rw [node_applyListing, DirTree.node_modifyNode]
  by_cases hj : j = node
  · rw [if_pos ⟨hj, hn⟩, if_pos hj]
  · rw [if_neg fun h => hj h.1, if_neg hj]

theorem direct_touch (t : DirTree) (j : Nat) (a : Int) (i : Nat) : ((t.touch j a).node i).direct = (t.node i).direct := by
  rw [DirTree.node_touch]

/-- The growth of the directory's own inode, once its listing is applied. -/
theorem get_grownBy_applied (hw : answers.FreshWalks) (ho : answers.ProperEntries) (h : Owned st.tree)
    (ha : (st.tree.node node).alive = true) (hl : readListing target answers st node = .ok listing)
    (hk : SizesFit answers st node listing) (c : Component) :
    (grownBy (applyListing (merged target answers st node listing).st.tree node (settledDirect st node listing)
        (merged target answers st node listing).moved) node listing.own).get c =
      (sizeAt listing.own.blocks listing.own.apparent c : Int) - (st.tree.node node).own c := by
  have hown := ownSize_merged hw ho h.shape h.names ha hl le_rfl
  generalize merged target answers st node listing = m at *
  have hsize' := Prod.mk.inj ((own_applyListing m.st.tree node (settledDirect st node listing) m.moved).trans hown)
  rw [get_grownBy (fun c => by have := (hk.own c).2; omega) (fun c => ?_) c, hsize'.1, hsize'.2]
  · rfl
  · rw [hsize'.1, hsize'.2]
    have h1 : (sizeAt (st.tree.node node).ownBlocks (st.tree.node node).ownApparent c : Int) = (st.tree.node node).own c := rfl
    have h2 := (hk.own c).1
    omega

/-- Figures of a directory before the sizes written down are applied. -/
theorem direct_grownTree (hw : answers.FreshWalks) (ho : answers.ProperEntries) (h : Owned st.tree)
    (ha : (st.tree.node node).alive = true) (hl : readListing target answers st node = .ok listing)
    (hk : SizesFit answers st node listing) (i : Nat) (c : Component) :
    (((grownTree target answers st node listing).node i).direct.get c : Int) =
      (if i = node then ((settledDirect st node listing).get c : Int) else ((merged target answers st node listing).st.tree.node i).direct.get c) +
        if (st.tree.node node).parent = some i then sizeAt listing.own.blocks listing.own.apparent c - (st.tree.node node).own c else 0 := by
  obtain ⟨hm, hacc⟩ := accounts_merged hw ho h ha hl hk
  have hgrown := get_grownBy_applied hw ho h ha hl hk
  unfold grownTree
  rw [direct_touch]
  generalize merged target answers st node listing = m at *
  have hlen : (startMerge st node listing).st.tree.nodes.length = st.tree.nodes.length := rfl
  have hnl := DirTree.lt_of_alive ha
  have hnm := DirTree.lt_of_alive hm.alive
  have hsame := sameLinks_applyListing m.st.tree node (settledDirect st node listing) m.moved
  have hparent : ((applyListing m.st.tree node (settledDirect st node listing) m.moved).node node).parent = (st.tree.node node).parent :=
    (congrFun hsame.shape.parentOf node).trans (hacc.parent node hnl)
  rw [direct_applyOwn (fun p hp => ?_) i c, hparent, hgrown, direct_applyListing hnm]
  · split
    · split <;> rfl
    · rfl
  · rw [hparent] at hp
    have hplt : p < node := h.shape.down node p hp
    have hpa := (h.shape.listed node p ha hp).1
    rw [hsame.shape.length]
    refine ⟨by omega, by omega, fun c => ?_⟩
    have hd : (m.st.tree.node p).direct = (st.tree.node p).direct := hacc.direct p (by omega)
    rw [direct_applyListing hnm, if_neg (by omega), hgrown c, hd]
    have h1 := hk.parent p hp c
    have h2 := st.tree.owned_nonneg p c
    have h3 := st.tree.direct_eq p c
    have h4 := hk.direct p hpa c
    have h5 := (hk.own c).2
    have h6 := (st.tree.node node).own_nonneg c
    omega

theorem settledFigures (hw : answers.FreshWalks) (ho : answers.ProperEntries) (h : Owned st.tree) (hb : st.tree.Backed)
    (ha : (st.tree.node node).alive = true) (hl : readListing target answers st node = .ok listing)
    (hk : SizesFit answers st node listing) :
    SettledFigures st node listing (settledTree target answers st node listing) (merged target answers st node listing).handed := by
  obtain ⟨hm, hacc⟩ := accounts_merged hw ho h ha hl hk
  have hs := hk.settles h ha
  have hall := linkedIn_settled hk h ha
  have hgrown := direct_grownTree hw ho h ha hl hk
  have hsame := sameLinks_settledTree target answers st node listing
  have hnl := DirTree.lt_of_alive ha
  have howned : ∀ i c, (settledTree target answers st node listing).owned i c = (merged target answers st node listing).st.tree.owned i c :=
    fun i c => DirTree.owned_congr hsame.links i c
  have hwritten : ∀ i < (merged target answers st node listing).st.tree.nodes.length, ∀ c, (∀ pre,
      pre <+: (settleListed st.tree node listing.links listing.direct).writes →
        0 ≤ (((grownTree target answers st node listing).node i).direct.get c : Int) + writtenTo pre i c ∧
          (((grownTree target answers st node listing).node i).direct.get c : Int) + writtenTo pre i c < 2 ^ 64) →
      (((settledTree target answers st node listing).node i).direct.get c : Int) =
        ((grownTree target answers st node listing).node i).direct.get c +
          writtenTo (settleListed st.tree node listing.links listing.direct).writes i c := fun i hi c hfit =>
    direct_applyWrites _ _ (hi.trans_eq (sameLinks_grownTree target answers st node listing).shape.length.symm) hfit
  have halive := hsame.shape.alive
  generalize grownTree target answers st node listing = t₁ at *
  generalize settledTree target answers st node listing = t₂ at *
  generalize merged target answers st node listing = m at *
  have hparent : ∀ p, (st.tree.node node).parent = some p → p < node := fun p hp => h.shape.down node p hp
  have hlimits := fun c => And.intro (hall c) (hacc.handed c)
  have hbelow : ∀ i < st.tree.nodes.length, ∀ c, m.st.tree.owned i c ≤ ownedBelow m.st.tree.links st.tree.nodes.length c :=
    fun i hi c => DirTree.Table.total_mono fun _ owner _ => by
      have := owner.size_nonneg c
      by_cases ho : owner.node = i
      · rw [if_pos ho, if_pos (by omega)]
      · rw [if_neg ho]
        split <;> omega
  have hbelow0 : ∀ c, 0 ≤ ownedBelow m.st.tree.links st.tree.nodes.length c := fun c =>
    DirTree.Table.total_nonneg fun _ owner => by split; exacts [owner.size_nonneg c, le_rfl]
  have hn0 : (startMerge st node listing).st.tree.nodes.length = st.tree.nodes.length := rfl
  -- a directory that was there before counts what is beside its files, and its files
  have hold : ∀ i < st.tree.nodes.length, (m.st.tree.node i).alive = true → ∀ c,
      ((t₂.node i).direct.get c : Int) = besideFiles st node listing i c + m.st.tree.owned i c := by
    intro i hi hai c
    have hia : (st.tree.node i).alive = true := hacc.alive i hi hai
    have howns : m.st.tree.owned i c = if i = node then (settleListed st.tree node listing.links listing.direct).hereOwned node c
        else ownedIn (settleListed st.tree node listing.links listing.direct).links i c :=
      (hacc.owned i hi hai c).trans (ownedIn_kept _ node i c)
    have hil : i < m.st.tree.nodes.length := DirTree.lt_of_alive hai
    have hfirst := hgrown i c
    have hsettled : settledDirect st node listing = (settleListed st.tree node listing.links listing.direct).direct := rfl
    rw [hsettled] at hfirst
    by_cases hin : i = node
    · subst hin
      rw [if_pos rfl, if_neg fun hp => Nat.lt_irrefl i (hparent i hp), add_zero] at hfirst
      rw [if_pos rfl] at howns
      have haway : ∀ pre, pre <+: (settleListed st.tree i listing.links listing.direct).writes → writtenTo pre i c = 0 :=
        fun pre hp => writtenTo_zero (fun w hw => (hs.away w (hp.subset hw)).1) c
      have h1 := hs.own c
      have h2 := Settling.hereOwned_le (settleListed st.tree i listing.links listing.direct) i c
      have h3 := (hk.listed c).1
      have h4 := hall c
      have h5 := hwritten i hil c fun pre hp => by rw [haway pre hp]; omega
      rw [haway _ (List.prefix_refl _)] at h5
      unfold besideFiles
      rw [if_pos rfl]
      omega
    · rw [if_neg hin, hacc.direct i hi] at hfirst
      rw [if_neg hin, hs.others i hin c] at howns
      have hd0 : (startMerge st node listing).st.tree.node i = st.tree.node i := rfl
      rw [hd0, st.tree.direct_eq i c] at hfirst
      have hbeside : besideFiles st node listing i c = st.tree.rest i c + if (st.tree.node node).parent = some i then
          sizeAt listing.own.blocks listing.own.apparent c - (st.tree.node node).own c else 0 := if_neg hin
      have h1 := besideFiles_nonneg hk hb hia c
      have h2 := besideFiles_lt hk hia c
      have h3 := hk.linked c
      have h4 := (hk.listed c).2
      have h5 := hwritten i hil c fun pre hp => by
        have := hs.written pre hp i hin c
        omega
      omega
  -- what was written down was for directories that were there before
  have hnew : ∀ i, st.tree.nodes.length ≤ i → (m.st.tree.node i).alive = true → ∀ c,
      ((t₂.node i).direct.get c : Int) = (m.st.tree.node i).direct.get c := by
    intro i hi hai c
    have hlt := DirTree.lt_of_alive hai
    have h1 := hgrown i c
    rw [if_neg (by omega), if_neg fun hp => by have := hparent i hp; omega, add_zero] at h1
    have haway : ∀ pre, pre <+: (settleListed st.tree node listing.links listing.direct).writes → writtenTo pre i c = 0 :=
      fun pre hp => writtenTo_zero (fun w hw he => by
        have := DirTree.lt_of_alive (hs.away w (hp.subset hw)).2
        omega) c
    have h2 := (hacc.solvent i hi hlt c).2
    have h3 := hwritten i hlt c fun pre hp => by rw [haway pre hp]; omega
    rw [haway _ (List.prefix_refl _)] at h3
    omega
  refine ⟨fun i hi hai c => ?_, fun i hi hai c => ?_, fun i hai c => ?_, fun c => ?_⟩
  · rw [halive] at hai
    unfold DirTree.rest
    rw [hold i hi hai c, howned]
    omega
  · rw [halive] at hai
    have hlt := DirTree.lt_of_alive hai
    unfold DirTree.rest
    rw [hnew i hi hai c, howned]
    exact (hacc.solvent i hi hlt c).1
  · rw [halive] at hai
    have h1 := hlimits c
    have h2 := hbelow0 c
    rw [hn0] at h1
    rcases Nat.lt_or_ge i st.tree.nodes.length with hi | hi
    · have h3 := hold i hi hai c
      have h4 := besideFiles_lt hk (hacc.alive i hi hai) c
      have h5 := hbelow i hi c
      omega
    · have h3 := hnew i hi hai c
      have h4 := (hacc.solvent i hi (DirTree.lt_of_alive hai) c).2
      omega
  · have h1 := hlimits c
    have h2 := hbelow0 c
    rw [hn0] at h1
    omega

end Relist

/-! ## Handing on -/

section Hand

variable {node : Nat} {here : List Inode}

theorem get_handSize {owner : LinkOwner} (h : ∀ c, owner.size c < 2 ^ 63) (c : Component) :
    (Delta.size (asI64 owner.blocks) (asI64 owner.apparent)).get c = owner.size c := by
  have hone : ∀ c, sizeAt owner.blocks owner.apparent c < 2 ^ 63 := fun c => by
    have := h c
    unfold LinkOwner.size at this
    omega
  cases c with
  | blocks => exact (get_size_blocks _ _).trans (asI64_eq (hone .blocks))
  | apparent => exact (get_size_apparent _ _).trans (asI64_eq (hone .apparent))
  | files | dirs | symlinks => rfl

theorem rest_relinked (t : DirTree) (links : Table Inode LinkOwner) (i : Nat) (c : Component) :
    DirTree.rest { t with links := links } i c = ((t.node i).direct.get c : Int) - ownedIn links i c := rfl

/-- A fresh file's size put to a directory along with the file. -/
theorem rest_moved {t grown : DirTree} {owner : LinkOwner} {size : Delta} (hlinks : grown.links = t.links)
    (hdirect : ∀ j, (grown.node j).direct = if j = owner.node ∧ owner.node < t.nodes.length then (t.node j).direct.apply size else (t.node j).direct)
    {inode : Inode} (hnone : t.links.get inode = none) (hlt : owner.node < t.nodes.length) {i : Nat} {c : Component}
    (hsize : size.get c = owner.size c) (hroom : (t.node i).direct.get c + owner.size c < 2 ^ 64) :
    DirTree.rest { grown with links := grown.links.put inode owner } i c = t.rest i c ∧
      (((DirTree.node { grown with links := grown.links.put inode owner } i).direct.get c : Int)) ≤ (t.node i).direct.get c + owner.size c := by
  have hput := ownedIn_put t.links inode owner i c
  have hpos := owner.size_nonneg c
  rw [hnone, Option.elim_none, add_zero] at hput
  have howned : t.owned i c = ownedIn t.links i c := rfl
  rw [rest_relinked, hlinks]
  show _ ∧ ((grown.node i).direct.get c : Int) ≤ _
  unfold DirTree.rest
  rw [hdirect, howned]
  by_cases hin : i = owner.node
  · rw [if_pos ⟨hin, hlt⟩]
    have := Tally.get_apply_eq (t := (t.node i).direct) (d := size) (c := c) (by omega) (by omega)
    rw [if_pos hin.symm] at hput
    omega
  · rw [if_neg fun h => hin h.1]
    rw [if_neg fun h => hin h.symm] at hput
    omega

/-- A link handed on moves its size along with its owner. -/
theorem rest_hand {h : Handing} (ho : h.tree.OwnersAlive) {link : Inode × LinkOwner} (hsize : ∀ c, link.2.size c < 2 ^ 63)
    (hroom : ∀ i, (h.tree.node i).alive = true → ∀ c, (h.tree.node i).direct.get c + link.2.size c < 2 ^ 64) (i : Nat)
    (hi : (h.tree.node i).alive = true) (c : Component) :
    (h.hand node here link).tree.rest i c = h.tree.rest i c ∧
      ((h.hand node here link).tree.node i).direct.get c ≤ (h.tree.node i).direct.get c + link.2.size c := by
  have hpos := link.2.size_nonneg c
  rcases @hand_spec node here h link with ⟨counted, others, hget, -, he⟩ | ⟨hdead, ⟨-, he⟩ | ⟨next, others, hn, he⟩⟩
  · rw [he]
    refine ⟨?_, by show ((h.tree.node i).direct.get c : Int) ≤ _; omega⟩
    have hput := ownedIn_put h.tree.links link.1 { counted with others := others } i c
    rw [hget] at hput
    have hsame : ownedIn (h.tree.links.put link.1 { counted with others := others }) i c = ownedIn h.tree.links i c :=
      add_right_cancel hput
    rw [rest_relinked, hsame]
    rfl
  · rw [he]
    exact ⟨rfl, by omega⟩
  · have hnone : h.tree.links.get link.1 = none := by
      cases hget : h.tree.links.get link.1 with
      | none => rfl
      | some owner =>
        have halive := ho link.1 owner hget
        unfold TreeState.ownerAlive at hdead
        rw [hget] at hdead
        rw [show (h.tree.node owner.node).alive = false from hdead] at halive
        cases halive
    have htakes := (Bool.and_eq_true_iff.1 (nextOwner_some hn).2).1
    have hdelta := get_handSize hsize c
    rw [he]
    generalize Delta.size (asI64 link.2.blocks) (asI64 link.2.apparent) = size at hdelta
    exact @rest_moved h.tree (h.tree.grow next size) { link.2 with node := next, others := others } size (sameLinks_grow h.tree next size).links
      (DirTree.direct_grow h.tree next size) _ hnone (DirTree.lt_of_alive htakes) _ _ hdelta (hroom i hi c)

/-- After all links are handed on every directory counts what it did beside its files. -/
theorem rest_hands : ∀ (links : List (Inode × LinkOwner)) (h : Handing), h.tree.OwnersAlive →
    (∀ c, handedSize links c < 2 ^ 63) →
    (∀ i, (h.tree.node i).alive = true → ∀ c, (h.tree.node i).direct.get c + handedSize links c < 2 ^ 64) →
    ∀ i, (h.tree.node i).alive = true → ∀ c, (links.foldl (Handing.hand node here) h).tree.rest i c = h.tree.rest i c
  | [], _, _, _, _, _, _, _ => rfl
  | link :: links, h, ho, hsize, hroom, i, hi, c => by
    have hcons : ∀ c, handedSize (link :: links) c = link.2.size c + handedSize links c := fun _ => rfl
    have hpos := fun c => handedSize_nonneg links c
    have hlink := fun c => link.2.size_nonneg c
    simp only [hcons] at hsize hroom
    have hone := @rest_hand node here h ho link (fun c => by have := hsize c; have := hpos c; omega)
      fun i hi c => by have := hroom i hi c; have := hpos c; omega
    have hshape := @sameShape_hand node here h link
    have hrest := rest_hands links (h.hand node here link) (ownersAlive_hands [link] h ho)
      (fun c => by have := hsize c; have := hlink c; omega)
      (fun j hj c => by
        rw [hshape.alive] at hj
        have := (hone j hj c).2; have := hroom j hj c
        omega) i (by rw [hshape.alive]; exact hi) c
    rw [List.foldl_cons, hrest, (hone i hi c).1]

end Hand

section Relist

variable {target : Target} {answers : Answers} {st : TreeState} {node : Nat} {listing : Listing}

theorem alive_applyAll (target : Target) (answers : Answers) (st : TreeState) (node : Nat) (listing : Listing) (i : Nat) :
    ((applyAll target answers st node listing).1.tree.node i).alive = ((settledTree target answers st node listing).node i).alive := by
  obtain ⟨asked, he, -⟩ := applyAll_handing target answers st node listing
  rw [he]
  exact (sameShape_hands _ _).alive i

/-- After a re-read a directory that was there counts what `besideFiles` says beside its files, and a new
one counts its files. -/
theorem rest_applyAll (hw : answers.FreshWalks) (ho : answers.ProperEntries) (h : Owned st.tree) (hb : st.tree.Backed)
    (ha : (st.tree.node node).alive = true) (hl : readListing target answers st node = .ok listing)
    (hk : SizesFit answers st node listing) (i : Nat) (hi : ((applyAll target answers st node listing).1.tree.node i).alive = true)
    (c : Component) :
    (i < st.tree.nodes.length → (applyAll target answers st node listing).1.tree.rest i c = besideFiles st node listing i c) ∧
      (st.tree.nodes.length ≤ i → 0 ≤ (applyAll target answers st node listing).1.tree.rest i c) := by
  have hfigures := settledFigures hw ho h hb ha hl hk
  obtain ⟨-, hacc⟩ := accounts_merged hw ho h ha hl hk
  have howners := (sameLinks_settledTree target answers st node listing).ownersAlive hacc.owners
  rw [alive_applyAll] at hi
  obtain ⟨asked, he, -⟩ := applyAll_handing target answers st node listing
  have hrest := @rest_hands node (listedLinks st node listing) _
    { tree := settledTree target answers st node listing, requeue := asked } howners hfigures.handed hfigures.room i hi c
  rw [he, hrest]
  exact ⟨fun hlt => hfigures.old i hlt hi c, fun hge => hfigures.new i hge hi c⟩

end Relist

/-! ## Runs -/

/-- A directory that is read again: alive, not sealed, and listed. -/
def Relists (target : Target) (answers : Answers) (st : TreeState) (node : Nat) (listing : Listing) : Prop :=
  (st.tree.node node).alive = true ∧ (st.tree.node node).isSealed = false ∧ readListing target answers st node = .ok listing

/-- Across a re-read every multiply linked file is counted once, in one alive directory. -/
structure CountsOnce (target : Target) (answers : Answers) (st : TreeState) (node : Nat) : Prop where
  owners : (relist target answers st node).1.tree.OwnersAlive
  /-- The directory read counts what it lists and the files it owns. -/
  read : ∀ listing, Relists target answers st node listing → ∀ c,
    (((relist target answers st node).1.tree.node node).direct.get c : Int) =
      listing.direct.get c + (relist target answers st node).1.tree.owned node c
  /-- A directory that survives counts the rest as before; the parent, with the growth of the directory's own inode. -/
  others : ∀ listing, Relists target answers st node listing → ∀ i, i ≠ node → (st.tree.node i).alive = true →
    ((relist target answers st node).1.tree.node i).alive = true → ∀ c,
      (relist target answers st node).1.tree.rest i c = st.tree.rest i c +
        if (st.tree.node node).parent = some i then sizeAt listing.own.blocks listing.own.apparent c - (st.tree.node node).own c else 0
  unread : (∀ listing, ¬Relists target answers st node listing) → (relist target answers st node).1 = st

/-- The states reached from a scan while totals stay below the limit and parents count what
their subdirectories' inodes lose. -/
inductive SizedRun : TreeState → Prop
  | scan {host : Host} {target : Target} {hash : Bytes → Nat} {t : DirTree} {counted : Table Inode (Nat × Link)}
      (h : Walk.CountScan host target hash t counted) (hk : host.listing.Proper)
      (hs : ∀ i < t.nodes.length, ∀ c, (t.node i).direct.get c < 2 ^ 62) (generation : Nat) : SizedRun (TreeState.new t generation)
  | relist {st : TreeState} (h : SizedRun st) (target : Target) (answers : Answers) (node : Nat) (hs : answers.Sound)
      (hk : ∀ listing, Relists target answers st node listing → SizesFit answers st node listing) :
      SizedRun (relist target answers st node).1
  | touch {st : TreeState} (h : SizedRun st) (dir : Nat) (at_ : Int) : SizedRun { st with tree := st.tree.touch dir at_ }

section Runs

variable {target : Target} {answers : Answers} {st : TreeState} {node : Nat}

theorem SizedRun.reached (h : SizedRun st) : LiveReached st := by
  induction h with
  | scan h hk hs generation => exact .scan h hk generation
  | relist h target answers node hs hk ih => exact ih.relist target answers node hs
  | touch h dir at_ ih => exact ih.touch dir at_

/-- A re-read lists the directory, or leaves the state alone. -/
theorem relist_cases (target : Target) (answers : Answers) (st : TreeState) (node : Nat) :
    (∃ listing, Relists target answers st node listing ∧ relist target answers st node = applyAll target answers st node listing) ∨
      (∀ listing, ¬Relists target answers st node listing) ∧ (relist target answers st node).1 = st := by
  unfold Relists relist
  split
  · rename_i hread
    refine .inr ⟨fun listing hl => ?_, rfl⟩
    rw [hl.1, hl.2.1] at hread
    cases hread
  · rename_i hread
    rw [Bool.or_eq_true, Bool.not_eq_true', not_or, Bool.not_eq_false, Bool.not_eq_true] at hread
    cases hl : readListing target answers st node with
    | ok listing => exact .inl ⟨listing, ⟨hread.1, hread.2, rfl⟩, rfl⟩
    | error error =>
      refine .inr ⟨fun listing h => ?_, ?_⟩
      · cases h.2.2
      dsimp only
      split
      · split <;> rfl
      · rfl

theorem Relists.relist_eq (hl : Relists target answers st node listing) :
    relist target answers st node = applyAll target answers st node listing := by
  rcases relist_cases target answers st node with ⟨listing', hl', he⟩ | ⟨hno, -⟩
  · cases hl'.2.2.symm.trans hl.2.2
    exact he
  · exact absurd hl (hno listing)

theorem backed_relist (hs : answers.Sound) (h : Owned st.tree) (hb : st.tree.Backed)
    (hk : ∀ listing, Relists target answers st node listing → SizesFit answers st node listing) :
    (relist target answers st node).1.tree.Backed := by
  rcases relist_cases target answers st node with ⟨listing, hl, he⟩ | ⟨-, he⟩
  · have hfit := hk listing hl
    intro i hi c
    rw [he] at hi ⊢
    obtain ⟨hold, hnew⟩ := rest_applyAll hs.walks hs.entries h hb hl.1 hl.2.2 hfit i hi c
    rcases Nat.lt_or_ge i st.tree.nodes.length with hlt | hge
    · rw [hold hlt]
      refine besideFiles_nonneg hfit hb ?_ c
      rw [alive_applyAll, (sameLinks_settledTree target answers st node listing).shape.alive] at hi
      exact (accounts_merged hs.walks hs.entries h hl.1 hl.2.2 hfit).2.alive i hlt hi
    · exact hnew hge
  · rw [he]
    exact hb

/-- In every state of such a run every alive directory counts the files it owns. -/
theorem backed_of_run (h : SizedRun st) : st.tree.Backed := by
  induction h with
  | @scan host target hash t counted h hk hs generation =>
    intro i hi c
    have hf := h.fresh hk
    have hlt : i < t.nodes.length := DirTree.lt_of_alive hi
    have hcov := hf.covered i hlt c ((hs i hlt c).trans (by decide))
    have hnn : 0 ≤ t.overChildren i fun n => n.own c := DirTree.overChildren_nonneg fun n => n.own_nonneg c
    exact hnn.trans hcov
  | relist h target answers node hs hk ih => exact backed_relist hs (owned_of_reached h.reached) ih hk
  | @touch st h dir at_ ih =>
    intro i hi c
    have hsame := sameLinks_touch st.tree dir at_
    have hi' : (st.tree.node i).alive = true := (hsame.shape.alive i).symm.trans hi
    have hrest : (st.tree.touch dir at_).rest i c = st.tree.rest i c := by
      unfold DirTree.rest
      rw [direct_touch, DirTree.owned_congr hsame.links]
    show 0 ≤ (st.tree.touch dir at_).rest i c
    rw [hrest]
    exact ih i hi' c

/-- In a run within the limits every re-read counts every multiply linked file once. -/
theorem links_counted_once (h : SizedRun st) (hs : answers.Sound)
    (hk : ∀ listing, Relists target answers st node listing → SizesFit answers st node listing) :
    CountsOnce target answers st node := by
  have howned := owned_of_reached h.reached
  have hb := backed_of_run h
  refine ⟨(owned_relist hs howned target node).owners, fun listing hl c => ?_, fun listing hl i hin hi hai c => ?_, fun hno => ?_⟩
  · have hfit := hk _ hl
    have hai : ((applyAll target answers st node listing).1.tree.node node).alive = true := by
      rw [alive_applyAll, (sameLinks_settledTree target answers st node listing).shape.alive]
      exact (accounts_merged hs.walks hs.entries howned hl.1 hl.2.2 hfit).1.alive
    have hrest := (rest_applyAll hs.walks hs.entries howned hb hl.1 hl.2.2 hfit node hai c).1 (DirTree.lt_of_alive hl.1)
    unfold besideFiles at hrest
    rw [if_pos rfl] at hrest
    rw [hl.relist_eq, DirTree.direct_eq, hrest]
  · rw [hl.relist_eq] at hai ⊢
    have hrest := (rest_applyAll hs.walks hs.entries howned hb hl.1 hl.2.2 (hk _ hl) i hai c).1 (DirTree.lt_of_alive hi)
    unfold besideFiles at hrest
    rwa [if_neg hin] at hrest
  · rcases relist_cases target answers st node with ⟨listing, hl, -⟩ | ⟨-, he⟩
    · exact absurd hl (hno listing)
    · exact he

end Runs

/-! ## A file that grew, and its directory gone -/

/-- The file of `/d/b`, larger than it was. -/
def largerEntry : Entry :=
  { name := [121], stat := .ok { kind := .file, dev := 1, ino := 7, nlink := 2, blocks := 1024, size := 20, mtime := 0 }, handle := none }

/-- A re-read of `/d` that lists it, and directories by these names. -/
def largerAnswers (names : List Bytes) : Answers where
  byHandle := false
  opened := .ok (topStat,
    { entries := names.map (fun name => { name := name, stat := .ok holdingStat, handle := none }) ++ [largerEntry], fail := none })
  dirHandle _ := none
  walk _ := none

def largerListing (names : List Bytes) : Listing where
  direct := { apparent := 2 * names.length, dirs := names.length, files := 1 }
  subdirs := names.map holdingSubdir
  links := [⟨(1, 7), 1024, 20⟩]
  own := ⟨0, 2, 0⟩
  newest := 0

theorem sound_larger {names : List Bytes} (hn : (names ++ [[121]]).Nodup) (hp : ∀ name ∈ names, ProperName name) : (largerAnswers names).Sound := by
  refine ⟨fun _ _ he => (by cases he), fun own reading he => ?_⟩
  cases he
  refine ⟨by rw [List.map_append, List.map_map]; exact (List.map_id names).symm ▸ hn, fun e he => ?_⟩
  rcases List.mem_append.1 he with he | he
  · obtain ⟨name, hm, rfl⟩ := List.mem_map.1 he
    exact .inr (hp name hm)
  · rw [List.mem_singleton.1 he]
    exact .inr (by decide)

/-- A re-read of `/d/b` that lists the file larger, and the directory itself too. -/
def thickAnswers : Answers where
  byHandle := false
  opened := .ok ({ holdingStat with size := 5 }, { entries := [largerEntry], fail := none })
  dirHandle _ := none
  walk _ := none

def thickListing : Listing where
  direct := { files := 1 }
  links := [⟨(1, 7), 1024, 20⟩]
  own := ⟨0, 5, 0⟩
  newest := 0

theorem sound_thick : thickAnswers.Sound := by
  refine ⟨fun _ _ he => (by cases he), fun own reading he => ?_⟩
  cases he
  exact ⟨List.nodup_singleton _, fun e he => .inr (by rw [List.mem_singleton.1 he]; decide)⟩

theorem run_holding : SizedRun holdingState := by
  obtain ⟨counted, h⟩ := scan_holding
  refine .scan h (proper_holdingHost (by decide)) (fun i hi c => ?_) 1
  have hlt : i < 2 := hi
  rcases (show i = 0 ∨ i = 1 by omega) with rfl | rfl <;> cases c <;> decide

theorem direct_holding {i : Nat} (hi : (holdingState.tree.node i).alive = true) (c : Component) :
    (holdingState.tree.node i).direct.get c < 2 ^ 62 := by
  have hlt : i < 2 := DirTree.lt_of_alive hi
  rcases (show i = 0 ∨ i = 1 by omega) with rfl | rfl <;> cases c <;> decide

theorem sizesFit_larger {names : List Bytes} (hdirect : ∀ c, (largerListing names).direct.get c < 2 ^ 62) :
    SizesFit (largerAnswers names) holdingState 0 (largerListing names) := by
  have hlisted : ∀ c, listedSize [(⟨(1, 7), 1024, 20⟩ : ListedLink)] c < 2 ^ 62 := fun c => by cases c <;> decide
  have hown : ∀ c, (holdingState.tree.node 0).own c < 2 ^ 62 ∧ sizeAt 0 2 c < 2 ^ 62 := fun c => by cases c <;> decide
  exact ⟨⟨fun i hi => direct_holding hi, fun c => by cases c <;> decide, fun c => ⟨hdirect c, hlisted c⟩, hown,
    fun _ _ he => (by cases he)⟩, fun p hp => (by cases hp)⟩

theorem sizesFit_thick : SizesFit thickAnswers holdingState 1 thickListing := by
  refine ⟨⟨fun i hi => direct_holding hi, fun c => by cases c <;> decide, fun c => by cases c <;> decide,
    fun c => by cases c <;> decide, fun _ _ he => (by cases he)⟩, fun p hp => ?_⟩
  obtain rfl : 0 = p := Option.some.inj hp
  exact fun c => by cases c <;> decide

/-- `/d/b` counts the file at its new size, and `/d` the growth of `/d/b`; with `/d/b` gone, `/d` takes the file over. -/
theorem links_counted_once_holding : CountsOnce smallTarget thickAnswers holdingState 1 ∧
    CountsOnce smallTarget (largerAnswers []) holdingState 0 ∧
    (holdingState.tree.links.get (1, 7)).map LinkOwner.node = some 1 ∧
    ((relist smallTarget (largerAnswers []) holdingState 0).1.tree.links.get (1, 7)).map LinkOwner.node = some 0 := by
  refine ⟨links_counted_once run_holding sound_thick fun listing hl => ?_,
    links_counted_once run_holding (sound_larger (by decide) (by decide)) fun listing hl => ?_, by decide, by decide⟩
  · obtain rfl : thickListing = listing := Except.ok.inj hl.2.2
    exact sizesFit_thick
  · obtain rfl : largerListing [] = listing := Except.ok.inj hl.2.2
    exact sizesFit_larger fun c => by cases c <;> decide

/-! ## A directory that grew while it was walked -/

open Walk

/-- `/d/x` as its parent's re-read lists it, and as its walk finds it. -/
def thinStat : Stat := { kind := .directory, dev := 1, ino := 3, nlink := 2, blocks := 4096, size := 4096, mtime := 0 }
def wideStat : Stat := { thinStat with blocks := 8192, size := 8192 }

/-- An empty directory with this `stat`. -/
def statHost (own : Stat) : Host := { emptyHost with stat := fun _ _ answer => answer = .ok own }

/-- An empty directory. -/
def emptyDir (ino : Nat) : Stat := { listedStat with ino := ino }

/-- The target `/d/x` is walked as. -/
def grownTarget : Target :=
  { emptyWalk.target with
    displayPath := [slash, 100, slash, 120]
    scanPath := [slash, 100, slash, 120]
    reportDepth := 0
    treeMaxDirectories := 99 }

def statTree (target : Target) (stat : Stat) : DirTree where
  displayRoot := target.displayPath
  scanRoot := target.scanPath
  rootDev := 1
  nodes := [{ name := [], parent := none, depth := 0, ino := stat.ino, ownBlocks := stat.blocks, ownApparent := stat.size, mtime := 0
              newest := 0, direct := {}, sub := {}, children := [], isSealed := false, pruned := false, alive := true }]
  links := .empty
  handles := []
  plain := []
  untrackedLinks := []

theorem scan_empty : ∃ counted, CountScan (statHost listedStat) emptyWalk.target List.length (statTree emptyWalk.target listedStat) counted := by
  have h0 : Walking (statHost listedStat) (start emptyWalk.target listedStat List.length) listedStat none (n := 0) _ := .initial false
  have h1 := WorkPool.Reachable.step h0 (.worker (.spawnDone (i := 0) rfl (by decide)))
  have h2 := WorkPool.Reachable.step h1 (.worker (.retire (i := 0) rfl))
  have h3 := WorkPool.Reachable.step h2 (.worker (.more (i := 0) rfl (.opened rfl)))
  have h4 := WorkPool.Reachable.step h3 (.worker (.done (i := 0) rfl (.closed rfl rfl)))
  have h5 := WorkPool.Reachable.step h4 (.worker (.retire (i := 0) rfl))
  exact ⟨_, .walked rfl rfl rfl (by simp [RootHandle, emptyWalk]) (by decide) (by decide) rfl h5 (by decide) rfl rfl⟩

theorem scan_grown : ∃ counted, CountScan (statHost wideStat) grownTarget List.length (statTree grownTarget wideStat) counted := by
  have h0 : Walking (statHost wideStat) (start grownTarget wideStat List.length) wideStat none (n := 0) _ := .initial false
  have h1 := WorkPool.Reachable.step h0 (.worker (.spawnDone (i := 0) rfl (by decide)))
  have h2 := WorkPool.Reachable.step h1 (.worker (.retire (i := 0) rfl))
  have h3 := WorkPool.Reachable.step h2 (.worker (.more (i := 0) rfl (.opened rfl)))
  have h4 := WorkPool.Reachable.step h3 (.worker (.done (i := 0) rfl (.closed rfl rfl)))
  have h5 := WorkPool.Reachable.step h4 (.worker (.retire (i := 0) rfl))
  exact ⟨_, .walked rfl rfl rfl (by simp [RootHandle, grownTarget, emptyWalk]) (by decide) (by decide) rfl h5 (by decide) rfl rfl⟩

theorem proper_statHost (stat : Stat) : (statHost stat).listing.Proper := by
  intro path reading hr
  cases hr
  exact ⟨List.nodup_nil, fun e he => absurd he List.not_mem_nil⟩

/-- A re-read of `/d` that lists `/d/x`. -/
def grownAnswers (walk : Target → Option DirTree) : Answers where
  byHandle := false
  opened := .ok (listedStat, { entries := [{ name := [120], stat := .ok thinStat, handle := none }], fail := none })
  dirHandle _ := none
  walk := walk

open Classical in
noncomputable def grownWalks : Answers := grownAnswers fun target => if target = grownTarget then some (statTree grownTarget wideStat) else none

def grownListing : Listing where
  direct := { dirs := 1, blocks := 4096, apparent := 4096 }
  subdirs := [{ name := [120], ino := 3, blocks := 4096, apparent := 4096, mtime := 0 }]
  own := ⟨4096, 4096, 0⟩
  newest := 0

/-- The state after the scan, and after the re-read. -/
def emptyState : TreeState := TreeState.new (statTree emptyWalk.target listedStat) 1

def grownState : TreeState := (relist emptyWalk.target (grownAnswers fun _ => some (statTree grownTarget wideStat)) emptyState 0).1

theorem sound_grown : grownWalks.Sound := by
  refine ⟨fun target tree h => ?_, fun own reading h => ?_⟩
  · obtain ⟨counted, hscan⟩ := scan_grown
    unfold grownWalks grownAnswers at h
    dsimp only at h
    split at h
    · rename_i ht
      cases h
      subst ht
      exact ⟨_, _, counted, proper_statHost _, hscan⟩
    · cases h
  · cases h
    exact ⟨by decide, by decide⟩

theorem small_grown : grownWalks.SmallWalks := by
  intro target tree h i hi c
  unfold grownWalks grownAnswers at h
  dsimp only at h
  split at h
  · cases h
    have hlt : i < 1 := hi
    obtain rfl : i = 0 := by omega
    cases c <;> decide
  · cases h

theorem relist_grown : relist emptyWalk.target grownWalks emptyState 0 =
    relist emptyWalk.target (grownAnswers fun _ => some (statTree grownTarget wideStat)) emptyState 0 := by
  have hwalk : grownWalks.walk (walkTarget emptyWalk.target grownWalks (startMerge emptyState 0 grownListing).st.tree 0 [120]) =
      some (statTree grownTarget wideStat) := if_pos rfl
  have hadd : (startMerge emptyState 0 grownListing).add emptyWalk.target grownWalks 0
        { name := [120], ino := 3, blocks := 4096, apparent := 4096, mtime := 0 } =
      (startMerge emptyState 0 grownListing).add emptyWalk.target (grownAnswers fun _ => some (statTree grownTarget wideStat)) 0
        { name := [120], ino := 3, blocks := 4096, apparent := 4096, mtime := 0 } := by
    unfold Merge.add walkNew
    rw [hwalk]
    rfl
  have hmerge : mergeListing emptyWalk.target grownWalks emptyState 0 grownListing =
      mergeListing emptyWalk.target (grownAnswers fun _ => some (statTree grownTarget wideStat)) emptyState 0 grownListing :=
    congrArg (fun m : Merge => (settleLinks emptyState.tree 0 [] grownListing.direct, m)) hadd
  show applyAll emptyWalk.target grownWalks emptyState 0 grownListing = applyAll emptyWalk.target _ emptyState 0 grownListing
  unfold applyAll
  rw [hmerge]

theorem run_empty : SizedRun emptyState := by
  obtain ⟨counted, h⟩ := scan_empty
  refine .scan h (proper_statHost _) (fun i hi c => ?_) 1
  have hlt : i < 1 := hi
  obtain rfl : i = 0 := by omega
  cases c <;> decide

theorem fits_grown (listing : Listing) (hl : Relists emptyWalk.target grownWalks emptyState 0 listing) :
    SizesFit grownWalks emptyState 0 listing := by
  obtain rfl : grownListing = listing := Except.ok.inj hl.2.2
  refine ⟨⟨fun i hi c => ?_, fun c => by cases c <;> decide, fun c => by cases c <;> decide, fun c => by cases c <;> decide,
    small_grown⟩, fun p hp => by cases hp⟩
  have hlt : i < 1 := DirTree.lt_of_alive hi
  obtain rfl : i = 0 := by omega
  cases c <;> decide

/-- A re-read of `/d/x` that finds it emptied. -/
def emptiedAnswers : Answers where
  byHandle := false
  opened := .ok ({ thinStat with blocks := 0, size := 0 }, { entries := [], fail := none })
  dirHandle _ := none
  walk _ := none

def emptiedListing : Listing where
  own := ⟨0, 0, 0⟩
  newest := 0

theorem run_grown : SizedRun grownState := by
  have h := run_empty.relist emptyWalk.target grownWalks 0 sound_grown fits_grown
  rwa [relist_grown] at h

/-- The walk of `/d/x` found its inode larger than `/d` lists it; when it shrinks, `/d` loses more than it
counted, and stops at zero. -/
theorem parent_clamped : ¬∀ (st : TreeState) (target : Target) (answers : Answers) (node : Nat), SizedRun st → answers.Sound →
    (∀ listing, Relists target answers st node listing → BelowLimit answers st node listing) → CountsOnce target answers st node := by
  intro h
  have hsound : emptiedAnswers.Sound := by
    refine ⟨fun _ _ he => ?_, fun own reading he => ?_⟩
    · cases he
    · cases he
      exact ⟨List.nodup_nil, fun e he => absurd he List.not_mem_nil⟩
  have hlists : Relists emptyWalk.target emptiedAnswers grownState 1 emptiedListing := ⟨rfl, rfl, rfl⟩
  have honce := h grownState emptyWalk.target emptiedAnswers 1 run_grown hsound fun listing hl => by
    obtain rfl : emptiedListing = listing := Except.ok.inj hl.2.2
    refine ⟨fun i hi c => ?_, fun c => by cases c <;> decide, fun c => by cases c <;> decide, fun c => by cases c <;> decide,
      fun _ _ he => by cases he⟩
    have hlt : i < 2 := DirTree.lt_of_alive hi
    rcases (show i = 0 ∨ i = 1 by omega) with rfl | rfl <;> cases c <;> decide
  have hrest := honce.others emptiedListing hlists 0 (by decide) rfl rfl .blocks
  exact absurd hrest (by decide)

end StorageHarvester
