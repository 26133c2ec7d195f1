/-
What every directory counts of multiply linked files, through a re-read. Settling moves each listed
file's size to where it counts, or writes it down for the directory that counts it; the merge leaves
every other directory's account alone; handing on moves a size together with its owner. Within the
limits nothing saturates, and nothing clamps but a parent that counts less for the directory's own
inode than the directory has.
-/
import StorageHarvester.Live.Exact
import StorageHarvester.Live.Frame

namespace StorageHarvester

open Forest

/-! ## Accounts -/

/-- What `m` counts of a table's files. -/
def ownedIn (links : Table Inode LinkOwner) (m : Nat) (c : Component) : Int :=
  links.total fun _ owner => if owner.node = m then owner.size c else 0

/-- All of a table's files. -/
def linkedIn (links : Table Inode LinkOwner) (c : Component) : Int := links.total fun _ owner => owner.size c

/-- What the size changes noted come to for files counted in `m`. -/
def writtenTo (writes : List (Nat × Delta)) (m : Nat) (c : Component) : Int :=
  (writes.map fun w => if w.1 = m then w.2.get c else 0).sum

/-- What the links handed on come to. -/
def handedSize (links : List (Inode × LinkOwner)) (c : Component) : Int := (links.map fun e => e.2.size c).sum

def ListedLink.size (link : ListedLink) (c : Component) : Int := sizeAt link.blocks link.apparent c

/-- What a listing's links come to, an inode listed twice counted twice. -/
def listedSize (listed : List ListedLink) (c : Component) : Int := (listed.map fun link => link.size c).sum

theorem ownedIn_nonneg (links : Table Inode LinkOwner) (m : Nat) (c : Component) : 0 ≤ ownedIn links m c :=
  DirTree.Table.total_nonneg fun _ owner => by split; exacts [owner.size_nonneg c, le_rfl]

theorem ownedIn_le_linkedIn (links : Table Inode LinkOwner) (m : Nat) (c : Component) : ownedIn links m c ≤ linkedIn links c :=
  DirTree.Table.total_mono fun _ owner _ => by split; exacts [le_rfl, owner.size_nonneg c]

theorem listedSize_nonneg (listed : List ListedLink) (c : Component) : 0 ≤ listedSize listed c :=
  List.sum_nonneg fun x hx => by
    obtain ⟨link, -, rfl⟩ := List.mem_map.1 hx
    exact Int.natCast_nonneg _

theorem handedSize_nonneg (links : List (Inode × LinkOwner)) (c : Component) : 0 ≤ handedSize links c :=
  List.sum_nonneg fun x hx => by
    obtain ⟨e, -, rfl⟩ := List.mem_map.1 hx
    exact e.2.size_nonneg c

/-- A share is among all. -/
theorem Table.le_total {κ ν : Type*} [DecidableEq κ] {t : Table κ ν} {f : κ → ν → Int} (h : ∀ k v, 0 ≤ f k v) {k : κ} {v : ν}
    (hk : t.get k = some v) : f k v ≤ t.total f := by
  have hd := Table.total_del t k f
  rw [hk, Option.elim_some] at hd
  have : 0 ≤ (t.del k).total f := DirTree.Table.total_nonneg h
  omega

/-- A file is among all. -/
theorem size_le_linkedIn {links : Table Inode LinkOwner} {inode : Inode} {owner : LinkOwner} (h : links.get inode = some owner)
    (c : Component) : owner.size c ≤ linkedIn links c :=
  Table.le_total (f := fun _ (o : LinkOwner) => o.size c) (fun _ o => o.size_nonneg c) h

theorem size_le_ownedIn {links : Table Inode LinkOwner} {inode : Inode} {owner : LinkOwner} (h : links.get inode = some owner)
    (c : Component) : owner.size c ≤ ownedIn links owner.node c := by
  have hle : (if owner.node = owner.node then owner.size c else 0) ≤ ownedIn links owner.node c :=
    Table.le_total (f := fun _ (o : LinkOwner) => if o.node = owner.node then o.size c else 0)
      (fun _ o => by split; exacts [o.size_nonneg c, le_rfl]) h
  rwa [if_pos rfl] at hle

/-- Binding a file moves its old size out and the new one in. -/
theorem linkedIn_put (links : Table Inode LinkOwner) (inode : Inode) (owner : LinkOwner) (c : Component) :
    linkedIn (links.put inode owner) c + (links.get inode).elim 0 (fun o => o.size c) = linkedIn links c + owner.size c :=
  Table.total_put links inode owner fun _ o => o.size c

theorem ownedIn_put (links : Table Inode LinkOwner) (inode : Inode) (owner : LinkOwner) (m : Nat) (c : Component) :
    ownedIn (links.put inode owner) m c + (links.get inode).elim 0 (fun o => if o.node = m then o.size c else 0) =
      ownedIn links m c + if owner.node = m then owner.size c else 0 :=
  Table.total_put links inode owner fun _ o => if o.node = m then o.size c else 0

/-- The difference of two sizes below the limit. -/
theorem get_sizeChange {new new' old old' : Nat} (hn : ∀ c, sizeAt new new' c < 2 ^ 63) (ho : ∀ c, sizeAt old old' c < 2 ^ 63)
    (c : Component) : (Delta.size (subI64 new old) (subI64 new' old')).get c = (sizeAt new new' c : Int) - sizeAt old old' c := by
  cases c with
  | blocks => exact (get_size_blocks _ _).trans (subI64_eq (hn .blocks) (ho .blocks))
  | apparent => exact (get_size_apparent _ _).trans (subI64_eq (hn .apparent) (ho .apparent))
  | files | dirs | symlinks => rfl

/-! ## Figures of a directory -/

namespace DirTree

theorem node_grow (t : DirTree) (i : Nat) (d : Delta) (j : Nat) : (t.grow i d).node j =
    { (t.applyDirect i d).node j with sub := ((t.grow i d).node j).sub } := node_propagate _ i d j

theorem direct_grow (t : DirTree) (i : Nat) (d : Delta) (j : Nat) : ((t.grow i d).node j).direct =
    if j = i ∧ i < t.nodes.length then (t.node j).direct.apply d else (t.node j).direct := by
  rw [node_grow, node_applyDirect]
  split <;> rfl

/-- Every alive directory counts the files it owns. -/
def Backed (t : DirTree) : Prop := ∀ i, (t.node i).alive = true → ∀ c, 0 ≤ t.rest i c

end DirTree

/-! ## Settling -/

/-- What the directory itself counts of the files it lists. -/
def Settling.hereOwned (s : Settling) (node : Nat) (c : Component) : Int :=
  s.links.total fun inode owner => if owner.node = node then (if s.here.contains inode then owner.size c else 0) else 0

theorem Settling.hereOwned_le (s : Settling) (node : Nat) (c : Component) : s.hereOwned node c ≤ linkedIn s.links c :=
  DirTree.Table.total_mono fun _ owner _ => by
    have := owner.size_nonneg c
    split
    · split <;> omega
    · exact this

/-- One listed file settled: it was settled before; or its size is put to the directory read; or it
is written down for the directory that counts it. -/
theorem settle_cases {tree : DirTree} {node : Nat} {s : Settling} (ha : AliveIn tree s.links) (link : ListedLink)
    (hlink : ∀ c, link.size c < 2 ^ 63) (hlimit : ∀ c, linkedIn s.links c < 2 ^ 63) :
    s.settle tree node link = s ∨ s.here.contains link.inode = false ∧
      (s.settle tree node link).here = s.here ++ [link.inode] ∧
      ((∃ owner : LinkOwner, owner.node = node ∧ (∀ c, owner.size c = link.size c) ∧
          (∀ old, s.links.get link.inode = some old → old.node = node) ∧
          (s.settle tree node link).links = s.links.put link.inode owner ∧
          (s.settle tree node link).direct = s.direct.addSize link.blocks link.apparent ∧
          (s.settle tree node link).writes = s.writes) ∨
        ∃ old owner : LinkOwner, s.links.get link.inode = some old ∧ old.node ≠ node ∧ owner.node = old.node ∧
          (∀ c, owner.size c = link.size c) ∧ (s.settle tree node link).links = s.links.put link.inode owner ∧
          (s.settle tree node link).direct = s.direct ∧
          ((s.settle tree node link).writes = s.writes ∧ (∀ c, old.size c = link.size c) ∨
            ∃ change : Delta, (∀ c, change.get c = link.size c - old.size c) ∧
              (s.settle tree node link).writes = s.writes ++ [(old.node, change)])) := by
  unfold Settling.settle
  dsimp only
  cases hc : s.here.contains link.inode with
  | true => exact .inl (if_pos rfl)
  | false =>
    right
    rw [if_neg Bool.false_ne_true]
    cases hg : s.links.get link.inode with
    | none =>
      refine ⟨rfl, rfl, .inl ⟨{ node := node, blocks := link.blocks, apparent := link.apparent, others := [] }, rfl, fun _ => rfl,
        fun _ h => ?_, rfl, rfl, rfl⟩⟩
      cases h
    | some old =>
      dsimp only
      by_cases hn : old.node = node
      · rw [if_pos hn]
        exact ⟨rfl, rfl, .inl ⟨{ old with blocks := link.blocks, apparent := link.apparent }, hn, fun _ => rfl,
          fun _ h => by cases h; exact hn, rfl, rfl, rfl⟩⟩
      · -- counted in another directory that is alive: this one is noted as a holder, the size changes there
        rw [if_neg hn, if_pos (ha link.inode old hg)]
        have hnoted : (if old.others.contains node then old else { old with others := old.others ++ [node] }).node = old.node ∧
            (if old.others.contains node then old else { old with others := old.others ++ [node] }).blocks = old.blocks ∧
            (if old.others.contains node then old else { old with others := old.others ++ [node] }).apparent = old.apparent := by
          split <;> exact ⟨rfl, rfl, rfl⟩
        generalize (if old.others.contains node then old else { old with others := old.others ++ [node] }) = noted at hnoted ⊢
        have hold : ∀ c, sizeAt old.blocks old.apparent c < 2 ^ 63 := fun c => by
          have h1 := size_le_linkedIn hg c
          have h2 := hlimit c
          unfold LinkOwner.size at h1
          omega
        have hnew : ∀ c, sizeAt link.blocks link.apparent c < 2 ^ 63 := fun c => by
          have h1 := hlink c
          unfold ListedLink.size at h1
          omega
        have hchange := get_sizeChange hnew hold
        have hsame : ∀ c, noted.size c = old.size c := fun c => by unfold LinkOwner.size; rw [hnoted.2.1, hnoted.2.2]
        rw [hnoted.2.1, hnoted.2.2, hnoted.1]
        generalize Delta.size (subI64 link.blocks old.blocks) (subI64 link.apparent old.apparent) = change at hchange ⊢
        have hsize : ∀ c, change.get c = link.size c - old.size c := hchange
        split
        · rename_i hz
          have hz := Delta.isZero_iff.1 hz
          have heq : ∀ c, old.size c = link.size c := fun c => by
            have := hsize c
            rw [hz c] at this
            omega
          exact ⟨rfl, rfl, .inr ⟨old, noted, rfl, hn, hnoted.1, fun c => (hsame c).trans (heq c), rfl, rfl, .inl ⟨rfl, heq⟩⟩⟩
        · exact ⟨rfl, rfl, .inr ⟨old, ⟨old.node, link.blocks, link.apparent, noted.others⟩, rfl, hn, rfl, fun _ => rfl, rfl, rfl,
            .inr ⟨change, hsize, rfl⟩⟩⟩

/-- What settling has come to: `size` is what was listed so far. -/
structure Settles (tree : DirTree) (node : Nat) (start : Tally) (size : Component → Int) (s : Settling) : Prop where
  alive : AliveIn tree s.links
  own : ∀ c, (s.direct.get c : Int) = start.get c + s.hereOwned node c
  others : ∀ m, m ≠ node → ∀ c, ownedIn s.links m c = tree.owned m c + writtenTo s.writes m c
  linked : ∀ c, linkedIn s.links c ≤ tree.linked c + size c
  away : ∀ w ∈ s.writes, w.1 ≠ node ∧ (tree.node w.1).alive = true
  /-- Whatever was written down by any time leaves a directory with what it counts. -/
  written : ∀ pre, pre <+: s.writes → ∀ m, m ≠ node → ∀ c,
    0 ≤ tree.owned m c + writtenTo pre m c ∧ tree.owned m c + writtenTo pre m c ≤ tree.linked c + size c

theorem writtenTo_append (writes writes' : List (Nat × Delta)) (m : Nat) (c : Component) :
    writtenTo (writes ++ writes') m c = writtenTo writes m c + writtenTo writes' m c := by
  unfold writtenTo
  rw [List.map_append, List.sum_append]

theorem hereOwned_put {s s' : Settling} {node : Nat} {inode : Inode} {owner : LinkOwner} (hc : s.here.contains inode = false)
    (hhere : s'.here = s.here ++ [inode]) (hlinks : s'.links = s.links.put inode owner) (c : Component) :
    s'.hereOwned node c = s.hereOwned node c + if owner.node = node then owner.size c else 0 := by
  have hnew : s'.here.contains inode = true := by rw [hhere]; simp
  have hold : ∀ k, k ≠ inode → s'.here.contains k = s.here.contains k := fun k hk => by
    rw [hhere, List.contains_eq_mem, List.contains_eq_mem]
    simp [hk]
  unfold Settling.hereOwned
  rw [hlinks, Table.total_put_of_zero (f := fun k o => if o.node = node then (if s.here.contains k then o.size c else 0) else 0)
    (fun o _ => ?_) (fun k o hk => ?_), hnew, if_pos rfl]
  · rw [hc, if_neg Bool.false_ne_true]
    exact ite_self 0
  · rw [hold k hk]

/-- One more listed file settled. -/
theorem Settles.settle {tree : DirTree} {node : Nat} {start : Tally} {size : Component → Int} {s : Settling}
    (h : Settles tree node start size s) (hn : (tree.node node).alive = true) (link : ListedLink)
    (hlimit : ∀ c, tree.linked c + size c + link.size c < 2 ^ 63)
    (hroom : ∀ c, start.get c + tree.linked c + size c + link.size c < 2 ^ 64) (hsize : ∀ c, 0 ≤ size c) :
    Settles tree node start (fun c => size c + link.size c) (s.settle tree node link) := by
  have hpos : ∀ c, 0 ≤ link.size c := fun c => Int.natCast_nonneg _
  have hlinked := fun c => DirTree.linked_nonneg tree c
  have hlower : ∀ pre m c, m ≠ node → 0 ≤ tree.owned m c + writtenTo pre m c ∧
      tree.owned m c + writtenTo pre m c ≤ tree.linked c + size c →
      0 ≤ tree.owned m c + writtenTo pre m c ∧ tree.owned m c + writtenTo pre m c ≤ tree.linked c + (size c + link.size c) :=
    fun pre m c _ h' => ⟨h'.1, by have := hpos c; omega⟩
  have hlink : ∀ c, link.size c < 2 ^ 63 := fun c => by
    have := hlimit c; have := hlinked c; have := hsize c
    omega
  have hall : ∀ c, linkedIn s.links c < 2 ^ 63 := fun c => by
    have := hlimit c; have := h.linked c; have := hpos c
    omega
  rcases settle_cases h.alive link hlink hall with he | ⟨hc, hhere, hcase⟩
  · rw [he]
    refine ⟨h.alive, h.own, h.others, fun c => ?_, h.away, fun pre hp m hm c => hlower pre m c hm (h.written pre hp m hm c)⟩
    have := h.linked c; have := hpos c
    omega
  have halive := aliveIn_settle hn s link h.alive
  generalize s.settle tree node link = s' at hhere hcase halive ⊢
  rcases hcase with ⟨owner, hnode, hsz, hprev, hlinks, hdirect, hwrites⟩ |
      ⟨old, owner, hget, hne, hnode, hsz, hlinks, hdirect, hwrites⟩
  · -- counted here: no other directory's files change, since its last owner was here or is dead
    have hput := @hereOwned_put _ _ node _ _ hc hhere hlinks
    refine ⟨halive, fun c => ?_, fun m hm c => ?_, fun c => ?_, by rw [hwrites]; exact h.away, fun pre hp m hm c => ?_⟩
    · have h1 := h.own c; have h2 := s.hereOwned_le node c; have h3 := h.linked c; have h4 := hroom c
      have h5 : (link.size c : Int) = (sizeAt link.blocks link.apparent c : Int) := rfl
      rw [hput c, if_pos hnode, hsz c, hdirect]
      have := @Tally.get_addSize s.direct link.blocks link.apparent c (by omega)
      omega
    · have h1 := ownedIn_put s.links link.inode owner m c
      have h2 : (s.links.get link.inode).elim 0 (fun o => if o.node = m then o.size c else 0) = 0 := by
        cases hg : s.links.get link.inode with
        | none => rfl
        | some old => exact if_neg fun he => hm (he.symm.trans (hprev old hg))
      rw [h2, if_neg fun he => hm (he.symm.trans hnode)] at h1
      rw [hlinks, hwrites, ← h.others m hm c]
      omega
    · have h1 := linkedIn_put s.links link.inode owner c
      have h2 : 0 ≤ (s.links.get link.inode).elim 0 (fun o => o.size c) := by
        cases s.links.get link.inode with
        | none => exact le_rfl
        | some old => exact old.size_nonneg c
      have h3 := h.linked c
      rw [hsz c] at h1
      rw [hlinks]
      omega
    · rw [hwrites] at hp
      exact hlower pre m c hm (h.written pre hp m hm c)
  · -- counted elsewhere: the change of its size is written down for the directory that counts it
    have hput := @hereOwned_put _ _ node _ _ hc hhere hlinks
    have hothers : ∀ m, m ≠ node → ∀ c, ownedIn s'.links m c = tree.owned m c + writtenTo s'.writes m c := by
      intro m hm c
      have h1 := ownedIn_put s.links link.inode owner m c
      have h2 := h.others m hm c
      rw [hget, Option.elim_some, hnode, hsz c] at h1
      rw [hlinks]
      rcases hwrites with ⟨hw, heq⟩ | ⟨change, hchange, hw⟩
      · rw [heq c] at h1
        rw [hw]
        omega
      · rw [hw, writtenTo_append]
        have h3 : writtenTo [(old.node, change)] m c = if old.node = m then link.size c - old.size c else 0 := by
          unfold writtenTo
          rw [List.map_cons, List.map_nil, List.sum_cons, List.sum_nil, add_zero, hchange c]
        rw [h3]
        split at h1 <;> rename_i hm' <;> simp only [hm', if_true, if_false] at h1 ⊢ <;> omega
    have hall' : ∀ c, linkedIn s'.links c ≤ tree.linked c + (size c + link.size c) := by
      intro c
      have h1 := linkedIn_put s.links link.inode owner c
      have h2 := h.linked c
      have h3 := old.size_nonneg c
      rw [hget, Option.elim_some, hsz c] at h1
      rw [hlinks]
      omega
    have haway : ∀ w ∈ s'.writes, w.1 ≠ node ∧ (tree.node w.1).alive = true := by
      intro w hw'
      rcases hwrites with ⟨hw, -⟩ | ⟨change, -, hw⟩ <;> rw [hw] at hw'
      · exact h.away w hw'
      · rcases List.mem_append.1 hw' with hw' | hw'
        · exact h.away w hw'
        · rw [List.mem_singleton.1 hw']
          exact ⟨hne, h.alive link.inode old hget⟩
    refine ⟨halive, fun c => ?_, hothers, hall', haway, fun pre hp m hm c => ?_⟩
    · rw [hput c, if_neg fun he => hne (hnode.symm.trans he), hdirect, add_zero]
      exact h.own c
    · rcases hwrites with ⟨hw, -⟩ | ⟨change, -, hw⟩
      · rw [hw] at hp
        exact hlower pre m c hm (h.written pre hp m hm c)
      · rw [hw, List.prefix_concat_iff] at hp
        rcases hp with rfl | hp
        · rw [← hw, ← hothers m hm c]
          exact ⟨ownedIn_nonneg _ _ _, (ownedIn_le_linkedIn _ _ _).trans (hall' c)⟩
        · exact hlower pre m c hm (h.written pre hp m hm c)

theorem listedSize_cons (link : ListedLink) (listed : List ListedLink) (c : Component) :
    listedSize (link :: listed) c = link.size c + listedSize listed c := rfl

theorem settles_listed {tree : DirTree} {node : Nat} {start : Tally} (hn : (tree.node node).alive = true) :
    ∀ (listed : List ListedLink) (size : Component → Int) (s : Settling), Settles tree node start size s → (∀ c, 0 ≤ size c) →
      (∀ c, tree.linked c + size c + listedSize listed c < 2 ^ 63) →
      (∀ c, start.get c + tree.linked c + size c + listedSize listed c < 2 ^ 64) →
      Settles tree node start (fun c => size c + listedSize listed c) (listed.foldl (Settling.settle tree node) s)
  | [], size, s, h, _, _, _ => by
    simp only [listedSize, List.map_nil, List.sum_nil, add_zero]
    exact h
  | link :: listed, size, s, h, hsize, hlimit, hroom => by
    have hrest := fun c => listedSize_nonneg listed c
    have hpos : ∀ c, 0 ≤ link.size c := fun c => Int.natCast_nonneg _
    simp only [listedSize_cons] at hlimit hroom
    have hone := h.settle hn link (fun c => by have := hlimit c; have := hrest c; omega)
      (fun c => by have := hroom c; have := hrest c; omega) hsize
    have hlast := settles_listed hn listed _ _ hone (fun c => add_nonneg (hsize c) (hpos c))
      (fun c => by have := hlimit c; omega) fun c => by have := hroom c; omega
    have heq : (fun c => size c + listedSize (link :: listed) c) = fun c => size c + link.size c + listedSize listed c := by
      funext c
      rw [listedSize_cons, add_assoc]
    rw [heq]
    exact hlast

/-- All listed files settled. -/
theorem settles_settleListed {tree : DirTree} {node : Nat} (hn : (tree.node node).alive = true) (ho : tree.OwnersAlive)
    (listed : List ListedLink) (direct : Tally) (hlimit : ∀ c, tree.linked c + listedSize listed c < 2 ^ 63)
    (hroom : ∀ c, direct.get c + tree.linked c + listedSize listed c < 2 ^ 64) :
    Settles tree node direct (listedSize listed) (settleListed tree node listed direct) := by
  have hstart : Settles tree node direct (fun _ => 0) { links := tree.links, direct := direct } := by
    refine ⟨ho, fun c => ?_, fun m _ c => (add_zero _).symm, fun c => (add_zero _).ge, fun w hw => absurd hw List.not_mem_nil,
      fun pre hp m _ c => ?_⟩
    · have : Settling.hereOwned { links := tree.links, direct := direct } node c = 0 :=
        Table.total_zero fun _ _ _ => ite_self 0
      rw [this, add_zero]
    · obtain rfl : pre = [] := List.prefix_nil.1 hp
      have h0 : writtenTo [] m c = 0 := rfl
      rw [h0, add_zero, add_zero]
      exact ⟨DirTree.owned_nonneg _ _ _, DirTree.owned_le_linked _ _ _⟩
  have h := settles_listed hn listed (fun _ => 0) _ hstart (fun _ => le_rfl) (fun c => by simpa using hlimit c)
    fun c => by simpa using hroom c
  simp only [zero_add] at h
  exact h

/-! ## What is kept and what is handed on -/

section Kept

variable {s : Settling} {node : Nat}

/-- Other directories keep their files; the directory read keeps those it lists. -/
theorem ownedIn_kept (s : Settling) (node m : Nat) (c : Component) :
    ownedIn (s.kept node) m c = if m = node then s.hereOwned node c else ownedIn s.links m c := by
  unfold ownedIn Settling.kept Settling.hereOwned
  rw [Table.total_retain]
  split
  · rename_i he
    refine Table.total_congr fun inode owner _ => ?_
    cases hc : s.here.contains inode with
    | true => simp [he]
    | false =>
      by_cases ho : owner.node = node
      · simp [ho]
      · simp [ho, he]
  · rename_i hne
    refine Table.total_congr fun inode owner _ => ?_
    cases hc : s.here.contains inode with
    | true => simp
    | false =>
      by_cases ho : owner.node = node
      · simp [ho, Ne.symm hne]
      · simp only [Bool.false_eq_true, if_false, ho, Option.elim_some]
        rfl

theorem sum_filter_map {α : Type*} (p : α → Bool) (f : α → Int) : ∀ l : List α,
    ((l.filter p).map f).sum = (l.map fun x => if p x then f x else 0).sum
  | [] => rfl
  | x :: l => by
    rw [List.filter_cons, List.map_cons, List.sum_cons, ← sum_filter_map p f l]
    cases p x with
    | true => rfl
    | false => exact (zero_add _).symm

/-- What is not kept is handed on. -/
theorem linkedIn_kept (s : Settling) (node : Nat) (c : Component) :
    handedSize (s.handed node) c + linkedIn (s.kept node) c = linkedIn s.links c := by
  have hhanded : handedSize (s.handed node) c =
      s.links.total fun inode o => if decide (o.node = node) && !s.here.contains inode then o.size c else 0 :=
    sum_filter_map _ _ _
  unfold linkedIn Settling.kept
  rw [hhanded, Table.total_retain, ← Table.total_add]
  refine Table.total_congr fun inode owner _ => ?_
  cases hc : s.here.contains inode with
  | true => simp
  | false =>
    by_cases ho : owner.node = node
    · simp [ho]
    · simp only [ho, decide_false, Bool.false_and, Bool.false_eq_true, if_false, Option.elim_some, zero_add]
      rfl

end Kept

/-! ## A walked subdirectory -/

/-- Directories whose figures are below the limit, each counting the files it owns. -/
def Solvent (t : DirTree) : Prop := ∀ i < t.nodes.length, ∀ c, 0 ≤ t.rest i c ∧ (t.node i).direct.get c < 2 ^ 62

theorem get_negated {blocks apparent : Nat} (h : ∀ c, sizeAt blocks apparent c < 2 ^ 63) (c : Component) :
    (Delta.size (wrapI64 (-asI64 blocks)) (wrapI64 (-asI64 apparent))).get c = -(sizeAt blocks apparent c : Int) := by
  have hone : ∀ x : Nat, x < 2 ^ 63 → wrapI64 (-asI64 x) = -(x : Int) := fun x hx => by
    rw [asI64_eq hx, wrapI64_eq (by omega) (by omega)]
  cases c with
  | blocks => exact (get_size_blocks _ _).trans (hone blocks (h .blocks))
  | apparent => exact (get_size_apparent _ _).trans (hone apparent (h .apparent))
  | files | dirs | symlinks => rfl

/-- A solvent directory counts at least each file it owns. -/
theorem Solvent.size_le {sub : DirTree} (hs : Solvent sub) {e : Inode × LinkOwner} (hget : sub.links.get e.1 = some e.2)
    (hlt : e.2.node < sub.nodes.length) (c : Component) : e.2.size c ≤ (sub.node e.2.node).direct.get c := by
  have h1 := size_le_ownedIn hget c
  have h2 := (hs e.2.node hlt c).1
  have h3 := sub.direct_eq e.2.node c
  have h4 : ownedIn sub.links e.2.node c = sub.owned e.2.node c := rfl
  omega

/-- A link untaken takes its size out of its directory. -/
theorem rest_untake {sub : DirTree} (hs : Solvent sub) {e : Inode × LinkOwner} (hget : sub.links.get e.1 = some e.2)
    (hlt : e.2.node < sub.nodes.length) (i : Nat) (c : Component) :
    (untake sub e).rest i c = sub.rest i c ∧ ((untake sub e).node i).direct.get c ≤ (sub.node i).direct.get c := by
  have hsize := hs.size_le hget hlt
  have hsmall : ∀ c, sizeAt e.2.blocks e.2.apparent c < 2 ^ 63 := fun c => by
    have h1 := hsize c
    have h2 := (hs e.2.node hlt c).2
    unfold LinkOwner.size at h1
    omega
  have hdelta := get_negated hsmall
  have howned : (untake sub e).owned i c + (if e.2.node = i then e.2.size c else 0) = sub.owned i c := by
    have := Table.total_del sub.links e.1 fun _ (o : LinkOwner) => if o.node = i then o.size c else 0
    rw [hget, Option.elim_some] at this
    show (untake sub e).links.total _ + _ = _
    rw [links_untake]
    exact this
  unfold DirTree.rest
  have hdirect : ((untake sub e).node i).direct = if i = e.2.node ∧ e.2.node < sub.nodes.length then
      (sub.node i).direct.apply (Delta.size (wrapI64 (-asI64 e.2.blocks)) (wrapI64 (-asI64 e.2.apparent)))
      else (sub.node i).direct := DirTree.direct_grow { sub with links := sub.links.del e.1 } e.2.node _ i
  generalize Delta.size (wrapI64 (-asI64 e.2.blocks)) (wrapI64 (-asI64 e.2.apparent)) = d at hdelta hdirect
  by_cases hi : i = e.2.node
  · subst hi
    rw [if_pos ⟨rfl, hlt⟩] at hdirect
    rw [if_pos rfl] at howned
    have h1 := hsize c
    have h2 := (hs _ hlt c).2
    have h3 := hdelta c
    have h4 : (sizeAt e.2.blocks e.2.apparent c : Int) = e.2.size c := rfl
    have h5 := e.2.size_nonneg c
    have h6 := Tally.get_apply_eq (t := (sub.node e.2.node).direct) (d := d) (c := c) (by omega) (by omega)
    rw [hdirect]
    omega
  · rw [if_neg fun h => hi h.1] at hdirect
    rw [if_neg (Ne.symm hi)] at howned
    rw [hdirect]
    omega

theorem rest_untakes : ∀ (taken : List (Inode × LinkOwner)) (sub : DirTree), Solvent sub → (taken.map Prod.fst).Nodup →
    (∀ e ∈ taken, sub.links.get e.1 = some e.2) → (∀ e ∈ taken, e.2.node < sub.nodes.length) → ∀ i c,
      (taken.foldl untake sub).rest i c = sub.rest i c ∧
        ((taken.foldl untake sub).node i).direct.get c ≤ (sub.node i).direct.get c
  | [], _, _, _, _, _, _, _ => ⟨rfl, le_rfl⟩
  | e :: taken, sub, hs, hn, hget, hlt, i, c => by
    rw [List.map_cons, List.nodup_cons] at hn
    have hone := rest_untake hs (hget e (List.mem_cons_self ..)) (hlt e (List.mem_cons_self ..))
    have hlen := (sameShape_untake sub e).length
    have hrest := rest_untakes taken (untake sub e) (fun j hj d => ?_) hn.2 (fun x hx => ?_)
      (fun x hx => (hlt x (List.mem_cons_of_mem _ hx)).trans_eq hlen.symm) i c
    · rw [List.foldl_cons]
      exact ⟨hrest.1.trans (hone i c).1, hrest.2.trans (hone i c).2⟩
    · rw [hlen] at hj
      have h1 := hs j hj d
      have h2 := hone j d
      exact ⟨h2.1.symm ▸ h1.1, h2.2.trans_lt h1.2⟩
    · rw [links_untake, Table.get_del, if_neg, hget x (List.mem_cons_of_mem _ hx)]
      exact fun he => hn.1 (he ▸ List.mem_map_of_mem hx)

/-- Every walk's figures are below the limit. -/
def Answers.SmallWalks (answers : Answers) : Prop :=
  ∀ target tree, answers.walk target = some tree → ∀ i < tree.nodes.length, ∀ c, (tree.node i).direct.get c < 2 ^ 62

/-- The directories of a walk within the limits are solvent. -/
theorem solvent_renameRoot {found : DirTree} (hfresh : Fresh found)
    (hsmall : ∀ i < found.nodes.length, ∀ c, (found.node i).direct.get c < 2 ^ 62) (name : Bytes) : Solvent (found.renameRoot name) := by
  intro i hi c
  rw [show (found.renameRoot name).nodes.length = found.nodes.length from DirTree.length_modifyNode _ _ _] at hi
  have hdirect : ((found.renameRoot name).node i).direct = (found.node i).direct := by rw [found.node_renameRoot]
  refine ⟨?_, by rw [hdirect]; exact hsmall i hi c⟩
  have hcov := hfresh.covered i hi c ((hsmall i hi c).trans (by decide))
  have hnn : 0 ≤ found.overChildren i fun n => n.own c := DirTree.overChildren_nonneg fun n => n.own_nonneg c
  show 0 ≤ (((found.renameRoot name).node i).direct.get c : Int) - found.owned i c
  rw [hdirect]
  unfold DirTree.rest at hcov
  omega

/-- A subdirectory walked within the limits comes without what the tree counts already, and is solvent. -/
theorem solvent_walkNew {target : Target} {answers : Answers} {tree sub : DirTree} {parent : Nat} {name : Bytes}
    {shared : List (Inode × List Nat)} (hw : answers.FreshWalks) (hs : answers.SmallWalks)
    (h : walkNew target answers tree parent name = some (sub, shared)) : Solvent sub := by
  obtain ⟨found, hf, rfl, -⟩ := walkNew_eq_some h
  have hfresh := hw _ _ hf
  have hlen : (found.renameRoot name).nodes.length = found.nodes.length := DirTree.length_modifyNode _ _ _
  have hfound : Solvent (found.renameRoot name) := solvent_renameRoot hfresh (hs _ _ hf) name
  have hsub : (takenLinks tree (found.renameRoot name)).Sublist found.links.entries := List.filter_sublist ..
  have hget : ∀ e ∈ takenLinks tree (found.renameRoot name), found.links.get e.1 = some e.2 := fun e he =>
    Table.get_eq_some.2 (hsub.subset he)
  have hrest := rest_untakes (takenLinks tree (found.renameRoot name)) _ hfound
    (found.links.nodup.sublist (hsub.map _)) hget fun e he => (hfresh.owners _ _ (hget e he)).trans_eq hlen.symm
  intro i hi c
  rw [(sameShape_untakes _ _).length] at hi
  have h1 := hfound i hi c
  have h2 := hrest i c
  exact ⟨h2.1.symm ▸ h1.1, h2.2.trans_lt h1.2⟩

/-! ## The merge -/

/-- What the directories numbered below `bound` count of a table's files. -/
def ownedBelow (links : Table Inode LinkOwner) (bound : Nat) (c : Component) : Int :=
  links.total fun _ owner => if owner.node < bound then owner.size c else 0

/-- A sum over links that reads owners and sizes only. -/
def IgnoresOthers (f : LinkOwner → Int) : Prop := ∀ (owner : LinkOwner) (others : List Nat), f { owner with others := others } = f owner

theorem total_shareLinks {f : LinkOwner → Int} (hf : IgnoresOthers f) (start : Nat) : ∀ (shared : List (Inode × List Nat)) (t : DirTree),
    (shared.foldl (shareLink start) t).links.total (fun _ => f) = t.links.total fun _ => f
  | [], _ => rfl
  | e :: shared, t => by
    rw [List.foldl_cons, total_shareLinks hf start shared]
    unfold shareLink
    split
    · rename_i owner hget
      have hput := Table.total_put t.links e.1 { owner with others := owner.others ++ e.2.map (· + start) } fun _ => f
      rw [hget, Option.elim_some, hf owner (owner.others ++ e.2.map (· + start))] at hput
      exact add_right_cancel hput
    · rfl

theorem ignoresOthers_owned (m : Nat) (c : Component) : IgnoresOthers fun owner => if owner.node = m then owner.size c else 0 :=
  fun _ _ => rfl

theorem ignoresOthers_below (bound : Nat) (c : Component) : IgnoresOthers fun owner => if owner.node < bound then owner.size c else 0 :=
  fun _ _ => rfl

/-- Directories numbered from `bound` on came with the merge, and are below none of the old children. -/
structure Newcomers (node bound : Nat) (children : List Nat) (m : Merge) : Prop where
  left : ∀ child ∈ children, child < bound
  length : bound ≤ m.st.tree.nodes.length
  new : ∀ i, bound ≤ i → i < m.st.tree.nodes.length → (m.st.tree.node i).alive = true ∧
    ∀ p, m.st.tree.parentOf i = some p → bound ≤ p ∨ p = node

/-- What every step of the merge leaves of the accounts of the tree `t₀` it began with: a directory
that stays keeps its own; one that is new is solvent; and no more is handed on than `all` less what
still counts in an old directory. -/
structure Accounts (node : Nat) (t₀ : DirTree) (all : Component → Int) (children : List Nat) (m : Merge) : Prop extends
    Newcomers node t₀.nodes.length children m where
  owners : m.st.tree.OwnersAlive
  alive : ∀ i < t₀.nodes.length, (m.st.tree.node i).alive = true → (t₀.node i).alive = true
  parent : ∀ i < t₀.nodes.length, m.st.tree.parentOf i = t₀.parentOf i
  direct : ∀ i < t₀.nodes.length, (m.st.tree.node i).direct = (t₀.node i).direct
  owned : ∀ i < t₀.nodes.length, (m.st.tree.node i).alive = true → ∀ c, m.st.tree.owned i c = t₀.owned i c
  solvent : ∀ i, t₀.nodes.length ≤ i → i < m.st.tree.nodes.length → ∀ c, 0 ≤ m.st.tree.rest i c ∧ (m.st.tree.node i).direct.get c < 2 ^ 62
  handed : ∀ c, handedSize m.handed c + ownedBelow m.st.tree.links t₀.nodes.length c ≤ all c

section Steps

variable {target : Target} {answers : Answers} {node bound : Nat} {all subdirs subdirs' : List Subdir} {children children' : List Nat}
  {m m' : Merge} {t₀ : DirTree} {most : Component → Int}

/-- Above a new directory are new directories, and what is above the one read. -/
theorem Newcomers.above (h : Newcomers node bound children m) (hd : Down m.st.tree.parentOf) {a i : Nat}
    (ha : Above m.st.tree.parentOf a i) (hi : bound ≤ i) (hl : i < m.st.tree.nodes.length) :
    bound ≤ a ∨ Above m.st.tree.parentOf a node := by
  induction ha with
  | refl => exact .inl hi
  | @step i p hp hap ih =>
    have hlt := hd i p hp
    rcases (h.new i hi hl).2 p hp with hp' | rfl
    · exact ih hp' (by omega)
    · exact .inr hap

/-- Nothing new is below an old child. -/
theorem Newcomers.not_below {child : Nat} (h : Newcomers node bound (child :: children) m)
    (hm : Merging node all (child :: children) subdirs m) {i : Nat} (hi : bound ≤ i) (hl : i < m.st.tree.nodes.length) :
    ¬Above m.st.tree.parentOf child i := by
  obtain ⟨-, hp, -, -⟩ := hm.child
  have hchild := h.left child (List.mem_cons_self ..)
  intro hab
  rcases h.above hm.shape.down hab hi hl with hge | hab
  · omega
  · have h1 := hab.le hm.shape.down
    have h2 := hm.shape.down child node hp
    omega

theorem Newcomers.same (h : Newcomers node bound children m) (hs : SameShape m.st.tree m'.st.tree) (hc : ∀ c ∈ children', c ∈ children) :
    Newcomers node bound children' m' := by
  refine ⟨fun c hc' => h.left c (hc c hc'), h.length.trans_eq hs.length.symm, fun i hi hl => ?_⟩
  rw [hs.length] at hl
  obtain ⟨h1, h2⟩ := h.new i hi hl
  exact ⟨by rw [hs.alive]; exact h1, by rw [hs.parentOf]; exact h2⟩

theorem Newcomers.drop {child : Nat} (h : Newcomers node bound (child :: children) m)
    (hm : Merging node all (child :: children) subdirs m) : Newcomers node bound children (m.drop child) := by
  obtain ⟨ha, hp, -, -⟩ := hm.child
  have hlen : (m.drop child).st.tree.nodes.length = m.st.tree.nodes.length := DirTree.length_detach _ _
  refine ⟨fun c hc => h.left c (List.mem_cons_of_mem _ hc), h.length.trans_eq hlen.symm, fun i hi hl => ?_⟩
  rw [hlen] at hl
  obtain ⟨h1, h2⟩ := h.new i hi hl
  refine ⟨(hm.shape.alive_detach ha hp i).2 ⟨h1, h.not_below hm hi hl⟩, fun p hpar => h2 p ?_⟩
  rw [← hm.shape.parentOf_detach ha hp]
  exact hpar

theorem Newcomers.add (hw : answers.FreshWalks) {subdir : Subdir} (hm : Merging node all children (subdir :: subdirs) m)
    (hfresh : ∀ c ∈ (m.st.tree.node node).children, (m.st.tree.node c).name ≠ subdir.name)
    (h : Newcomers node bound children m) : Newcomers node bound children (m.add target answers node subdir) := by
  rcases add_cases target answers node m subdir with he | ⟨sub, shared, hsub, -, -, he | ⟨t, rfl, he⟩⟩
  · rw [he]
    exact h
  · have hseal := DirTree.sameShape_modifyNode m.st.tree node (f := fun n => { n with isSealed := true }) fun _ => rfl
    rw [← he] at hseal
    exact h.same hseal fun c hc => hc
  · have hwk := walkNew_walked hw hsub
    rw [← hwk.root] at hfresh
    have g := hm.shape.graft_spec hm.alive hwk.shape.pos hfresh
    have hnode : ∀ i, (m.add target answers node subdir).st.tree.node i = (m.st.tree.graft node sub).1.node i := fun i => by
      rw [he]
      unfold DirTree.node
      rw [nodes_shareLinks]
    have hlen : (m.add target answers node subdir).st.tree.nodes.length = m.st.tree.nodes.length + sub.nodes.length := by
      rw [he, nodes_shareLinks, g.length]
    have hgrown := h.length
    refine ⟨h.left, by omega, fun i hi hl => ?_⟩
    simp only [DirTree.parentOf, hnode]
    rw [hlen] at hl
    rcases Nat.lt_or_ge i m.st.tree.nodes.length with hil | hil
    · obtain ⟨h1, h2⟩ := h.new i hi hil
      exact ⟨(g.alive_old hil).trans h1, fun p hp => h2 p ((g.parent_old hil).symm.trans hp)⟩
    · obtain ⟨k, rfl⟩ := Nat.exists_eq_add_of_le hil
      have hk : k < sub.nodes.length := by omega
      refine ⟨(g.alive_new hk).trans (hwk.alive k hk), fun p hp => ?_⟩
      rcases (g.parent_new_iff hwk.shape hk p).1 hp with ⟨-, rfl⟩ | ⟨q, -, rfl⟩
      · exact .inr rfl
      · exact .inl (by omega)

/-- What is new stays. -/
theorem newcomers_step (hw : answers.FreshWalks) (hm : Merging node all children subdirs m)
    (hstep : MergeStep target answers node all children subdirs m children' subdirs' m')
    (h : Newcomers node bound children m) : Newcomers node bound children' m' := by
  cases hstep with
  | keep hname hsame => exact h.same (sameShape_keep _ _ _) fun c hc => List.mem_cons_of_mem _ hc
  | drop hgone => exact h.drop hm
  | add hfresh => exact h.add hw hm hfresh

/-- At the start nothing is new. -/
theorem newcomers_start {st : TreeState} (listing : Listing) (h : Shape st.tree) (ha : (st.tree.node node).alive = true) :
    Newcomers node st.tree.nodes.length (st.tree.node node).children (startMerge st node listing) :=
  ⟨fun child hc => DirTree.lt_of_alive (h.child node ha child hc).1, le_rfl, fun _ hi hl => absurd hl (Nat.not_lt.2 hi)⟩

/-- Figures and links that stay put. -/
theorem Accounts.same (h : Accounts node t₀ most children m) {st : TreeState} (hs : SameLinks m.st.tree st.tree)
    (hd : ∀ i, (st.tree.node i).direct = (m.st.tree.node i).direct) (hc : ∀ c ∈ children', c ∈ children)
    (hm : m'.st = st) (hh : m'.handed = m.handed) : Accounts node t₀ most children' m' := by
  subst hm
  have howned : ∀ i c, m'.st.tree.owned i c = m.st.tree.owned i c := fun i c => DirTree.owned_congr hs.links i c
  refine ⟨h.toNewcomers.same hs.shape hc, hs.ownersAlive h.owners, fun i hi ha => h.alive i hi (by rwa [hs.shape.alive] at ha),
    fun i hi => (congrFun hs.shape.parentOf i).trans (h.parent i hi), fun i hi => (hd i).trans (h.direct i hi), fun i hi ha c => ?_,
    fun i hi hl c => ?_, fun c => ?_⟩
  · rw [hs.shape.alive] at ha
    exact (howned i c).trans (h.owned i hi ha c)
  · rw [hs.shape.length] at hl
    unfold DirTree.rest
    rw [hd, howned]
    exact h.solvent i hi hl c
  · rw [hh, hs.links]
    exact h.handed c

theorem Accounts.keep {child : Nat} {subdir : Subdir} (h : Accounts node t₀ most (child :: children) m) :
    Accounts node t₀ most children (m.keep child subdir) := by
  refine h.same (sameLinks_keep m child subdir) (fun i => ?_) (fun c hc => List.mem_cons_of_mem _ hc) rfl rfl
  show ((m.st.tree.modifyNode child _).node i).direct = _
  rw [DirTree.node_modifyNode]
  split <;> rfl

theorem handedSize_append (links links' : List (Inode × LinkOwner)) (c : Component) :
    handedSize (links ++ links') c = handedSize links c + handedSize links' c := by
  unfold handedSize
  rw [List.map_append, List.sum_append]

theorem sum_filterMap_map {α β : Type*} (f : α → Option β) (g : β → Int) : ∀ l : List α,
    ((l.filterMap f).map g).sum = (l.map fun x => (f x).elim 0 g).sum
  | [] => rfl
  | x :: l => by
    rw [List.filterMap_cons, List.map_cons, List.sum_cons, ← sum_filterMap_map f g l]
    cases f x with
    | none => exact (zero_add _).symm
    | some y => rfl

theorem Accounts.drop {child : Nat} (h : Accounts node t₀ most (child :: children) m)
    (hm : Merging node all (child :: children) subdirs m) : Accounts node t₀ most children (m.drop child) := by
  obtain ⟨ha, hp, -, -⟩ := hm.child
  have halive := hm.shape.alive_detach ha hp
  have hlen : (m.drop child).st.tree.nodes.length = m.st.tree.nodes.length := DirTree.length_detach _ _
  have hnew := h.toNewcomers.drop hm
  refine ⟨hnew, DirTree.OwnersAlive.detach hp, fun i hi hai => h.alive i hi ((halive i).1 hai).1,
    fun i hi => (congrFun (hm.shape.parentOf_detach ha hp) i).trans (h.parent i hi), fun i hi => ?_,
    fun i hi hai c => ?_, fun i hi hl c => ?_, fun c => ?_⟩
  · rw [tree_drop, DirTree.direct_detach hm.shape ha hp]
    exact h.direct i hi
  · rw [tree_drop] at hai ⊢
    rw [DirTree.owned_detach hp hai]
    exact h.owned i hi ((halive i).1 hai).1 c
  · have hai := (hnew.new i hi hl).1
    rw [tree_drop] at hai ⊢
    rw [DirTree.rest_detach hm.shape ha hp hai, DirTree.direct_detach hm.shape ha hp]
    exact h.solvent i hi (hl.trans_eq hlen) c
  · have hhanded : (m.drop child).handed = m.handed ++ (m.st.tree.detach child).2 := rfl
    have hsum : handedSize (m.st.tree.detach child).2 c = m.st.tree.links.total fun _ owner =>
        if ((m.st.tree.detach child).1.node owner.node).alive then 0 else owner.size c := by
      unfold handedSize
      rw [DirTree.handed_detach hp, sum_filterMap_map]
      unfold Table.total
      refine congrArg List.sum (List.map_congr_left fun e _ => ?_)
      dsimp only
      split <;> rfl
    have hbelow : ownedBelow (m.st.tree.detach child).1.links t₀.nodes.length c = m.st.tree.links.total fun _ owner =>
        if ((m.st.tree.detach child).1.node owner.node).alive then (if owner.node < t₀.nodes.length then owner.size c else 0) else 0 := by
      unfold ownedBelow
      rw [DirTree.links_detach hp, Table.total_retain]
      refine Table.total_congr fun _ owner _ => ?_
      split <;> rfl
    have hboth : handedSize (m.st.tree.detach child).2 c + ownedBelow (m.st.tree.detach child).1.links t₀.nodes.length c =
        ownedBelow m.st.tree.links t₀.nodes.length c := by
      rw [hsum, hbelow, ← Table.total_add]
      refine Table.total_congr fun inode owner hget => ?_
      cases hd : ((m.st.tree.detach child).1.node owner.node).alive with
      | true => simp
      | false =>
        -- a dead owner is an old directory
        have hlt : owner.node < t₀.nodes.length := by
          by_contra hge
          have hao := (hnew.new owner.node (Nat.le_of_not_lt hge) ((DirTree.lt_of_alive (h.owners inode owner hget)).trans_eq hlen.symm)).1
          cases hd.symm.trans hao
        simp [hlt]
    rw [hhanded, handedSize_append, tree_drop]
    have := h.handed c
    omega

theorem Accounts.add (hw : answers.FreshWalks) (hs : answers.SmallWalks) {subdir : Subdir}
    (hm : Merging node all children (subdir :: subdirs) m)
    (hfresh : ∀ c ∈ (m.st.tree.node node).children, (m.st.tree.node c).name ≠ subdir.name)
    (h : Accounts node t₀ most children m) : Accounts node t₀ most children (m.add target answers node subdir) := by
  have hnew : Newcomers node _ children (m.add target answers node subdir) := h.toNewcomers.add hw hm hfresh
  rcases add_cases target answers node m subdir with he | ⟨sub, shared, hsub, -, hh, he | ⟨t, rfl, he⟩⟩
  · rw [he]
    exact h
  · have hseal := SameLinks.modifyNode m.st.tree node (f := fun n => { n with isSealed := true }) fun _ => rfl
    rw [← he] at hseal
    refine h.same hseal (fun i => ?_) (fun c hc => hc) rfl hh
    rw [he, DirTree.node_modifyNode]
    split <;> rfl
  · have hwk := walkNew_walked hw hsub
    have hsolvent := solvent_walkNew hw hs hsub
    rw [← hwk.root] at hfresh
    have g := hm.shape.graft_spec hm.alive hwk.shape.pos hfresh
    have hapart : DirTree.Apart m.st.tree sub := by
      refine ⟨fun inode owner hget => ?_, fun inode owner hget => DirTree.lt_of_alive (h.owners inode owner hget), hwk.owners⟩
      cases hmain : m.st.tree.links.get inode with
      | none => rfl
      | some owner' =>
        have halive := h.owners inode owner' hmain
        have hnot := hwk.apart inode owner hget
        unfold TreeState.ownerAlive at hnot
        rw [hmain] at hnot
        rw [show (m.st.tree.node owner'.node).alive = false from hnot] at halive
        cases halive
    -- noting holders changes neither nodes nor sums
    have hnode : ∀ i, (m.add target answers node subdir).st.tree.node i = (m.st.tree.graft node sub).1.node i := fun i => by
      rw [he]
      unfold DirTree.node
      rw [nodes_shareLinks]
    have hlen : (m.add target answers node subdir).st.tree.nodes.length = m.st.tree.nodes.length + sub.nodes.length := by
      rw [he, nodes_shareLinks, g.length]
    have howned : ∀ i c, (m.add target answers node subdir).st.tree.owned i c = (m.st.tree.graft node sub).1.owned i c := fun i c => by
      rw [he]
      exact total_shareLinks (ignoresOthers_owned i c) _ shared _
    have hgrown := h.length
    refine ⟨hnew, ownersAlive_step hw hm (.add (by rw [← hwk.root]; exact hfresh)) h.owners, fun i hi hai => ?_,
      fun i hi => ?_, fun i hi => ?_, fun i hi hai c => ?_, fun i hi hl c => ?_, fun c => ?_⟩
    · rw [hnode, g.alive_old (by omega)] at hai
      exact h.alive i hi hai
    · unfold DirTree.parentOf
      rw [hnode, g.parent_old (by omega)]
      exact h.parent i hi
    · rw [hnode, g.old_eq (by omega)]
      exact h.direct i hi
    · rw [hnode, g.alive_old (by omega)] at hai
      rw [howned, DirTree.owned_graft_old hapart (by omega)]
      exact h.owned i hi hai c
    · unfold DirTree.rest
      simp only [hnode, howned]
      rw [hlen] at hl
      rcases Nat.lt_or_ge i m.st.tree.nodes.length with hil | hil
      · rw [g.old_eq hil, DirTree.owned_graft_old hapart hil]
        exact h.solvent i hi hil c
      · obtain ⟨k, rfl⟩ := Nat.exists_eq_add_of_le hil
        have hk : k < sub.nodes.length := by omega
        rw [g.new k hk, DirTree.owned_graft_new hapart]
        exact hsolvent k hk c
    · have hbelow : ownedBelow (m.add target answers node subdir).st.tree.links t₀.nodes.length c =
          ownedBelow m.st.tree.links t₀.nodes.length c := by
        rw [he]
        refine (total_shareLinks (ignoresOthers_below _ c) _ shared _).trans ?_
        rw [DirTree.total_graft hapart fun _ owner => if owner.node < t₀.nodes.length then owner.size c else 0]
        refine (congrArg (_ + ·) (Table.total_zero fun inode owner _ => if_neg ?_)).trans (add_zero _)
        show ¬owner.node + m.st.tree.nodes.length < t₀.nodes.length
        omega
      rw [hh, hbelow]
      exact h.handed c

/-- What every step of the merge does to the accounts. -/
theorem accounts_step (hw : answers.FreshWalks) (hs : answers.SmallWalks) (hm : Merging node all children subdirs m)
    (hstep : MergeStep target answers node all children subdirs m children' subdirs' m')
    (h : Accounts node t₀ most children m) : Accounts node t₀ most children' m' := by
  cases hstep with
  | keep hname hsame => exact h.keep
  | drop hgone => exact h.drop hm
  | add hfresh => exact h.add hw hs hm hfresh

end Steps

end StorageHarvester
