/-
What `settle_links` (`src/live.rs`) is for, whatever the table and whatever is listed. Every file listed
counts once, in an alive directory or the one read, with the sizes it is first listed with; a change of
size goes to the directory that counts the file; what is not listed any more is handed on. What the
directory counts is added up to the limit of a `u64`, and a difference is taken modulo that of an `i64`.
-/
import StorageHarvester.Lib.Records
import StorageHarvester.Live.Accounts

namespace StorageHarvester

open Records (firsts)

/-! ## What is wanted -/

/-- The change of a file's size from what is on record to what is listed, as two `i64`. -/
def changeOf (owner : LinkOwner) (link : ListedLink) : Delta :=
  .size (wrapI64 ((link.blocks : Int) - owner.blocks)) (wrapI64 ((link.apparent : Int) - owner.apparent))

/-- The size change a listed file comes to, where `owner` has it: it counts in another directory, that is
alive, with another size. -/
def writeOf (tree : DirTree) (node : Nat) (link : ListedLink) (owner : LinkOwner) : Option (Nat × Delta) :=
  if owner.node ≠ node ∧ (tree.node owner.node).alive ∧ ¬(owner.blocks = link.blocks ∧ owner.apparent = link.apparent) then
    some (owner.node, changeOf owner link)
  else none

/-- Settling `listed` in `node` has come to `out`. -/
structure LinksSettled (tree : DirTree) (node : Nat) (listed : List ListedLink) (direct : Tally) (out : SettledLinks) : Prop where
  /-- A listed file has an owner that is alive or the directory read, and the sizes it is listed with first. Another owner has
  the directory among the file's other holders. -/
  counted : ∀ link ∈ listed, ∃ first owner, listed.find? (fun other => other.inode = link.inode) = some first ∧
    out.links.get link.inode = some owner ∧ (owner.node = node ∨ (tree.node owner.node).alive = true) ∧
    owner.blocks = first.blocks ∧ owner.apparent = first.apparent ∧ (owner.node ≠ node → node ∈ owner.others)
  /-- An alive owner stays. -/
  stays : ∀ link ∈ listed, ∀ owner, tree.links.get link.inode = some owner → (tree.node owner.node).alive = true →
    ∃ owner', out.links.get link.inode = some owner' ∧ owner'.node = owner.node
  /-- There is one size change for each file that counts in another alive directory with another size. -/
  writes : out.writes = (firsts ListedLink.inode listed).filterMap fun link =>
    (tree.links.get link.inode).bind (writeOf tree node link)
  /-- A change is the difference of the sizes, as long as both are below `2 ^ 63`. -/
  change : ∀ link ∈ listed, ∀ owner, tree.links.get link.inode = some owner → ∀ c, owner.size c < 2 ^ 63 → link.size c < 2 ^ 63 →
    (changeOf owner link).get c = link.size c - owner.size c
  /-- The directory is held for nothing it does not list. -/
  dropped : ∀ inode, (∀ link ∈ listed, link.inode ≠ inode) → ∀ owner, out.links.get inode = some owner → node ∉ owner.others
  /-- Nothing else changes about a file it does not list and does not own. -/
  others : ∀ inode, (∀ link ∈ listed, link.inode ≠ inode) → ∀ owner, tree.links.get inode = some owner → owner.node ≠ node →
    out.links.get inode = some { owner with others := owner.others.filter (· ≠ node) }
  /-- What the directory owned and does not list is handed on, once, and not on record any more. -/
  handed : ∀ inode owner, (inode, owner) ∈ out.handed ↔
    tree.links.get inode = some owner ∧ owner.node = node ∧ ∀ link ∈ listed, link.inode ≠ inode
  once : (out.handed.map Prod.fst).Nodup
  gone : ∀ e ∈ out.handed, out.links.get e.1 = none
  /-- The directory's own figures grow by the files it owns, each once. -/
  direct : ∀ c, (out.direct.get c : Int) = min (direct.get c + ownedIn out.links node c) u64Max
  here : ∀ inode, inode ∈ out.here ↔ ∃ link ∈ listed, link.inode = inode
  adopted : ∀ inode, inode ∈ out.adopted ↔ (∃ link ∈ listed, link.inode = inode) ∧ tree.links.get inode = none

/-! ## Listed files -/

/-- Who counts a listed file, where `owner` did. -/
def settledOwner (tree : DirTree) (node : Nat) (link : ListedLink) : Option LinkOwner → LinkOwner
  | none => { node := node, blocks := link.blocks, apparent := link.apparent, others := [] }
  | some owner =>
    if owner.node = node then { owner with blocks := link.blocks, apparent := link.apparent }
    else if (tree.node owner.node).alive then
      { node := owner.node, blocks := link.blocks, apparent := link.apparent,
        others := if owner.others.contains node then owner.others else owner.others ++ [node] }
    else
      { node := node, blocks := link.blocks, apparent := link.apparent,
        others := owner.others.filter fun other => other ≠ node && (tree.node other).alive }

section Owner

variable {tree : DirTree} {node : Nat} {link : ListedLink}

theorem settledOwner_sizes (owner : Option LinkOwner) :
    (settledOwner tree node link owner).blocks = link.blocks ∧ (settledOwner tree node link owner).apparent = link.apparent := by
  cases owner with
  | none => exact ⟨rfl, rfl⟩
  | some owner =>
    unfold settledOwner
    dsimp only
    split
    · exact ⟨rfl, rfl⟩
    · split <;> exact ⟨rfl, rfl⟩

theorem settledOwner_alive (owner : Option LinkOwner) :
    (settledOwner tree node link owner).node = node ∨ (tree.node (settledOwner tree node link owner).node).alive = true := by
  cases owner with
  | none => exact .inl rfl
  | some owner =>
    unfold settledOwner
    dsimp only
    split
    · rename_i hn
      exact .inl hn
    · split
      · rename_i ha
        exact .inr ha
      · exact .inl rfl

theorem settledOwner_holds {owner : Option LinkOwner} (h : (settledOwner tree node link owner).node ≠ node) :
    node ∈ (settledOwner tree node link owner).others := by
  cases owner with
  | none => exact absurd rfl h
  | some owner =>
    unfold settledOwner at h ⊢
    dsimp only at h ⊢
    split at h
    · rename_i hn
      exact absurd hn h
    · rename_i hn
      rw [if_neg hn]
      split at h
      · rename_i ha
        rw [if_pos ha]
        split
        · rename_i hheld
          exact List.contains_iff_mem.1 hheld
        · exact List.mem_append_right _ (List.mem_singleton_self _)
      · exact absurd rfl h

theorem settledOwner_stays {owner : LinkOwner} (h : (tree.node owner.node).alive = true) :
    (settledOwner tree node link (some owner)).node = owner.node := by
  unfold settledOwner
  dsimp only
  rw [if_pos h]
  split <;> rfl

end Owner

/-! ## One listed file -/

theorem subI64_eq_wrap (new old : Nat) : subI64 new old = wrapI64 ((new : Int) - old) := by
  unfold subI64 asI64 wrapI64
  rw [Int.bmod_sub_bmod, Int.sub_bmod_bmod]

/-- Two sizes of 64 bits differ when their difference does not wrap to zero. -/
theorem wrapI64_sub_eq_zero {new old : Nat} (hn : new ≤ u64Max) (ho : old ≤ u64Max) :
    wrapI64 ((new : Int) - old) = 0 ↔ old = new := by
  have hbmod := Int.bmod_def ((new : Int) - old) (2 ^ 64)
  unfold wrapI64
  unfold u64Max at hn ho
  rw [hbmod]
  constructor
  · intro h
    split at h <;> omega
  · rintro rfl
    simp

theorem isZero_changeOf {owner : LinkOwner} {link : ListedLink} (ho : owner.blocks ≤ u64Max ∧ owner.apparent ≤ u64Max)
    (hl : link.blocks ≤ u64Max ∧ link.apparent ≤ u64Max) :
    (changeOf owner link).isZero = true ↔ owner.blocks = link.blocks ∧ owner.apparent = link.apparent := by
  rw [Delta.isZero_iff, ← wrapI64_sub_eq_zero hl.1 ho.1, ← wrapI64_sub_eq_zero hl.2 ho.2]
  constructor
  · intro h
    exact ⟨h .blocks, h .apparent⟩
  · rintro ⟨hb, ha⟩ c
    cases c with
    | blocks => exact hb
    | apparent => exact ha
    | files | dirs | symlinks => rfl

/-- What settling makes of a file not seen before. -/
theorem settle_unseen {tree : DirTree} {node : Nat} {s : Settling} {link : ListedLink} (hc : s.here.contains link.inode = false)
    (hl : link.blocks ≤ u64Max ∧ link.apparent ≤ u64Max)
    (ho : ∀ owner, s.links.get link.inode = some owner → owner.blocks ≤ u64Max ∧ owner.apparent ≤ u64Max) :
    s.settle tree node link =
      { links := s.links.put link.inode (settledOwner tree node link (s.links.get link.inode))
        direct := if (settledOwner tree node link (s.links.get link.inode)).node = node then s.direct.addSize link.blocks link.apparent
          else s.direct
        writes := s.writes ++ ((s.links.get link.inode).bind (writeOf tree node link)).toList
        here := s.here ++ [link.inode]
        adopted := if (s.links.get link.inode).isNone then s.adopted ++ [link.inode] else s.adopted } := by
  unfold Settling.settle
  rw [if_neg (by rw [hc]; exact Bool.false_ne_true)]
  dsimp only
  cases hg : s.links.get link.inode with
  | none => simp [settledOwner]
  | some owner =>
    dsimp only
    by_cases hn : owner.node = node
    · simp [settledOwner, writeOf, hn]
    · by_cases ha : (tree.node owner.node).alive = true
      · have hzero := isZero_changeOf (ho owner hg) hl
        have hchange : Delta.size (subI64 link.blocks owner.blocks) (subI64 link.apparent owner.apparent) = changeOf owner link := by
          unfold changeOf
          rw [subI64_eq_wrap, subI64_eq_wrap]
        have heq : (if owner.others.contains node then owner else { owner with others := owner.others ++ [node] }) =
            ⟨owner.node, owner.blocks, owner.apparent, if owner.others.contains node then owner.others else owner.others ++ [node]⟩ := by
          split <;> rfl
        have hsettled : settledOwner tree node link (some owner) = ⟨owner.node, link.blocks, link.apparent,
            if owner.others.contains node then owner.others else owner.others ++ [node]⟩ := by
          unfold settledOwner
          dsimp only
          rw [if_neg hn, if_pos ha]
        rw [heq, hsettled]
        dsimp only
        rw [hchange, if_neg hn, if_pos ha, if_neg hn]
        by_cases hsame : owner.blocks = link.blocks ∧ owner.apparent = link.apparent
        · rw [if_pos (hzero.2 hsame)]
          simp [writeOf, hsame, hn]
        · rw [if_neg (fun h => hsame (hzero.1 h))]
          simp [writeOf, hn, ha, hsame]
      · simp [settledOwner, writeOf, hn, ha]

/-! ## All listed files -/

/-- Settling has come so far with what is listed. -/
structure SettledSo (tree : DirTree) (node : Nat) (start : Tally) (listed : List ListedLink) (s : Settling) : Prop where
  here : s.here = (firsts ListedLink.inode listed).map ListedLink.inode
  get : ∀ inode, s.links.get inode = (listed.find? fun link => link.inode = inode).elim (tree.links.get inode)
    fun link => some (settledOwner tree node link (tree.links.get inode))
  writes : s.writes = (firsts ListedLink.inode listed).filterMap fun link =>
    (tree.links.get link.inode).bind (writeOf tree node link)
  adopted : s.adopted = ((firsts ListedLink.inode listed).filter fun link => (tree.links.get link.inode).isNone).map ListedLink.inode
  direct : ∀ c, (s.direct.get c : Int) = min (start.get c + s.hereOwned node c) u64Max

section Settled

variable {tree : DirTree} {node : Nat} {start : Tally} {listed : List ListedLink} {s : Settling}

theorem SettledSo.contains (h : SettledSo tree node start listed s) (inode : Inode) :
    s.here.contains inode = true ↔ ∃ link ∈ listed, link.inode = inode := by
  rw [List.contains_iff_mem, h.here]
  constructor
  · intro hm
    obtain ⟨link, hlink, he⟩ := List.mem_map.1 hm
    exact ⟨link, Records.mem_of_firsts hlink, he⟩
  · rintro ⟨link, hlink, rfl⟩
    obtain ⟨first, hfirst, he⟩ : ∃ first ∈ Records.firsts ListedLink.inode listed, first.inode = link.inode :=
      Records.exists_firsts hlink
    exact List.mem_map.2 ⟨first, hfirst, he⟩

theorem SettledSo.unlisted (h : SettledSo tree node start listed s) {inode : Inode} (hno : ∀ link ∈ listed, link.inode ≠ inode) :
    s.here.contains inode = false ∧ s.links.get inode = tree.links.get inode := by
  constructor
  · rw [Bool.eq_false_iff]
    intro hc
    obtain ⟨link, hlink, he⟩ := (h.contains inode).1 hc
    exact hno link hlink he
  · rw [h.get, List.find?_eq_none.2 fun link hlink => by simpa using hno link hlink]
    rfl

theorem settledSo_start (hd : ∀ c, start.get c ≤ u64Max) : SettledSo tree node start [] { links := tree.links, direct := start } := by
  refine ⟨rfl, fun _ => rfl, rfl, rfl, fun c => ?_⟩
  have hnone : Settling.hereOwned { links := tree.links, direct := start } node c = 0 := Table.total_zero fun _ _ _ => ite_self 0
  have := hd c
  rw [hnone]
  show (start.get c : Int) = _
  omega

theorem Tally.get_addSize_min {t : Tally} {c : Component} (h : t.get c ≤ u64Max) (blocks apparent : Nat) :
    (t.addSize blocks apparent).get c = min (t.get c + sizeAt blocks apparent c) u64Max := by
  cases c <;> simp only [get, addSize, saturatingAdd, sizeAt] at h ⊢ <;> omega

/-- One more listed file: it was listed before, or it comes on top. -/
theorem SettledSo.concat (h : SettledSo tree node start listed s) {link : ListedLink}
    (hl : link.blocks ≤ u64Max ∧ link.apparent ≤ u64Max)
    (ht : ∀ inode owner, tree.links.get inode = some owner → owner.blocks ≤ u64Max ∧ owner.apparent ≤ u64Max) :
    SettledSo tree node start (listed ++ [link]) (s.settle tree node link) := by
  have hfirsts : Records.firsts ListedLink.inode (listed ++ [link]) =
      if (Records.firsts ListedLink.inode listed).any (fun first => first.inode = link.inode) then
        Records.firsts ListedLink.inode listed
      else Records.firsts ListedLink.inode listed ++ [link] :=
    Records.firsts_concat listed link
  have hany : (firsts ListedLink.inode listed).any (fun first => first.inode = link.inode) = s.here.contains link.inode := by
    rw [h.here, List.contains_eq_any_beq, List.any_map]
    refine congrArg (List.any _) (funext fun first => ?_)
    rw [Bool.eq_iff_iff, decide_eq_true_iff, Function.comp_apply, beq_iff_eq, eq_comm]
  rw [hany] at hfirsts
  cases hc : s.here.contains link.inode with
  | true =>
    -- the file has been settled
    obtain ⟨old, hold, he⟩ := (h.contains link.inode).1 hc
    have hsame : s.settle tree node link = s := by
      unfold Settling.settle
      rw [if_pos hc]
    rw [hc, if_pos rfl] at hfirsts
    rw [hsame]
    refine ⟨by rw [hfirsts]; exact h.here, fun inode => ?_, by rw [hfirsts]; exact h.writes, by rw [hfirsts]; exact h.adopted, h.direct⟩
    rw [h.get, List.find?_append]
    cases hf : listed.find? fun other => other.inode = inode with
    | some first => rfl
    | none =>
      have hne : ¬link.inode = inode := fun h' => by
        have := List.find?_eq_none.1 hf old hold
        rw [he, h'] at this
        simp at this
      simp [hne]
  | false =>
    have hno : ∀ other ∈ listed, other.inode ≠ link.inode := fun other hother he => by
      rw [(h.contains link.inode).2 ⟨other, hother, he⟩] at hc
      cases hc
    have hold := (h.unlisted hno).2
    rw [hc, if_neg Bool.false_ne_true] at hfirsts
    have hsettle := @settle_unseen tree node s link hc hl fun owner ho => ht link.inode owner (hold ▸ ho)
    rw [hold] at hsettle
    refine ⟨?_, fun inode => ?_, ?_, ?_, fun c => ?_⟩
    · rw [hsettle, hfirsts, List.map_append, ← h.here]
      rfl
    · rw [hsettle]
      show (s.links.put _ _).get inode = _
      rw [Table.get_put, List.find?_append]
      by_cases hi : inode = link.inode
      · rw [if_pos hi, hi, List.find?_eq_none.2 fun other hother => by simpa using hno other hother]
        simp
      · have hne : ¬link.inode = inode := fun h' => hi h'.symm
        rw [if_neg hi, h.get]
        cases listed.find? fun other => other.inode = inode with
        | some first => rfl
        | none => simp [hne]
    · rw [hsettle, hfirsts, List.filterMap_append, ← h.writes]
      cases hg : (tree.links.get link.inode).bind (writeOf tree node link) <;> simp [hg]
    · rw [hsettle, hfirsts, List.filter_append, List.map_append, ← h.adopted]
      cases hg : tree.links.get link.inode <;> simp [hg]
    · have hput := @hereOwned_put s (s.settle tree node link) node link.inode (settledOwner tree node link (tree.links.get link.inode)) hc
        (by rw [hsettle]) (by rw [hsettle]) c
      have hsize : (settledOwner tree node link (tree.links.get link.inode)).size c = sizeAt link.blocks link.apparent c := by
        unfold LinkOwner.size
        rw [(settledOwner_sizes _).1, (settledOwner_sizes _).2]
      have hbefore := h.direct c
      rw [hput, hsize, hsettle]
      dsimp only
      split
      · rename_i hn
        have hmax : s.direct.get c ≤ u64Max := by omega
        rw [Tally.get_addSize_min hmax]
        omega
      · rw [add_zero]
        exact hbefore

theorem settledSo_all (hd : ∀ c, start.get c ≤ u64Max)
    (ht : ∀ inode owner, tree.links.get inode = some owner → owner.blocks ≤ u64Max ∧ owner.apparent ≤ u64Max) :
    ∀ listed : List ListedLink, (∀ link ∈ listed, link.blocks ≤ u64Max ∧ link.apparent ≤ u64Max) →
      SettledSo tree node start listed (settleListed tree node listed start) := by
  intro listed
  induction listed using List.reverseRecOn with
  | nil => exact fun _ => settledSo_start hd
  | append_singleton listed link ih =>
    intro hl
    unfold settleListed
    rw [List.foldl_append]
    exact (ih fun other ho => hl other (List.mem_append_left _ ho)).concat (hl link (List.mem_append_right _ (List.mem_singleton_self _))) ht

/-! ## The table left -/

theorem get_kept_eq (s : Settling) (node : Nat) (inode : Inode) : (s.kept node).get inode = (s.links.get inode).bind fun owner =>
    if s.here.contains inode then some owner
    else if owner.node = node then none
    else some { owner with others := owner.others.filter (· ≠ node) } := Table.get_retain _ _ _

theorem mem_handed {inode : Inode} {owner : LinkOwner} :
    (inode, owner) ∈ s.handed node ↔ s.links.get inode = some owner ∧ owner.node = node ∧ s.here.contains inode = false := by
  unfold Settling.handed
  rw [List.mem_filter, Table.get_eq_some]
  simp

theorem get_changeOf {owner : LinkOwner} {link : ListedLink} {c : Component} (ho : owner.size c < 2 ^ 63) (hl : link.size c < 2 ^ 63) :
    (changeOf owner link).get c = link.size c - owner.size c := by
  unfold LinkOwner.size at ho ⊢
  unfold ListedLink.size at hl ⊢
  cases c with
  | blocks | apparent =>
    show wrapI64 _ = _
    simp only [sizeAt] at ho hl ⊢
    exact wrapI64_eq (by omega) (by omega)
  | files | dirs | symlinks => rfl

end Settled

/-- `settle_links` does what it is for, whatever the table and whatever is listed, with sizes that are
`u64`. -/
theorem settleLinks_settles {tree : DirTree} {listed : List ListedLink} {direct : Tally} (node : Nat)
    (hd : ∀ c, direct.get c ≤ u64Max) (hl : ∀ link ∈ listed, link.blocks ≤ u64Max ∧ link.apparent ≤ u64Max)
    (ht : ∀ inode owner, tree.links.get inode = some owner → owner.blocks ≤ u64Max ∧ owner.apparent ≤ u64Max) :
    LinksSettled tree node listed direct (settleLinks tree node listed direct) := by
  have h : SettledSo tree node direct listed (settleListed tree node listed direct) := settledSo_all hd ht listed hl
  -- of several names of one file the first listed decides, the others only meet it
  have hlisted : ∀ link ∈ listed, ∃ first, listed.find? (fun other => other.inode = link.inode) = some first ∧
      (settleLinks tree node listed direct).links.get link.inode = some (settledOwner tree node first (tree.links.get link.inode)) := by
    intro link hlink
    obtain ⟨first, hfirst, he⟩ : ∃ first ∈ Records.firsts ListedLink.inode listed, first.inode = link.inode :=
      Records.exists_firsts hlink
    have hfind := Records.mem_firsts.1 hfirst
    have hseen := (h.contains link.inode).2 ⟨link, hlink, rfl⟩
    rw [he] at hfind
    refine ⟨first, hfind, ?_⟩
    unfold settleLinks
    rw [get_kept_eq, h.get, hfind, Option.elim_some, Option.bind_some, if_pos hseen]
  -- a file that is not listed is no longer counted here, and no longer linked here
  have hunlisted : ∀ inode, (∀ link ∈ listed, link.inode ≠ inode) → (settleLinks tree node listed direct).links.get inode =
      (tree.links.get inode).bind fun owner =>
        if owner.node = node then none else some { owner with others := owner.others.filter (· ≠ node) } := by
    intro inode hno
    obtain ⟨hc, hget⟩ := h.unlisted hno
    unfold settleLinks
    rw [get_kept_eq, hget, hc]
    rfl
  constructor
  case counted =>
    intro link hlink
    obtain ⟨first, hfind, hget⟩ := hlisted link hlink
    exact ⟨first, _, hfind, hget, settledOwner_alive _, (settledOwner_sizes _).1, (settledOwner_sizes _).2, settledOwner_holds⟩
  case stays =>
    intro link hlink owner ho ha
    obtain ⟨first, -, hget⟩ := hlisted link hlink
    rw [ho] at hget
    exact ⟨_, hget, settledOwner_stays ha⟩
  case writes => exact h.writes
  case change => exact fun link _ owner _ c ho hlink => get_changeOf ho hlink
  case dropped =>
    intro inode hno owner ho
    rw [hunlisted inode hno, Option.bind_eq_some_iff] at ho
    obtain ⟨old, -, ho⟩ := ho
    split at ho
    · cases ho
    · cases ho
      simp
  case others =>
    intro inode hno owner ho hne
    rw [hunlisted inode hno, ho, Option.bind_some, if_neg hne]
  case handed =>
    intro inode owner
    have hmem := @mem_handed node (settleListed tree node listed direct) inode owner
    constructor
    · intro hh
      obtain ⟨hget, hn, hc⟩ := hmem.1 hh
      have hno : ∀ link ∈ listed, link.inode ≠ inode := fun link hlink he => by
        rw [(h.contains inode).2 ⟨link, hlink, he⟩] at hc
        cases hc
      exact ⟨(h.unlisted hno).2 ▸ hget, hn, hno⟩
    · rintro ⟨hget, hn, hno⟩
      exact hmem.2 ⟨(h.unlisted hno).2.trans hget, hn, (h.unlisted hno).1⟩
  case once => exact (settleListed tree node listed direct).links.nodup.sublist (List.Sublist.map _ List.filter_sublist)
  case gone =>
    rintro ⟨inode, owner⟩ hh
    obtain ⟨hget, hn, hc⟩ := mem_handed.1 hh
    unfold settleLinks
    rw [get_kept_eq, hget, hc, Option.bind_some, if_neg Bool.false_ne_true, if_pos hn]
  case direct =>
    intro c
    have hown := ownedIn_kept (settleListed tree node listed direct) node node c
    rw [if_pos rfl] at hown
    rw [show (settleLinks tree node listed direct).links = (settleListed tree node listed direct).kept node from rfl, hown]
    exact h.direct c
  case here => exact fun inode => List.contains_iff_mem.symm.trans (h.contains inode)
  case adopted =>
    intro inode
    rw [show (settleLinks tree node listed direct).adopted = (settleListed tree node listed direct).adopted from rfl, h.adopted,
      List.mem_map]
    constructor
    · rintro ⟨link, hlink, rfl⟩
      obtain ⟨hlink, hnone⟩ := List.mem_filter.1 hlink
      exact ⟨⟨link, Records.mem_of_firsts hlink, rfl⟩, Option.isNone_iff_eq_none.1 hnone⟩
    · rintro ⟨⟨link, hlink, rfl⟩, hnone⟩
      obtain ⟨first, hfirst, he⟩ : ∃ first ∈ Records.firsts ListedLink.inode listed, first.inode = link.inode :=
      Records.exists_firsts hlink
      exact ⟨first, List.mem_filter.2 ⟨hfirst, by rw [he, hnone]; rfl⟩, he⟩

/-- Files that count in the root, in a directory below it and in one that is gone. -/
def linkedTree : DirTree :=
  { DirTree.sample.modifyNode 2 fun n => { n with alive := false } with
    links := .ofList [((1, 10), ⟨0, 8, 8, [1]⟩), ((1, 11), ⟨1, 16, 16, []⟩), ((1, 12), ⟨2, 24, 24, [0, 1]⟩), ((1, 13), ⟨0, 32, 32, []⟩)] }

/-- The root lists one of its own twice, one that counts below it and has grown, one of the dead directory's and one
that nobody knows; another of its own is gone. -/
def linkedListing : List ListedLink := [⟨(1, 10), 8, 8⟩, ⟨(1, 10), 9, 9⟩, ⟨(1, 11), 20, 16⟩, ⟨(1, 12), 24, 24⟩, ⟨(1, 14), 40, 40⟩]

theorem settleLinks_linkedTree : LinksSettled linkedTree 0 linkedListing {} (settleLinks linkedTree 0 linkedListing {}) ∧
    (settleLinks linkedTree 0 linkedListing {}).direct = { blocks := 72, apparent := 72 } ∧
    (settleLinks linkedTree 0 linkedListing {}).writes = [(1, { blocks := 4 })] ∧
    (settleLinks linkedTree 0 linkedListing {}).handed = [((1, 13), ⟨0, 32, 32, []⟩)] := by
  refine ⟨settleLinks_settles 0 (fun c => ?_) (by decide) fun inode owner h => ?_, by decide, by decide, by decide⟩
  · cases c <;> decide
  · have hall : ∀ e ∈ linkedTree.links.entries, e.2.blocks ≤ u64Max ∧ e.2.apparent ≤ u64Max := by decide
    exact hall (inode, owner) (Table.get_eq_some.1 h)

/-- What does not fit a `u64` is not added, and what does not fit an `i64` is another difference. -/
theorem settleLinks_limits :
    ¬((settleLinks DirTree.sample 0 [⟨(1, 10), 1, 0⟩] { blocks := u64Max }).direct.get .blocks : Int) =
      u64Max + ownedIn (settleLinks DirTree.sample 0 [⟨(1, 10), 1, 0⟩] { blocks := u64Max }).links 0 .blocks ∧
    (settleLinks linkedTree 0 [⟨(1, 11), 2 ^ 63 + 16, 16⟩] {}).writes = [(1, { blocks := -2 ^ 63 })] := by
  constructor
  · decide
  · decide

end StorageHarvester
