/-
Where an event's path lands (`src/synotify.rs`): through the mount it was reached by to the file system,
and from there to the targets that hold it, split on whole components throughout. Without a known
namespace every namespace is asked, which fails when the first process's is known but was not read.
-/
import StorageHarvester.Lib.Table
import StorageHarvester.Lib.UnixPath

namespace StorageHarvester.Synotify

/-! ## Paths below paths -/

/-- `strip_suffix(b"/")`, or the path itself. -/
def trimSlash (path : Bytes) : Bytes := if path.getLast? = some slash then path.dropLast else path

/-- `path` below `base`, from the slash that follows it, if `base` is a whole-component prefix of it. -/
def below (path base : Bytes) : Option Bytes :=
  match stripPrefix path (trimSlash base) with
  | some rest => if rest = [] ∨ rest.head? = some slash then some rest else none
  | none => none

/-- Components, each after a slash. -/
def slashed (parts : List Bytes) : Bytes := parts.flatMap fun part => slash :: part

theorem splitSlash_slashed : ∀ (parts : List Bytes), (∀ part ∈ parts, slash ∉ part) → ∀ path : Bytes,
    splitSlash (path ++ slashed parts) = splitSlash path ++ parts
  | [], _, path => by rw [slashed, List.flatMap_nil, List.append_nil, List.append_nil]
  | part :: parts, h, path => by
    have ih := splitSlash_slashed parts (fun p hp => h p (List.mem_cons_of_mem _ hp)) part
    rw [slashed, List.flatMap_cons, List.cons_append, splitSlash_append]
    rw [slashed] at ih
    rw [ih, splitSlash_of_notMem (h part (List.mem_cons_self ..)), List.singleton_append]

theorem notMem_of_mem_splitSlash : ∀ {path part : Bytes}, part ∈ splitSlash path → slash ∉ part
  | [], part, h => by
    rw [List.mem_singleton.1 h]
    exact List.not_mem_nil
  | b :: path, part, h => by
    rw [splitSlash] at h
    by_cases hb : b = slash
    · rw [if_pos hb] at h
      rcases List.mem_cons.1 h with rfl | h
      · exact List.not_mem_nil
      · exact notMem_of_mem_splitSlash h
    · rw [if_neg hb] at h
      cases hs : splitSlash path with
      | nil => exact absurd hs (splitSlash_ne_nil path)
      | cons first parts =>
        rw [hs] at h
        have hfirst : slash ∉ first := notMem_of_mem_splitSlash (hs ▸ List.mem_cons_self ..)
        rcases List.mem_cons.1 h with rfl | h
        · exact fun hm => (List.mem_cons.1 hm).elim (fun he => hb he.symm) hfirst
        · exact notMem_of_mem_splitSlash (hs ▸ List.mem_cons_of_mem _ h)

/-- A path is its first component, and the others each after a slash. -/
theorem eq_head_slashed (path : Bytes) : ∃ first parts, splitSlash path = first :: parts ∧ path = first ++ slashed parts := by
  induction path with
  | nil => exact ⟨[], [], rfl, rfl⟩
  | cons b path ih =>
    obtain ⟨first, parts, hs, hp⟩ := ih
    by_cases hb : b = slash
    · refine ⟨[], first :: parts, by rw [splitSlash, if_pos hb, hs], ?_⟩
      rw [hb, slashed, List.flatMap_cons, List.nil_append, List.cons_append]
      exact congrArg (slash :: ·) hp
    · refine ⟨b :: first, parts, ?_, congrArg (b :: ·) hp⟩
      rw [splitSlash, if_neg hb, hs]

theorem splitSlash_inj {a b : Bytes} (h : splitSlash a = splitSlash b) : a = b := by
  obtain ⟨first, parts, hs, ha⟩ := eq_head_slashed a
  obtain ⟨first', parts', hs', hb⟩ := eq_head_slashed b
  rw [hs, hs', List.cons.injEq] at h
  rw [ha, hb, h.1, h.2]

/-- `rest` is what follows the components of `base` in those of `path`. -/
def Follows (path base rest : Bytes) : Prop :=
  ∃ parts, splitSlash path = splitSlash (trimSlash base) ++ parts ∧ rest = slashed parts

theorem below_iff (path base rest : Bytes) : below path base = some rest ↔ Follows path base rest := by
  have hbelow : below path base = some rest ↔ path = trimSlash base ++ rest ∧ (rest = [] ∨ rest.head? = some slash) := by
    unfold below
    cases hs : stripPrefix path (trimSlash base) with
    | none =>
      refine ⟨fun h => (by cases h), fun h => ?_⟩
      rw [stripPrefix_eq_some.2 h.1] at hs
      cases hs
    | some rest' =>
      have hp := stripPrefix_eq_some.1 hs
      dsimp only
      constructor
      · intro h
        split at h
        · rename_i hr
          cases h
          exact ⟨hp, hr⟩
        · cases h
      · rintro ⟨hp', hr⟩
        obtain rfl := List.append_cancel_left (hp.symm.trans hp')
        rw [if_pos hr]
  rw [hbelow]
  constructor
  · rintro ⟨rfl, hr⟩
    obtain ⟨first, parts, hs, hrest⟩ := eq_head_slashed rest
    rcases hr with rfl | hr
    · exact ⟨[], by rw [List.append_nil, List.append_nil], rfl⟩
    · -- the rest starts with a slash, so its first component is empty
      have hfirst : first = [] := by
        have hno : slash ∉ first := notMem_of_mem_splitSlash (hs ▸ List.mem_cons_self ..)
        cases first with
        | nil => rfl
        | cons b first =>
          rw [hrest] at hr
          cases hr
          exact absurd (List.mem_cons_self ..) hno
      subst hfirst
      rw [List.nil_append] at hrest
      have hparts : ∀ part ∈ parts, slash ∉ part := fun part hm => notMem_of_mem_splitSlash (hs ▸ List.mem_cons_of_mem _ hm)
      exact ⟨parts, by rw [hrest, splitSlash_slashed parts hparts], hrest⟩
  · rintro ⟨parts, hs, rfl⟩
    have hparts : ∀ part ∈ parts, slash ∉ part := fun part hm =>
      notMem_of_mem_splitSlash (hs ▸ List.mem_append_right _ hm)
    refine ⟨splitSlash_inj (hs.trans (splitSlash_slashed parts hparts _).symm), ?_⟩
    cases parts with
    | nil => exact .inl rfl
    | cons part parts => exact .inr rfl

/-! ## Mapping a path -/

/-- A mount of a watched file system, as one mount namespace has it. -/
structure NsMount where
  dev : Bytes
  /-- The mounted directory, inside the file system. -/
  root : Bytes
  /-- Where it is mounted, in the namespace. -/
  point : Bytes
  deriving DecidableEq, Repr

/-- A target that changes are mapped into. -/
structure Watched where
  index : Nat
  dev : Bytes
  /-- Its directory inside the file system. -/
  fsPath : Bytes

section MaxByKey

variable {α : Type*} (f : α → Nat)

/-- `Iterator::max_by_key`, which keeps the last of equals. -/
def maxByKey : List α → Option α
  | [] => none
  | a :: l => some (l.foldl (fun best x => if f best ≤ f x then x else best) a)

/-- `m` is greatest in `l`, and the last that is. -/
def LastMax (l : List α) (m : α) : Prop :=
  ∃ before after, l = before ++ m :: after ∧ (∀ x ∈ before, f x ≤ f m) ∧ ∀ x ∈ after, f x < f m

variable {f}

theorem lastMax_foldl : ∀ (l before after : List α) (best : α), (∀ x ∈ before, f x ≤ f best) → (∀ x ∈ after, f x < f best) →
    LastMax f (before ++ best :: after ++ l) (l.foldl (fun best x => if f best ≤ f x then x else best) best)
  | [], before, after, best, hb, ha => ⟨before, after, List.append_nil _, hb, ha⟩
  | x :: l, before, after, best, hb, ha => by
    rw [List.foldl_cons]
    by_cases hx : f best ≤ f x
    · have ih := lastMax_foldl l (before ++ best :: after) [] x (fun y hy => ?_) fun y hy => absurd hy List.not_mem_nil
      · rw [if_pos hx]
        rwa [List.append_assoc, List.singleton_append] at ih
      · rcases List.mem_append.1 hy with hy | hy
        · exact (hb y hy).trans hx
        · rcases List.mem_cons.1 hy with rfl | hy
          · exact hx
          · exact (ha y hy).le.trans hx
    · have ih := lastMax_foldl l before (after ++ [x]) best hb fun y hy => ?_
      · rw [if_neg hx]
        simpa using ih
      · rcases List.mem_append.1 hy with hy | hy
        · exact ha y hy
        · rw [List.mem_singleton.1 hy]
          exact Nat.lt_of_not_le hx

theorem lastMax_maxByKey {l : List α} {m : α} (h : maxByKey f l = some m) : LastMax f l m := by
  cases l with
  | nil => cases h
  | cons a l =>
    cases h
    exact lastMax_foldl l [] [] a (fun x hx => absurd hx List.not_mem_nil) fun x hx => absurd hx List.not_mem_nil

end MaxByKey

/-- The mount a path was reached through, with the path below it. -/
def reachedThrough (mounts : List NsMount) (path : Bytes) : Option (NsMount × Bytes) :=
  maxByKey (fun e => e.1.point.length) (mounts.filterMap fun mount => (below path mount.point).map fun rest => (mount, rest))

/-- Where `path` lands: each target holding it, with the path inside that target. -/
def map (mounts : List NsMount) (targets : List Watched) (path : Bytes) : List (Nat × Bytes) :=
  match reachedThrough mounts path with
  | none => []
  | some (mount, rest) =>
    let insideFs := trimSlash mount.root ++ rest
    targets.zipIdx.filterMap fun (target, slot) =>
      if target.dev = mount.dev then (below insideFs target.fsPath).map fun inside => (slot, inside) else none

def Covers (mount : NsMount) (path : Bytes) : Prop := ∃ rest, Follows path mount.point rest

/-- The mount with the longest point over the path, the last listed among equals. -/
structure Reached (mounts : List NsMount) (path : Bytes) (mount : NsMount) (rest : Bytes) : Prop where
  follows : Follows path mount.point rest
  longest : ∃ before after, mounts = before ++ mount :: after ∧
    (∀ other ∈ before, Covers other path → other.point.length ≤ mount.point.length) ∧
    ∀ other ∈ after, Covers other path → other.point.length < mount.point.length

/-- `root` with `rest` below it is `place` with `inside` below it, component by component. -/
def SamePlace (root rest place inside : Bytes) : Prop :=
  ∃ parts parts' : List Bytes, (∀ part ∈ parts ++ parts', slash ∉ part) ∧ rest = slashed parts ∧ inside = slashed parts' ∧
    splitSlash (trimSlash root) ++ parts = splitSlash (trimSlash place) ++ parts'

/-- A path lands in exactly the targets that hold its place in the file system, each once. -/
structure MapExact (mounts : List NsMount) (targets : List Watched) (path : Bytes) : Prop where
  nowhere : (∀ mount ∈ mounts, ¬Covers mount path) → map mounts targets path = []
  once : ((map mounts targets path).map Prod.fst).Nodup
  lands : (∃ mount ∈ mounts, Covers mount path) → ∃ mount rest, Reached mounts path mount rest ∧
    ∀ slot inside, (slot, inside) ∈ map mounts targets path ↔
      ∃ target, targets[slot]? = some target ∧ target.dev = mount.dev ∧ SamePlace mount.root rest target.fsPath inside

section Map

variable {mounts : List NsMount} {path : Bytes}

theorem covers_iff (mount : NsMount) : Covers mount path ↔ below path mount.point ≠ none := by
  rw [Option.ne_none_iff_exists']
  exact exists_congr fun rest => (below_iff _ _ _).symm

theorem reached_of_reachedThrough {mount : NsMount} {rest : Bytes} (h : reachedThrough mounts path = some (mount, rest)) :
    Reached mounts path mount rest := by
  obtain ⟨before, after, hl, hb, ha⟩ := lastMax_maxByKey h
  obtain ⟨front, back, rfl, hfront, hback⟩ := List.filterMap_eq_append_iff.1 hl
  obtain ⟨skipped, m, back, rfl, hskipped, hm, hafter⟩ := List.filterMap_eq_cons_iff.1 hback
  obtain ⟨rest', hrest, he⟩ := Option.map_eq_some_iff.1 hm
  cases he
  refine ⟨(below_iff _ _ _).1 hrest, front ++ skipped, back, by simp, fun other ho hc => ?_, fun other ho hc => ?_⟩
  · obtain ⟨r, hr⟩ := Option.ne_none_iff_exists'.1 ((covers_iff other).1 hc)
    rcases List.mem_append.1 ho with ho | ho
    · exact hb (other, r) (hfront ▸ List.mem_filterMap.2 ⟨other, ho, by rw [hr]; rfl⟩)
    · have := hskipped other ho
      rw [hr] at this
      cases this
  · obtain ⟨r, hr⟩ := Option.ne_none_iff_exists'.1 ((covers_iff other).1 hc)
    exact ha (other, r) (hafter ▸ List.mem_filterMap.2 ⟨other, ho, by rw [hr]; rfl⟩)

theorem reachedThrough_eq_none : reachedThrough mounts path = none ↔ ∀ mount ∈ mounts, ¬Covers mount path := by
  unfold reachedThrough
  have hnil : ∀ l : List (NsMount × Bytes), maxByKey (fun e => e.1.point.length) l = none ↔ l = [] := fun l => by
    cases l with
    | nil => exact ⟨fun _ => rfl, fun _ => rfl⟩
    | cons a l => exact ⟨fun h => (by cases h), fun h => (by cases h)⟩
  rw [hnil, List.filterMap_eq_nil_iff]
  refine forall₂_congr fun mount _ => ?_
  rw [covers_iff, not_not, Option.map_eq_none_iff]

/-- Where something follows a mount's point, it follows the target's place in the file system just if both
are the same place. -/
theorem below_samePlace {mount : NsMount} {rest : Bytes} (hr : Follows path mount.point rest) (place inside : Bytes) :
    below (trimSlash mount.root ++ rest) place = some inside ↔ SamePlace mount.root rest place inside := by
  obtain ⟨parts, hs, rfl⟩ := hr
  have hparts : ∀ part ∈ parts, slash ∉ part := fun part hm => notMem_of_mem_splitSlash (hs ▸ List.mem_append_right _ hm)
  rw [below_iff]
  constructor
  · rintro ⟨parts', hs', rfl⟩
    have hparts' : ∀ part ∈ parts', slash ∉ part := fun part hm => notMem_of_mem_splitSlash (hs' ▸ List.mem_append_right _ hm)
    refine ⟨parts, parts', fun part hm => (List.mem_append.1 hm).elim (hparts part) (hparts' part), rfl, rfl, ?_⟩
    rw [← hs', splitSlash_slashed parts hparts]
  · rintro ⟨parts₁, parts', hno, hrest, rfl, he⟩
    have hparts₁ : ∀ part ∈ parts₁, slash ∉ part := fun part hm => hno part (List.mem_append_left _ hm)
    exact ⟨parts', by rw [hrest, splitSlash_slashed parts₁ hparts₁, he], rfl⟩

theorem nodup_slots (targets : List Watched) (f : Watched → Option Bytes) (start : Nat) :
    (((targets.zipIdx start).filterMap fun (target, slot) => (f target).map fun inside => (slot, inside)).map Prod.fst).Nodup := by
  have hsub : (((targets.zipIdx start).filterMap fun (target, slot) => (f target).map fun inside => (slot, inside)).map Prod.fst).Sublist
      ((targets.zipIdx start).map Prod.snd) := by
    generalize targets.zipIdx start = l
    induction l with
    | nil => exact .slnil
    | cons e l ih =>
      cases hf : f e.1 with
      | none =>
        rw [List.filterMap_cons_none (by simp [hf])]
        exact ih.cons _
      | some inside =>
        rw [List.filterMap_cons_some (b := (e.2, inside)) (by simp [hf])]
        exact ih.cons_cons _
  refine hsub.nodup ?_
  rw [List.zipIdx_map_snd]
  exact List.nodup_range' ..

theorem map_exact (mounts : List NsMount) (targets : List Watched) (path : Bytes) : MapExact mounts targets path := by
  have hnone : reachedThrough mounts path = none → map mounts targets path = [] := fun h => by
    unfold map
    rw [h]
  have hsome : ∀ mount rest, reachedThrough mounts path = some (mount, rest) → map mounts targets path =
      targets.zipIdx.filterMap fun (target, slot) =>
        (if target.dev = mount.dev then below (trimSlash mount.root ++ rest) target.fsPath else none).map fun inside => (slot, inside) :=
    fun mount rest h => by
      unfold map
      rw [h]
      refine congrArg (fun f => targets.zipIdx.filterMap f) (funext fun ⟨target, slot⟩ => ?_)
      dsimp only
      split <;> rfl
  refine ⟨fun h => hnone (reachedThrough_eq_none.2 h), ?_, fun ⟨mount, hm, hc⟩ => ?_⟩
  · cases h : reachedThrough mounts path with
    | none =>
      rw [hnone h]
      exact List.nodup_nil
    | some e =>
      obtain ⟨mount, rest⟩ := e
      rw [hsome mount rest h]
      exact nodup_slots targets
        (fun target => if target.dev = mount.dev then below (trimSlash mount.root ++ rest) target.fsPath else none) 0
  · cases h : reachedThrough mounts path with
    | none => exact absurd hc (reachedThrough_eq_none.1 h mount hm)
    | some e =>
      obtain ⟨mount, rest⟩ := e
      have hreached := reached_of_reachedThrough h
      refine ⟨mount, rest, hreached, fun slot inside => ?_⟩
      rw [hsome mount rest h, List.mem_filterMap]
      constructor
      · rintro ⟨⟨target, slot'⟩, ht, he⟩
        obtain ⟨inside', hin, he⟩ := Option.map_eq_some_iff.1 he
        cases he
        split at hin
        · rename_i hdev
          exact ⟨target, List.mk_mem_zipIdx_iff_getElem?.1 ht, hdev, (below_samePlace hreached.follows _ _).1 hin⟩
        · cases hin
      · rintro ⟨target, ht, hdev, hplace⟩
        refine ⟨(target, slot), List.mk_mem_zipIdx_iff_getElem?.2 ht, ?_⟩
        dsimp only
        rw [if_pos hdev, (below_samePlace hreached.follows _ _).2 hplace]
        rfl

end Map

/-! ## Namespaces -/

/-- Mount namespaces, by the inode of their file, with their watched mounts. -/
structure Namespaces where
  mounts : Table Nat (List NsMount) := .empty
  /-- Where each process seen at the last look was. -/
  ofPid : Table Nat Nat := .empty
  /-- The namespace of process 1. -/
  host : Option Nat := none

/-- A process as a look finds it: its namespace, and the mounts it lists, where they can be read. -/
structure Process where
  pid : Nat
  ns : Option Nat
  mounts : Option (List NsMount)

namespace Namespaces

/-- Notes a process. Its mounts may be unreadable: another process in the namespace may do. -/
def see (n : Namespaces) (p : Process) : Namespaces :=
  if (n.ofPid.get p.pid).isSome then n
  else match p.ns with
    | none => n
    | some ns =>
      let n := { n with ofPid := n.ofPid.put p.pid ns, host := if p.pid = 1 then some ns else n.host }
      if (n.mounts.get ns).isSome then n
      else match p.mounts with
        | none => n
        | some mounts => { n with mounts := n.mounts.put ns mounts }

/-- Namespaces as looks leave them: quick ones go on from the last, a full one starts anew. -/
inductive Looked : Namespaces → Prop
  | full (processes : List Process) : Looked (processes.foldl see {})
  | quick {n : Namespaces} (h : Looked n) (processes : List Process) : Looked (processes.foldl see n)
  /-- A young namespace is read once more. -/
  | reread {n : Namespaces} (h : Looked n) (ns : Nat) (mounts : List NsMount) : Looked { n with mounts := n.mounts.put ns mounts }
  /-- Processes that are gone are forgotten. -/
  | forget {n : Namespaces} (h : Looked n) (running : Nat → Bool) :
      Looked { n with ofPid := n.ofPid.retain fun pid ns => if running pid then some ns else none }

/-- Keeps an answer not kept yet. -/
def keepNew (all : List (Nat × Bytes)) (found : Nat × Bytes) : List (Nat × Bytes) := if all.contains found then all else all ++ [found]

/-- The namespaces asked when the process's is unknown, the first process's first. -/
def order (n : Namespaces) : List Nat := n.host.toList ++ (n.mounts.entries.map Prod.fst).filter fun ns => some ns ≠ n.host

/-- The answers of one namespace after those of others. It must be known. -/
def ask (n : Namespaces) (targets : List Watched) (path : Bytes) (all : List (Nat × Bytes)) (ns : Nat) : Option (List (Nat × Bytes)) :=
  (n.mounts.get ns).map fun mounts => (map mounts targets path).foldl keepNew all

/-- Every place `path`, changed by a process in namespace `ns`, may land. That namespace decides; when it is
unknown, every namespace is asked. `none` is an index that is missing. -/
def resolve (n : Namespaces) (ns : Option Nat) (targets : List Watched) (path : Bytes) : Option (List (Nat × Bytes)) :=
  match ns.bind n.mounts.get with
  | some mounts => some (map mounts targets path)
  | none => n.order.foldlM (n.ask targets path) []

/-- The namespace of process 1 has been read, where it is known. -/
def HostRead (n : Namespaces) : Prop := ∀ ns, n.host = some ns → n.mounts.get ns ≠ none

/-- A known namespace decides alone, and otherwise each distinct answer of all is given once. -/
structure Resolves (n : Namespaces) (targets : List Watched) (path : Bytes) : Prop where
  known : ∀ ns mounts, n.mounts.get ns = some mounts → n.resolve (some ns) targets path = some (map mounts targets path)
  unknown : ∀ ns, ns.bind n.mounts.get = none → ∃ answers, n.resolve ns targets path = some answers ∧ answers.Nodup ∧
    ∀ answer, answer ∈ answers ↔ ∃ ns mounts, n.mounts.get ns = some mounts ∧ answer ∈ map mounts targets path

section Resolve

variable {n : Namespaces} {targets : List Watched} {path : Bytes}

theorem mem_keepNew {all : List (Nat × Bytes)} {found answer : Nat × Bytes} : answer ∈ keepNew all found ↔ answer ∈ all ∨ answer = found := by
  unfold keepNew
  split
  · rename_i h
    have hm := List.contains_iff_mem.1 h
    exact ⟨.inl, fun h => h.elim id fun he => he ▸ hm⟩
  · rw [List.mem_append, List.mem_singleton]

theorem foldl_keepNew : ∀ (found all : List (Nat × Bytes)), all.Nodup →
    (found.foldl keepNew all).Nodup ∧ ∀ answer, answer ∈ found.foldl keepNew all ↔ answer ∈ all ∨ answer ∈ found
  | [], all, h => ⟨h, fun answer => by simp⟩
  | a :: found, all, h => by
    have hnew : (keepNew all a).Nodup := by
      unfold keepNew
      split
      · exact h
      · rename_i hc
        rw [List.contains_iff_mem] at hc
        exact List.nodup_append.2 ⟨h, List.nodup_singleton a, fun x hx y hy he => hc (by
          rw [List.mem_singleton.1 hy] at he
          exact he ▸ hx)⟩
    obtain ⟨hn, hm⟩ := foldl_keepNew found (keepNew all a) hnew
    refine ⟨hn, fun answer => ?_⟩
    rw [List.foldl_cons, hm, mem_keepNew, List.mem_cons, or_assoc]

/-- Asking known namespaces gathers their answers. -/
theorem foldlM_ask : ∀ (order : List Nat) (all : List (Nat × Bytes)), (∀ ns ∈ order, n.mounts.get ns ≠ none) → all.Nodup →
    ∃ answers, order.foldlM (n.ask targets path) all = some answers ∧ answers.Nodup ∧
      ∀ answer, answer ∈ answers ↔ answer ∈ all ∨ ∃ ns ∈ order, ∃ mounts, n.mounts.get ns = some mounts ∧ answer ∈ map mounts targets path
  | [], all, _, h => ⟨all, rfl, h, fun answer => by simp⟩
  | ns :: order, all, hk, h => by
    obtain ⟨mounts, hget⟩ := Option.ne_none_iff_exists'.1 (hk ns (List.mem_cons_self ..))
    obtain ⟨hn, hm⟩ := foldl_keepNew (map mounts targets path) all h
    obtain ⟨answers, he, hna, hma⟩ := foldlM_ask order _ (fun x hx => hk x (List.mem_cons_of_mem _ hx)) hn
    refine ⟨answers, ?_, hna, fun answer => ?_⟩
    · rw [List.foldlM_cons, ask, hget, Option.map_some]
      exact he
    · rw [hma, hm, List.exists_mem_cons_iff, or_assoc, hget]
      simp

/-- Every path is mapped exactly, and asking all namespaces works, just if the first process's namespace
was read. -/
theorem mapping_exact_iff (n : Namespaces) (mounts : List NsMount) (targets : List Watched) (path : Bytes) :
    MapExact mounts targets path ∧ n.Resolves targets path ↔ n.HostRead := by
  constructor
  · rintro ⟨-, h⟩ ns hhost hnone
    obtain ⟨answers, he, -⟩ := h.unknown none rfl
    have hlost : n.resolve none targets path = none := by
      unfold resolve order
      rw [hhost]
      show (ns :: _).foldlM (n.ask targets path) [] = none
      rw [List.foldlM_cons, ask, hnone]
      rfl
    rw [hlost] at he
    cases he
  · intro hread
    refine ⟨map_exact mounts targets path, fun ns mounts hget => ?_, fun ns hns => ?_⟩
    · unfold resolve
      rw [Option.bind_some, hget]
    · have horder : ∀ ns ∈ n.order, n.mounts.get ns ≠ none := fun ns hm => by
        rcases List.mem_append.1 hm with hm | hm
        · exact hread ns (Option.mem_toList.1 hm)
        · obtain ⟨⟨k, mounts⟩, hk, rfl⟩ := List.mem_map.1 (List.mem_filter.1 hm).1
          rw [Table.get_eq_some.2 hk]
          exact Option.some_ne_none _
      obtain ⟨answers, he, hnodup, hm⟩ := foldlM_ask n.order [] horder List.nodup_nil
      refine ⟨answers, ?_, hnodup, fun answer => ?_⟩
      · unfold resolve
        rw [hns]
        exact he
      · rw [hm]
        refine ⟨fun h => ?_, fun ⟨ns, mounts, hget, ha⟩ => .inr ⟨ns, ?_, mounts, hget, ha⟩⟩
        · rcases h with h | ⟨ns, -, hans⟩
          · exact absurd h List.not_mem_nil
          · exact ⟨ns, hans⟩
        by_cases hh : some ns = n.host
        · exact List.mem_append_left _ (Option.mem_toList.2 hh.symm)
        · refine List.mem_append_right _ (List.mem_filter.2 ⟨List.mem_map.2 ⟨(ns, mounts), Table.get_eq_some.1 hget, rfl⟩, ?_⟩)
          exact decide_eq_true hh

end Resolve

/-- Process 1 lists a mount point that is not UTF-8, so its mounts are not read. -/
theorem unread_host_fails : ¬∀ (n : Namespaces) (mounts : List NsMount) (targets : List Watched) (path : Bytes), Looked n →
    MapExact mounts targets path ∧ n.Resolves targets path := by
  intro h
  obtain ⟨answers, he, -⟩ := (h _ [] [] [slash, 97] (.full [⟨1, some 5, none⟩])).2.unknown none rfl
  cases he

end Namespaces

example : map [⟨[56], [slash], [slash]⟩, ⟨[56], [slash, 97], [slash, 98]⟩] [⟨0, [56], [slash, 97, slash, 99]⟩] [slash, 98, slash, 99, slash, 100] =
    [(0, [slash, 100])] := by decide

end StorageHarvester.Synotify
