/-
Looking directories up by path (`DirTree::find`), and that in a well-shaped tree with proper names
it is the inverse of `display_path`: a lookup answers exactly the alive directory whose names are
the query's components below the root, and the displayed path of an alive directory leads back
to it.
-/
import StorageHarvester.Lib.Utf8
import StorageHarvester.Tree.Shape

namespace StorageHarvester

namespace DirTree

/-- `String::from_utf8_lossy` of the path; a `str` is its UTF-8 bytes. -/
def displayPath (t : DirTree) (index : Nat) : Bytes := Utf8.lossy (t.displayPathBytes index)

/-- The node at `displayPath`, if the tree holds it. What `strip_prefix` leaves starts at a
component, so parsing it again gives the components that are left. -/
def find (t : DirTree) (displayPath : Bytes) : Option Nat :=
  match stripPrefix (pathComponents displayPath) (pathComponents t.displayRoot) with
  | none => none
  | some rest => rest.foldlM (fun at_ component => t.childNamed at_ component.bytes) 0

/-- Every alive directory below the root has a name that a directory entry can have. -/
def ProperNames (t : DirTree) : Prop := ∀ i, (t.node i).alive = true → 0 < i → ProperName (t.node i).name

end DirTree

/-- Only a normal component has a proper name for its bytes. -/
theorem PathComponent.eq_normal {c : PathComponent} (h : ProperName c.bytes) : c = .normal c.bytes := by
  cases c with
  | rootDir => exact absurd (List.mem_singleton_self slash) h.2.1
  | curDir => exact absurd rfl h.2.2.1
  | parentDir => exact absurd rfl h.2.2.2
  | normal name => rfl

namespace Shape

variable {t : DirTree}

/-- A lookup by name finds exactly the child of that name. -/
theorem childNamed_eq_some (h : Shape t) {i : Nat} (hi : (t.node i).alive = true) {name : Bytes} {j : Nat} :
    t.childNamed i name = some j ↔ j ∈ (t.node i).children ∧ (t.node j).name = name := by
  constructor
  · intro hj
    unfold DirTree.childNamed at hj
    simp only at hj
    cases hb : binarySearchBy (t.node i).children fun child => compare (t.node child).name name with
    | ok at_ =>
      rw [hb] at hj
      obtain ⟨x, hx, hpx⟩ := binarySearchBy_ok hb
      rw [show (t.node i).children[at_]? = some j from hj] at hx
      cases hx
      exact ⟨List.mem_of_getElem? hj, Std.LawfulEqCmp.eq_of_compare hpx⟩
    | err at_ => rw [hb] at hj; cases hj
  · rintro ⟨hm, rfl⟩
    obtain ⟨at_, hat⟩ := List.getElem?_of_mem hm
    have hb := binarySearchBy_mem (probed_of_sorted (t.node j).name (h.sorted i hi)) hat Std.ReflOrd.compare_self
    unfold DirTree.childNamed
    simp only [hb, hat]

theorem componentsUp_fuel (h : Shape t) : ∀ {fuel fuel' i : Nat}, i < fuel → i < fuel' →
    t.componentsUp fuel i = t.componentsUp fuel' i
  | 0, _, _, hf, _ => absurd hf (Nat.not_lt_zero _)
  | _, 0, _, _, hf => absurd hf (Nat.not_lt_zero _)
  | fuel + 1, fuel' + 1, i, hf, hf' => by
    rw [DirTree.componentsUp, DirTree.componentsUp]
    cases hp : (t.node i).parent with
    | none => rfl
    | some p =>
      have hlt := h.down i p hp
      simp only
      rw [componentsUp_fuel h (show p < fuel by omega) (show p < fuel' by omega)]

theorem components_zero (t : DirTree) : t.components 0 = [] := by
  simp [DirTree.components, DirTree.componentsUp]

/-- The names down to a child are those down to its parent, and its own. -/
theorem components_of_parent (h : Shape t) {i p : Nat} (hp : (t.node i).parent = some p) :
    t.components i = t.components p ++ [(t.node i).name] := by
  have hlt := h.down i p hp
  unfold DirTree.components
  rw [DirTree.componentsUp, if_neg (by omega), hp]
  simp only [List.reverse_cons]
  rw [h.componentsUp_fuel hlt (Nat.lt_succ_self p)]

theorem components_proper (h : Shape t) (hn : t.ProperNames) : ∀ {i : Nat}, (t.node i).alive = true →
    ∀ name ∈ t.components i, ProperName name := by
  intro i
  induction i using Nat.strong_induction_on with
  | _ i ih =>
    intro hi name hm
    rcases Nat.eq_zero_or_pos i with rfl | hpos
    · rw [components_zero] at hm; cases hm
    · obtain ⟨p, hp⟩ := h.hasParent i hpos (DirTree.lt_of_alive hi)
      rw [h.components_of_parent hp, List.mem_append, List.mem_singleton] at hm
      rcases hm with hm | rfl
      · exact ih p (h.down i p hp) (h.listed i p hi hp).1 name hm
      · exact hn i hi hpos

/-- Descending by components passes only alive directories with exactly those names. -/
theorem foldlM_childNamed (h : Shape t) (hn : t.ProperNames) : ∀ (rest : List PathComponent) {a i : Nat},
    (t.node a).alive = true → rest.foldlM (fun at_ component => t.childNamed at_ component.bytes) a = some i →
    (t.node i).alive = true ∧ ∃ names, rest = names.map .normal ∧ t.components i = t.components a ++ names
  | [], a, i, ha, hf => by
    cases hf
    exact ⟨ha, [], rfl, by simp⟩
  | c :: rest, a, i, ha, hf => by
    rw [List.foldlM_cons] at hf
    obtain ⟨b, hb, hf⟩ := Option.bind_eq_some_iff.1 hf
    obtain ⟨hm, hname⟩ := (h.childNamed_eq_some ha).1 hb
    obtain ⟨hba, hbp⟩ := h.child a ha b hm
    obtain ⟨hia, names, rfl, hcomp⟩ := foldlM_childNamed h hn rest hba hf
    have hc : c = .normal c.bytes := PathComponent.eq_normal (by
      rw [← hname]
      exact hn b hba (Nat.lt_of_le_of_lt (Nat.zero_le a) (h.down b a hbp)))
    refine ⟨hia, c.bytes :: names, ?_, ?_⟩
    · rw [List.map_cons, ← hc]
    · rw [hcomp, h.components_of_parent hbp, hname]; simp

/-- A lookup answers only an alive directory whose names are exactly the query's components below
the root. -/
theorem find_some (h : Shape t) (hn : t.ProperNames) {query : Bytes} {i : Nat} (hf : t.find query = some i) :
    (t.node i).alive = true ∧
      pathComponents query = pathComponents t.displayRoot ++ (t.components i).map .normal := by
  unfold DirTree.find at hf
  cases hs : stripPrefix (pathComponents query) (pathComponents t.displayRoot) with
  | none => rw [hs] at hf; cases hf
  | some rest =>
    rw [hs] at hf
    obtain ⟨hia, names, rfl, hcomp⟩ := h.foldlM_childNamed hn rest h.root.1 hf
    rw [components_zero, List.nil_append] at hcomp
    exact ⟨hia, by rw [hcomp]; exact stripPrefix_eq_some.1 hs⟩

theorem foldlM_components (h : Shape t) : ∀ {i : Nat}, (t.node i).alive = true →
    ((t.components i).map PathComponent.normal).foldlM (fun at_ component => t.childNamed at_ component.bytes) 0 = some i := by
  intro i
  induction i using Nat.strong_induction_on with
  | _ i ih =>
    intro hi
    rcases Nat.eq_zero_or_pos i with rfl | hpos
    · rw [components_zero]; rfl
    · obtain ⟨p, hp⟩ := h.hasParent i hpos (DirTree.lt_of_alive hi)
      obtain ⟨hpa, hm⟩ := h.listed i p hi hp
      rw [h.components_of_parent hp, List.map_append, List.foldlM_append, ih p (h.down i p hp) hpa]
      have hstep : t.childNamed p (t.node i).name = some i := (h.childNamed_eq_some hpa).2 ⟨hm, rfl⟩
      simp [PathComponent.bytes, hstep]

/-- The displayed path of an alive directory leads back to it, when it is valid UTF-8. -/
theorem find_displayPath (h : Shape t) (hn : t.ProperNames) (hroot : t.displayRoot.head? = some slash) {i : Nat}
    (hi : (t.node i).alive = true) (hv : Utf8.valid (t.displayPathBytes i) = true) :
    t.find (t.displayPath i) = some i := by
  unfold DirTree.find DirTree.displayPath
  rw [Utf8.lossy_of_valid hv]
  have hc : pathComponents (t.displayPathBytes i) = pathComponents t.displayRoot ++ (t.components i).map .normal :=
    pathComponents_foldl_push _ hroot (h.components_proper hn hi)
  rw [stripPrefix_eq_some.2 hc]
  exact h.foldlM_components hi

end Shape

end StorageHarvester
