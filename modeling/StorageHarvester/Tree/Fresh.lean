/-
What a scan's tree is like before anything is applied to it: every node alive, files owned inside the
tree, and totals that add up as long as nothing saturated.
-/
import StorageHarvester.Tree.Find
import StorageHarvester.Tree.Owners

namespace StorageHarvester

open Forest

/-- A tree as a scan builds it. -/
structure Fresh (t : DirTree) : Prop where
  shape : Shape t
  names : t.ProperNames
  alive : ∀ i < t.nodes.length, (t.node i).alive = true
  owners : ∀ inode owner, t.links.get inode = some owner → owner.node < t.nodes.length
  covered : ∀ i < t.nodes.length, ∀ c, (t.node i).direct.get c < u64Max →
    t.overChildren i (fun n => n.own c) ≤ t.rest i c
  rolled : ∀ c, (t.node 0).sub.get c < u64Max → ∀ i < t.nodes.length,
    0 ≤ t.surplus i c ∧ ((t.node i).isSealed = false → t.surplus i c = 0)
  unclamped : t.clamped = false

namespace Fresh

variable {t : DirTree}

theorem ownersAlive (h : Fresh t) : t.OwnersAlive := fun inode owner ho => h.alive _ (h.owners inode owner ho)

theorem rolledUp (h : Fresh t) (hs : ∀ c, (t.node 0).sub.get c < u64Max) : t.RolledUp :=
  fun i hi c => h.rolled c (hs c) i (DirTree.lt_of_alive hi)

end Fresh

end StorageHarvester
