import AdaptiveMesh.Tree.Basic

/-!
# Refining and coarsening

Both act on the run of entries behind a node: refining a leaf puts its children there, coarsening a
node takes its descendants out.
-/

namespace AdaptiveMesh

open LocationCode

namespace Tree

variable {D : Nat} {L : Type} [LocationCode D L]

/-- The tree with the children of leaf `n` added, unless `n` is no leaf or as deep as can be
stored. -/
def refine? (t : Tree L) (n : t.Node) : Option (Tree L) :=
  if t.isLeaf n ∧ t.level n < LocationCode.maxLevel L then
    let entries := t.locations.toList
    let children := (ChildPosition.all D).filterMap (child? (t.location n))
    some ⟨(entries.take (n + 1) ++ children ++ entries.drop (n + 1)).toArray⟩
  else none

/-- The descendants of a node. -/
def descendants (t : Tree L) (n : t.Node) : List L :=
  (t.locations.toList.drop (n + 1)).takeWhile (isAncestorOf (t.location n))

/-- The tree without the descendants of a node. -/
def coarsen (t : Tree L) (n : t.Node) : Tree L :=
  let entries := t.locations.toList
  ⟨(entries.take (n + 1) ++
    (entries.drop (n + 1)).dropWhile (isAncestorOf (t.location n))).toArray⟩

end Tree

end AdaptiveMesh
