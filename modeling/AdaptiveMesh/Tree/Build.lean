import AdaptiveMesh.Count
import AdaptiveMesh.Tree.Basic
import AdaptiveMesh.Tree.Error

/-!
# Building trees

The root alone, every node down to a level, the closure of some locations under ancestors, or an
array that is checked to be a tree.
-/

namespace AdaptiveMesh

open LocationCode

namespace Tree

variable {D : Nat} {L : Type} [LocationCode D L]

/-- The tree of the root alone. -/
def single : Tree L := ⟨#[root]⟩

/-- A location and everything below it down to `depth` levels, in depth-first order. -/
def subtree : (depth : Nat) → L → List L
  | 0, x => [x]
  | depth + 1, x =>
    x :: (ChildPosition.all D).flatMap fun p => match child? x p with
      | some child => subtree depth child
      | none => []

/-- The tree whose leaves are the nodes of one level. -/
def uniform (L : Type) [LocationCode D L] (level : Nat) : Except Fault (Tree L) :=
  if level ≤ LocationCode.maxLevel L then do
    let _ ← Word.arraySize (← Count.nodesUpToLevel D level) (LocationCode.byteSize L)
    return ⟨(subtree level (root : L)).toArray⟩
  else .error (.uniformLevel level (LocationCode.maxLevel L))

/-- The smallest tree that holds the given locations. -/
def ofLocations (xs : List L) : Tree L :=
  let closed := root :: xs.flatMap fun x => x :: ancestors x
  ⟨(closed.mergeSort fun x y => (compare x y).isLE).eraseReps.toArray⟩

/-- What is wrong with an entry, given that the entries before it are right: the first is the root,
and every other is behind the one before it and has its parent in front. -/
def entryError? (a : Array L) (p : Fin a.size) : Option TreeError :=
  if p.val = 0 then if isRoot a[p] then none else some (.missingParent p)
  else
    let previous := a[p.val - 1]
    if previous = a[p] then some (.notCompact p)
    else if compare previous a[p] = .gt then some (.notSorted p)
    else match LocationCode.parent? a[p] with
      | some parent =>
        if (searchBetween a parent 0 p (Nat.le_of_lt p.isLt)).isSome then none
        else some (.missingParent p)
      | none => some (.missingParent p)

/-- The tree with a given location array, or the first fault of the array. -/
def ofSorted (a : Array L) : Except TreeError (Tree L) :=
  if a.isEmpty then .error .empty
  else match (List.finRange a.size).findSome? (entryError? a) with
    | some error => .error error
    | none => .ok ⟨a⟩

end Tree

end AdaptiveMesh
