import AdaptiveMesh.Tree.Basic

/-!
# Neighbours

The node next to a node in a direction sits at the shifted location. The leaves next to a leaf may
be that node, the leaves below it that face the leaf, or the leaf above it:

```
  same level        finer               coarser
  ┌───┬───┐        ┌───┬─┬─┐           ┌───┬───────┐
  │ L │ N │        │   │n│ │           │ L │       │
  └───┴───┘        │ L ├─┼─┤           ├───┤   N   │
                   │   │n│ │           │   │       │
                   └───┴─┴─┘           └───┴───────┘
```
-/

namespace AdaptiveMesh

open LocationCode

namespace Tree

variable {D : Nat} {L : Type} [LocationCode D L]

/-- The node of the same level next to a node. -/
def neighbor (t : Tree L) (n : t.Node) (d : Direction D) : Except Fault (Option t.Node) := do
  return (← shift (t.location n) d.offset).bind t.nodeAt?

/-- Whether a child lies on the side of its parent that a neighbour in direction `d` shows to the
node it neighbours. -/
def isFacing (d : Direction D) (p : ChildPosition D) : Bool :=
  decide (∀ i : Fin D, d.offset.get i = 0 ∨ p.side i = -d.offset.get i)

/-- The leaves at most `depth` levels below a node that lie on its side facing against `d`. -/
def facingLeaves (t : Tree L) (d : Direction D) : (depth : Nat) → t.Node → List t.Node
  | 0, _ => []
  | depth + 1, n =>
    (t.children n).flatMap fun child =>
      if isFacing d (childPosition (t.location child) (t.level child)) then
        if t.isLeaf child then [child] else facingLeaves t d depth child
      else []

/-- The leaves next to a leaf in a direction, in depth-first order. -/
def leafNeighbors (t : Tree L) (leaf : t.Node) (d : Direction D) :
    Except Fault (List t.Node) :=
  if t.isLeaf leaf then do
    match ← shift (t.location leaf) d.offset with
    | none => return []
    | some target =>
      match t.nodeAt? target with
      | some n =>
        if t.isLeaf n then return [n]
        else return t.facingLeaves d (LocationCode.maxLevel L - t.level n) n
      | none => return (((ancestors target).findSome? t.nodeAt?).filter t.isLeaf).toList
  else .error (.notLeaf leaf)

/-- The leaves next to a leaf, each once, in the order in which the directions first show them. -/
def allLeafNeighbors (t : Tree L) (leaf : t.Node) : Except Fault (List t.Node) := do
  return (← (Direction.all D).mapM (t.leafNeighbors leaf)).flatten.eraseDups

end Tree

end AdaptiveMesh
