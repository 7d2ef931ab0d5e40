import AdaptiveMesh.Tile.Layout

/-!
# Cells in bulk

The cells of a box, of the ring along a box's boundary, and the cells some way off in every
direction of a manifold. Every list is in storage order, axis 0 running fastest.
-/

namespace AdaptiveMesh

/-- The cells between two corners, both included. -/
def boxCells {D : Nat} (first last : Cell D) : List (Cell D) :=
  tuples (Vector.ofFn fun d => closedRange (first.get d) (last.get d))

/-- The cells between two corners that are within `width` steps of the boundary, row by row: where
a higher axis is that close the whole row is, elsewhere the two ends of the row are. -/
def ringCells : {D : Nat} → (first last : Cell D) → (width : Nat) → Except Fault (List (Cell D))
  | 0, _, _, _ => .ok []
  | 1, first, last, width => do
    let lowerEnd ← Word.add first[0] width
    let upperStart ← Word.sub last[0] width
    return (closedRange first[0] lowerEnd ++ closedRange upperStart last[0]).map fun x => #v[x]
  | D + 2, first, last, width => do
    let rows ← (closedRange first.back last.back).mapM fun x => do
      let lower ←
        if x ≤ first.back + width ∨ last.back - width ≤ x then
          pure (boxCells (D := D + 1) first.pop last.pop)
        else ringCells (D := D + 1) first.pop last.pop width
      return lower.map fun c => c.push x
    return rows.flatten

namespace TileLayout

variable {D : Nat}

/-- Refuses corners outside the tile or out of order. -/
def requireBounds (t : TileLayout D) (first last : Cell D) : Except Fault Unit := do
  t.requireContains first
  t.requireContains last
  match (List.finRange D).find? fun d => last.get d < first.get d with
  | some d => throw (.invertedBounds d (first.get d) (last.get d))
  | none => return ()

/-- The cells between two corners of the tile. -/
def cellsBetween (t : TileLayout D) (first last : Cell D) : Except Fault (List (Cell D)) := do
  t.requireBounds first last
  return boxCells first last

/-- Every cell. -/
def cells (t : TileLayout D) : Except Fault (List (Cell D)) := do
  t.cellsBetween (Vector.replicate D 0) (Vector.replicate D (← t.lastCell))

/-- Every internal cell. -/
def internalCellList (t : TileLayout D) : Except Fault (List (Cell D)) := do
  t.cellsBetween (Vector.replicate D t.firstInternal) (Vector.replicate D (← t.lastInternal))

/-- Refuses a ring whose two sides meet along an axis. The comparison is between signed words. -/
def requireRing (first last : Cell D) (width : Nat) : Except Fault Unit :=
  (List.finRange D).forM fun d => do
    let upper ← Word.checkedSigned (Word.toSigned (last.get d) - Word.toSigned width)
    let lower ← Word.add (first.get d) width
    if upper ≤ Word.toSigned lower then throw (.ringOverlap d (first.get d) (last.get d) width)

/-- The cells between two corners of the tile that are within `width` steps of the boundary. -/
def ring (t : TileLayout D) (first last : Cell D) (width : Nat) :
    Except Fault (List (Cell D)) := do
  requireRing first last width
  t.requireBounds first last
  ringCells first last width

/-- Every halo cell. -/
def haloCellList (t : TileLayout D) : Except Fault (List (Cell D)) := do
  t.ring (Vector.replicate D 0) (Vector.replicate D (← t.lastCell)) (t.haloLayers - 1)

/-- The cells `distance` steps from a cell in the directions of a manifold, where those are inside
the tile. The steps are counted in a signed word. -/
def neighborCells (t : TileLayout D) (c : Cell D) (m : Manifold) (distance : Nat) :
    Except Fault (List (Cell D)) := do
  t.requireContains c
  let found ← (m.directions D).mapM fun direction => do
    let steps ← direction.offset.mapM fun o => Word.checkedSigned (o * Word.toSigned distance)
    t.moved? c steps
  return found.filterMap id

end TileLayout

end AdaptiveMesh
