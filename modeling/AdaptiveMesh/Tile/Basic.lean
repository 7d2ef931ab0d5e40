import AdaptiveMesh.Geometry
import AdaptiveMesh.Tile.Cells
import AdaptiveMesh.Tile.State

/-!
# Tiles

The cells of a leaf in space. The internal cells divide the leaf's box evenly, and the halo cells
go on with the same spacing outside it. A cell owns its lower faces and not its upper ones, so a
point lies in at most one cell.
-/

namespace AdaptiveMesh

structure Tile (D : Nat) (S : Type) where
  /-- Index of the leaf in its tree. -/
  node : Nat
  level : Nat
  /-- Box of the leaf. -/
  box : Box D S
  layout : TileLayout D
  state : StateBuffer S

namespace Tile

variable {D : Nat} {S : Type} [Scalar S]

/-- A tile of zeros. -/
def make (node level : Nat) (box : Box D S) (layout : TileLayout D) (variableCount : Nat) :
    Except Fault (Tile D S) := do
  let state ← StateBuffer.make (← layout.size) variableCount
  return { node, level, box, layout, state }

/-- Edge length of a cell. -/
def cellLength (t : Tile D S) : S := t.box.length / Scalar.ofNat t.layout.internalCells

/-- The centre of a cell. -/
def cellCentroid (t : Tile D S) (cell : Cell D) : Except Fault (Point S) := do
  if !(← t.layout.contains cell) then throw .centroidOutsideTile
  let halo : S := Scalar.ofNat t.layout.haloLayers
  return t.box.lower.mapAxes D fun d low =>
    low + (Scalar.ofNat (cell.get d) - halo + Scalar.half) * t.cellLength

/-- The values of a cell. -/
def get (t : Tile D S) (c : Cell D) : Except Fault (Array S) := do
  t.state.get (← t.layout.index c)

/-- The tile with other values for a cell. -/
def set (t : Tile D S) (c : Cell D) (values : Array S) : Except Fault (Tile D S) := do
  return { t with state := ← t.state.set (← t.layout.index c) values }

/-- The tile with another value for one variable of a cell. -/
def setValue (t : Tile D S) (c : Cell D) (v : Nat) (x : S) : Except Fault (Tile D S) := do
  return { t with state := ← t.state.setValue (← t.layout.index c) v x }

/-! ## Cells under points -/

variable [Dimension D]

/-- The cell, halo included, in which a point lies. -/
def cellContaining (t : Tile D S) (x : Point S) : Except Fault (Option (Cell D)) := do
  let n ← t.layout.cellsPerLength
  let place : Vector S D := Vector.ofFn fun d =>
    (x.along d - t.box.lower.along d) / t.cellLength + Scalar.ofNat t.layout.haloLayers
  if place.all fun p => Scalar.le (Scalar.ofNat 0) p && Scalar.lt p (Scalar.ofNat n) then
    return some (place.map Scalar.floor)
  else
    return none

/-- The internal cell in which a point lies. -/
def internalCellContaining (t : Tile D S) (x : Point S) : Except Fault (Option (Cell D)) := do
  match ← t.cellContaining x with
  | some c => return if ← t.layout.isInternal c then some c else none
  | none => return none

/-- The halo cell in which a point lies. -/
def haloCellContaining (t : Tile D S) (x : Point S) : Except Fault (Option (Cell D)) := do
  match ← t.cellContaining x with
  | some c => return if ← t.layout.isHalo c then some c else none
  | none => return none

end Tile

end AdaptiveMesh
