import AdaptiveMesh.Direction
import AdaptiveMesh.Word

/-!
# Tile layouts

A tile has the same number of internal cells along every axis and the same number of halo layers
around them on every side:

```
  4 internal cells, 1 halo layer       5  h h h h h h
                                       4  h i i i i h
                                       3  h i i i i h
                                       2  h i i i i h
                                       1  h i i i i h
                                       0  h h h h h h
                                          0 1 2 3 4 5
```

A cell is its place along each axis, and cells are stored with axis 0 running fastest. This module
holds the counts, the storage order and the moves between cells; the cells a tile shows in bulk
(boxes, rings, neighbours) are in `Tile.Cells`.
-/

namespace AdaptiveMesh

/-- Place of a cell along each axis of its tile. -/
abbrev Cell (D : Nat) := Vector Nat D

/-- The shape of a tile. -/
structure TileLayout (D : Nat) where
  internalCells : Nat
  haloLayers : Nat
  internalCells_pos : 0 < internalCells
  haloLayers_pos : 0 < haloLayers

namespace TileLayout

variable {D : Nat}

def make (D internalCells haloLayers : Nat) : Except Fault (TileLayout D) :=
  if hi : 0 < internalCells then
    if hh : 0 < haloLayers then .ok ⟨internalCells, haloLayers, hi, hh⟩
    else .error .noHaloLayers
  else .error .noInternalCells

/-! ## Counts -/

/-- Cells along each axis, halo included. -/
def cellsPerLength (t : TileLayout D) : Except Fault Nat := do
  Word.add t.internalCells (← Word.mul 2 t.haloLayers)

/-- Cells of the tile. -/
def size (t : TileLayout D) : Except Fault Nat := do
  Word.pow (← t.cellsPerLength) D

def internalSize (t : TileLayout D) : Except Fault Nat := Word.pow t.internalCells D

def haloSize (t : TileLayout D) : Except Fault Nat := do
  let size ← t.size
  Word.sub size (← t.internalSize)

/-- Place of the first internal cell along each axis. -/
def firstInternal (t : TileLayout D) : Nat := t.haloLayers

/-- Place of the last internal cell along each axis. -/
def lastInternal (t : TileLayout D) : Except Fault Nat := do
  Word.sub (← Word.add t.haloLayers t.internalCells) 1

/-- Place of the last cell along each axis. -/
def lastCell (t : TileLayout D) : Except Fault Nat := do
  Word.sub (← t.cellsPerLength) 1

/-! ## Cells and their storage order -/

def contains (t : TileLayout D) (c : Cell D) : Except Fault Bool := do
  let n ← t.cellsPerLength
  return c.all (· < n)

/-- Refuses a cell outside the tile. -/
def requireContains (t : TileLayout D) (c : Cell D) : Except Fault Unit := do
  let n ← t.cellsPerLength
  if ¬ c.all (· < n) then throw (.cellOutsideTile c.toList n)

/-- Place of a cell in storage. -/
def index (t : TileLayout D) (c : Cell D) : Except Fault Nat := do
  t.requireContains c
  let n ← t.cellsPerLength
  c.toList.foldrM (fun x higher => do Word.add (← Word.mul higher n) x) 0

/-- The cell at a place in storage. -/
def coordinate (t : TileLayout D) (index : Nat) : Except Fault (Cell D) := do
  let size ← t.size
  if size ≤ index then throw (.cellIndex index size)
  let n ← t.cellsPerLength
  return Vector.ofFn fun d => index / n ^ d.val % n

def isInternal (t : TileLayout D) (c : Cell D) : Except Fault Bool := do
  t.requireContains c
  let last ← t.lastInternal
  return c.all fun x => t.firstInternal ≤ x ∧ x ≤ last

def isHalo (t : TileLayout D) (c : Cell D) : Except Fault Bool :=
  (!·) <$> t.isInternal c

/-! ## Moves -/

/-- The cell some steps away, unless that is outside the tile. -/
def moved? (t : TileLayout D) (cell : Cell D) (o : Offset D) :
    Except Fault (Option (Cell D)) := do
  let n ← t.cellsPerLength
  let target : Vector Int D := Vector.ofFn fun d => (cell.get d : Int) + o.get d
  if ∀ d : Fin D, 0 ≤ target.get d ∧ target.get d < n then return some (target.map Int.toNat)
  else return none

/-- The cell some steps away, which has to be inside the tile. -/
def moved (t : TileLayout D) (c : Cell D) (o : Offset D) : Except Fault (Cell D) := do
  match ← t.moved? c o with
  | some target => return target
  | none => throw (.cellLeavesTile c.toList o.toList (← t.cellsPerLength))

/-- The cell some steps away along one axis, which has to be inside the tile. -/
def movedAlong (t : TileLayout D) (c : Cell D) (axis : Nat) (steps : Int) :
    Except Fault (Cell D) :=
  if axis < D then t.moved c (Vector.ofFn fun d => if d.val = axis then steps else 0)
  else .error (.noSuchAxis axis D)

end TileLayout

end AdaptiveMesh
