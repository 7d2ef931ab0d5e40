import AdaptiveMesh.Limiter
import AdaptiveMesh.Mesh.Basic
import AdaptiveMesh.Mesh.Stats
import AdaptiveMesh.Tree.Neighbor

/-!
# Halo exchange

Halo cells inside the root are set from the leaf that covers them, in two phases:

```
  that leaf, against the tile      operation     phase
  same level                       copy          1
  finer                            restrict      1
  coarser                          project       2
```

Phase one reads internal cells alone. Phase two also reads halo cells of coarser tiles, for the
slopes, so phase one goes first over the whole mesh. Within a phase every update is computed from
the values as they were when the phase began, and only then are the updates applied.
-/

namespace AdaptiveMesh

/-- How a halo cell was set. -/
inductive Transfer where
  | copied
  | restricted
  | projected
deriving DecidableEq, Repr

/-- New values for one halo cell, at its place in storage. -/
structure CellUpdate (S : Type) where
  index : Nat
  values : Array S
  transfer : Transfer

/-- New values for halo cells of the tile of a node, and the number of directions in which the
node has no leaf next to it. -/
structure TileUpdate {L : Type} (tree : Tree L) (S : Type) where
  node : tree.Node
  cells : List (CellUpdate S)
  absent : Nat

namespace TileUpdate

variable {D : Nat} {L S : Type} {tree : Tree L}

def count (u : TileUpdate tree S) (transfer : Transfer) : Nat :=
  u.cells.countP fun c => c.transfer = transfer

def stats (u : TileUpdate tree S) : ExchangeStats :=
  { ExchangeStats.zero with
    copied := u.count .copied
    restricted := u.count .restricted
    projected := u.count .projected
    absent := u.absent }

/-- Writes an update into the tiles of a tree and adds its counts. -/
def apply (sofar : ExchangeStats × Vector (Option (Tile D S)) tree.size) (u : TileUpdate tree S) :
    Except Fault (ExchangeStats × Vector (Option (Tile D S)) tree.size) := do
  let (stats, tiles) := sofar
  let stats ← stats.merge u.stats
  let some tile := tiles.get u.node | return (stats, tiles)
  let state ← u.cells.foldlM (fun state cell => state.set cell.index cell.values) tile.state
  return (stats, tiles.set u.node (some { tile with state }))

end TileUpdate

namespace Mesh

variable {D : Nat} {L S : Type} [LocationCode D L] [Scalar S]

/-- Gathers the updates of every leaf, then applies them. -/
def runPhase (mesh : Mesh D L S)
    (gather : mesh.tree.Node → Except Fault (TileUpdate mesh.tree S)) :
    Except Fault (ExchangeStats × Mesh D L S) := do
  let updates ← mesh.tree.leaves.mapM gather
  let (stats, tiles) ← updates.foldlM TileUpdate.apply (ExchangeStats.zero, mesh.tiles)
  return (stats, { mesh with tiles })

/-- The tiles next to a leaf, in the order in which the directions first show them, and the number
of directions without any. -/
def neighborTiles (mesh : Mesh D L S) (leaf : mesh.tree.Node) :
    Except Fault (List (Tile D S) × Nat) := do
  let found ← (Direction.all D).mapM (mesh.tree.leafNeighbors leaf)
  return (found.flatten.eraseDups.filterMap mesh.tile?, found.countP List.isEmpty)

variable [Dimension D]

/-- The first of some tiles with a point in an internal cell, and that cell. -/
def firstSource (tiles : List (Tile D S)) (x : Point S) :
    Except Fault (Option (Tile D S × Cell D)) :=
  tiles.findSomeM? fun tile => do
    return (← tile.internalCellContaining x).map fun c => (tile, c)

/-! ## Restriction -/

/-- The mean over the leaf cells under the box with edge `length` around `x`, if leaves cover it.

A box no larger than the cell under its centre lies in that cell, since the edges of both are on
halvings of one grid. Any other box is cut into its `2 ^ D` parts, at most `halvings` times:

```
  ┌───────────┐        ┌─────┬─────┐
  │           │        │ a   │  b  │
  │     x     │  -->   ├─────┼─────┤
  │           │        │ c   │  d  │
  └───────────┘        └─────┴─────┘
```
-/
def restrictWithin (mesh : Mesh D L S) :
    (halvings : Nat) → Point S → S → Except Fault (Option (Array S))
  | halvings, x, length => do
    let some leaf := mesh.leafContaining x | return none
    let some tile := mesh.tile? leaf | return none
    if Scalar.lt (Scalar.threeQuarters * length) tile.cellLength then
      match ← tile.internalCellContaining x with
      | some c => return some (← tile.get c)
      | none => return none
    else match halvings with
      | 0 => throw .unresolvedBox
      | halvings + 1 =>
        let quarter := Scalar.quarter * length
        let addPart (sum : Option (Array S)) (part : ChildPosition D) :
            Except Fault (Option (Array S)) := do
          let some sum := sum | return none
          let centre := x.mapAxes D fun d p =>
            if part.isPositive d then p + quarter else p - quarter
          let some values ← restrictWithin mesh halvings centre (Scalar.half * length)
            | return none
          return some (Array.zipWith (· + ·) sum values)
        let zeros := Array.replicate tile.state.variableCount (Scalar.ofNat 0)
        let some sum ← (ChildPosition.all D).foldlM addPart (some zeros) | return none
        let weight : S := Scalar.ofNat 1 / Scalar.ofNat (2 ^ D)
        return some (sum.map (· * weight))

/-- The most cuts in a restriction, whatever the stored form of locations. In exact arithmetic a box
of the size of a cell is cut at most once for each level below, and no level reaches the width of a
word. -/
def mostHalvings (S : Type) [Scalar S] : Nat := Word.width + Scalar.extraHalvings S

/-- The mean over the leaf cells under a box, if leaves cover it. -/
def restrict (mesh : Mesh D L S) (x : Point S) (length : S) :
    Except Fault (Option (Array S)) :=
  mesh.restrictWithin (mostHalvings S) x length

/-! ## Projection -/

/-- The values at a point in an internal cell of a tile, on the plane through the cell's values
with limited slopes along each axis. -/
def project (coarse : Tile D S) (source : Cell D) (x : Point S) (limiter : Limiter) :
    Except Fault (Array S) := do
  let centroid ← coarse.cellCentroid source
  let center ← coarse.get source
  (List.finRange D).foldlM (fun values (d : Fin D) => do
    let lower ← coarse.get (← coarse.layout.movedAlong source d (-1))
    let upper ← coarse.get (← coarse.layout.movedAlong source d 1)
    let delta := (x.along d - centroid.along d) / coarse.cellLength
    let slopes := Array.zipWith limiter.slope
      (Array.zipWith (· - ·) center lower) (Array.zipWith (· - ·) upper center)
    return Array.zipWith (fun value slope => value + slope * delta) values slopes) center

/-! ## Phases -/

/-- What phase one writes to a halo cell: a copy from the first tile of the same level over the
cell's centre, else the mean over finer leaves where those lie there. -/
def phaseOneUpdate (mesh : Mesh D L S) (tile : Tile D S) (same : List (Tile D S))
    (hasFiner : Bool) (halo : Cell D) : Except Fault (Option (CellUpdate S)) := do
  let x ← tile.cellCentroid halo
  match ← firstSource same x with
  | some (neighbor, source) =>
    return some ⟨← tile.layout.index halo, ← neighbor.get source, .copied⟩
  | none =>
    if !hasFiner then return none
    let some covering := mesh.leafContaining x | return none
    if mesh.tree.level covering ≤ tile.level then return none
    let some values ← mesh.restrict x tile.cellLength | return none
    return some ⟨← tile.layout.index halo, values, .restricted⟩

/-- What phase one writes to the tile of a leaf. -/
def gatherPhaseOne (mesh : Mesh D L S) (leaf : mesh.tree.Node) :
    Except Fault (TileUpdate mesh.tree S) := do
  let some tile := mesh.tile? leaf | return ⟨leaf, [], 0⟩
  let (neighbors, absent) ← mesh.neighborTiles leaf
  let same := neighbors.filter fun n => n.level = tile.level
  let hasFiner := neighbors.any fun n => tile.level < n.level
  let updates ← (← tile.layout.haloCellList).mapM (mesh.phaseOneUpdate tile same hasFiner)
  return ⟨leaf, updates.filterMap id, absent⟩

/-- What phase two writes to a halo cell: the projection from the first coarser tile over the
cell's centre. -/
def phaseTwoUpdate (tile : Tile D S) (coarser : List (Tile D S)) (limiter : Limiter)
    (halo : Cell D) : Except Fault (Option (CellUpdate S)) := do
  let x ← tile.cellCentroid halo
  let some (neighbor, source) ← firstSource coarser x | return none
  return some ⟨← tile.layout.index halo, ← project neighbor source x limiter, .projected⟩

/-- What phase two writes to the tile of a leaf. -/
def gatherPhaseTwo (mesh : Mesh D L S) (limiter : Limiter) (leaf : mesh.tree.Node) :
    Except Fault (TileUpdate mesh.tree S) := do
  let some tile := mesh.tile? leaf | return ⟨leaf, [], 0⟩
  let (neighbors, _) ← mesh.neighborTiles leaf
  let coarser := neighbors.filter fun n => n.level < tile.level
  if coarser.isEmpty then return ⟨leaf, [], 0⟩
  let updates ← (← tile.layout.haloCellList).mapM (phaseTwoUpdate tile coarser limiter)
  return ⟨leaf, updates.filterMap id, 0⟩

/-- Copies from leaves of the same level and restricts from finer ones. -/
def phaseOne (mesh : Mesh D L S) : Except Fault (ExchangeStats × Mesh D L S) :=
  mesh.runPhase mesh.gatherPhaseOne

/-- Projects from coarser leaves. -/
def phaseTwo (mesh : Mesh D L S) (limiter : Limiter) :
    Except Fault (ExchangeStats × Mesh D L S) :=
  mesh.runPhase (mesh.gatherPhaseTwo limiter)

/-- Both phases, one after the other. -/
def exchange (mesh : Mesh D L S) (limiter : Limiter) :
    Except Fault (ExchangeStats × Mesh D L S) := do
  let (one, mesh) ← mesh.phaseOne
  let (two, mesh) ← mesh.phaseTwo limiter
  return (← one.merge two, mesh)

end Mesh

end AdaptiveMesh
