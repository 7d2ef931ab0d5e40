import AdaptiveMesh.Config.Basic
import AdaptiveMesh.Tile.Basic
import AdaptiveMesh.Tree.Basic

/-!
# Meshes

A tree with a tile of cell values on every leaf. A mesh keeps its tree; to refine or coarsen, take
the tree and make another mesh of it.
-/

namespace AdaptiveMesh

open LocationCode

structure Mesh (D : Nat) (L S : Type) where
  tree : Tree L
  config : MeshConfig S
  layout : TileLayout D
  /-- The tile of each node that is a leaf. -/
  tiles : Vector (Option (Tile D S)) tree.size

/-- Why a mesh cannot be made. -/
inductive MeshError (S : Type) where
  | config (error : ConfigError S)
  | fault (fault : Fault)

namespace Mesh

variable {D : Nat} {L S : Type} [LocationCode D L] [Scalar S]

/-- The tile of a node, if the node is a leaf. -/
def makeTile? (config : MeshConfig S) (layout : TileLayout D) (tree : Tree L) (n : tree.Node) :
    Except Fault (Option (Tile D S)) :=
  if tree.isLeaf n then do
    let box ← config.nodeBox (tree.location n)
    return some (← Tile.make n (tree.level n) box layout config.variableCount)
  else return none

/-- The mesh of a tree whose values are all zero. -/
def make (tree : Tree L) (config : MeshConfig S) : Except (MeshError S) (Mesh D L S) := do
  config.validate.mapError .config
  let layout ← (config.layout D).mapError .fault
  let tiles ← (Vector.ofFnM (makeTile? config layout tree)).mapError .fault
  return { tree, config, layout, tiles }

/-- The tile of a node. -/
def tile? (mesh : Mesh D L S) (n : mesh.tree.Node) : Option (Tile D S) := mesh.tiles.get n

/-- The tile of the leaf at a location. -/
def tileAt? (mesh : Mesh D L S) (x : L) : Option (Tile D S) :=
  (mesh.tree.nodeAt? x).bind mesh.tile?

/-- Every tile, in depth-first order of the leaves. -/
def tileList (mesh : Mesh D L S) : List (Tile D S) := mesh.tiles.toList.filterMap id

/-! ## Leaves under points -/

/-- The child over a point given by its place within the root, for the node `depth - 1` levels
down that it lies in. -/
def childOver (place : Vector S D) (depth : Nat) : ChildPosition D :=
  ChildPosition.ofSides fun d =>
    (Scalar.floor (place.get d * Scalar.ofNat (2 ^ depth))).testBit 0

/-- The leaf over a point among a node and the nodes at most `levels` levels below it. -/
def leafBelow (tree : Tree L) (place : Vector S D) : (levels : Nat) → tree.Node → Option tree.Node
  | 0, n => if tree.isLeaf n then some n else none
  | levels + 1, n =>
    if tree.isLeaf n then some n
    else do
      let x := tree.location n
      let child ← child? x (childOver place (level x + 1))
      leafBelow tree place levels (← tree.nodeAt? child)

/-- The leaf over a point. There is none outside the root, nor where a node has only some of its
children. -/
def leafContaining [Dimension D] (mesh : Mesh D L S) (x : Point S) : Option mesh.tree.Node :=
  let place : Vector S D := Vector.ofFn fun d =>
    (x.along d - mesh.config.origin.along d) / mesh.config.rootLength
  if place.all fun p => Scalar.le (Scalar.ofNat 0) p && Scalar.lt p (Scalar.ofNat 1) then
    (mesh.tree.nodeAt? root).bind (leafBelow mesh.tree place (maxLevel L))
  else none

/-! ## Filling -/

variable {σ : Type}

/-- Sets some cells of a tile from their centres and their values so far, passing a state along. -/
def fillCells (f : σ → Point S → Array S → σ × Array S) (cells : List (Cell D)) (s : σ)
    (tile : Tile D S) : Except Fault (σ × Tile D S) :=
  cells.foldlM (fun (s, tile) c => do
    let x ← tile.cellCentroid c
    let (s, values) := f s x (← tile.get c)
    return (s, ← tile.set c values)) (s, tile)

/-- Sets some cells of every tile, tile after tile. -/
def fillTiles (mesh : Mesh D L S) (f : σ → Point S → Array S → σ × Array S)
    (cells : List (Cell D)) (s : σ) : Except Fault (σ × Mesh D L S) := do
  let fillTile : Option (Tile D S) → StateT σ (Except Fault) (Option (Tile D S))
    | none => return none
    | some tile => fun s => do
      let (s, tile) ← fillCells f cells s tile
      return (some tile, s)
  let (tiles, s) ← (mesh.tiles.mapM fillTile).run s
  return (s, { mesh with tiles })

/-- Sets every internal cell. -/
def fillInternal (mesh : Mesh D L S) (f : σ → Point S → Array S → σ × Array S) (s : σ) :
    Except Fault (σ × Mesh D L S) := do
  mesh.fillTiles f (← mesh.layout.internalCellList) s

/-- Sets every halo cell, those outside the root included, which no exchange ever writes. -/
def fillHalo (mesh : Mesh D L S) (f : σ → Point S → Array S → σ × Array S) (s : σ) :
    Except Fault (σ × Mesh D L S) := do
  mesh.fillTiles f (← mesh.layout.haloCellList) s

end Mesh

end AdaptiveMesh
