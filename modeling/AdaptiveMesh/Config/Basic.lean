import AdaptiveMesh.Geometry
import AdaptiveMesh.Location.Basic
import AdaptiveMesh.Tile.Layout

/-!
# Mesh configuration

Where the root of the tree lies in space, and the shape of the tile that every leaf carries. The
box of a node follows from its location: a node of level `l` is `2 ^ l` times shorter than the
root, and its coordinates count such lengths from the root's lowest corner.
-/

namespace AdaptiveMesh

open LocationCode

structure MeshConfig (S : Type) where
  /-- Lowest corner of the root. -/
  origin : Point S
  rootLength : S
  /-- Internal cells of a tile along each axis. -/
  internalCells : Nat
  /-- Halo layers of a tile on each side. -/
  haloLayers : Nat
  /-- Values stored for each cell. -/
  variableCount : Nat

/-- What is wrong with a configuration. -/
inductive ConfigError (S : Type) where
  | internalCells (found : Nat)
  | haloLayers (found internalCells : Nat)
  | noVariables
  | rootLength (found : S)

/-- The edge length of a node of a level, for a root of length one. -/
def unitLength {S : Type} [Scalar S] (level : Nat) : Except Fault S := do
  return Scalar.ofNat 1 / Scalar.ofNat (← Word.twoPow level)

namespace MeshConfig

variable {D : Nat} {L S : Type} [LocationCode D L] [Scalar S]

/-- The unit cube at the origin, with four internal cells, one halo layer and one variable. -/
def unit : MeshConfig S where
  origin := Vector.replicate 3 (Scalar.ofNat 0)
  rootLength := Scalar.ofNat 1
  internalCells := 4
  haloLayers := 1
  variableCount := 1

/-- Refuses a configuration for its first fault. Internal cells have to be even in number, so that
each child of a node covers whole cells of its parent. -/
def validate (c : MeshConfig S) : Except (ConfigError S) Unit :=
  if c.internalCells = 0 ∨ c.internalCells % 2 ≠ 0 then .error (.internalCells c.internalCells)
  else if c.haloLayers = 0 ∨ c.internalCells < c.haloLayers then
    .error (.haloLayers c.haloLayers c.internalCells)
  else if c.variableCount = 0 then .error .noVariables
  else if !Scalar.isFinite c.rootLength || Scalar.le c.rootLength (Scalar.ofNat 0) then
    .error (.rootLength c.rootLength)
  else .ok ()

/-- The layout of every tile. -/
def layout (c : MeshConfig S) (D : Nat) : Except Fault (TileLayout D) :=
  TileLayout.make D c.internalCells c.haloLayers

/-- Edge length of a node of a level. -/
def nodeLength (c : MeshConfig S) (level : Nat) : Except Fault S := do
  return c.rootLength * (← unitLength level)

/-- Edge length of a cell in a tile of a level. -/
def cellLength (c : MeshConfig S) (level : Nat) : Except Fault S := do
  return (← c.nodeLength level) / Scalar.ofNat c.internalCells

/-- Lowest corner of a node. -/
def nodeLower (c : MeshConfig S) (x : L) : Except Fault (Point S) := do
  let length ← c.nodeLength (level x)
  let place := coordinates x
  return c.origin.mapAxes D fun d o => o + Scalar.ofNat (place.get d) * length

/-- The box of a node. -/
def nodeBox (c : MeshConfig S) (x : L) : Except Fault (Box D S) := do
  let lower ← c.nodeLower x
  Box.ofLower lower (← c.nodeLength (level x))

/-- The centre of a node. -/
def nodeCentroid (c : MeshConfig S) (x : L) : Except Fault (Point S) := do
  return (← c.nodeBox x).centroid

end MeshConfig

end AdaptiveMesh
