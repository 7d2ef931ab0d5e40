import AdaptiveMesh.Tree.Build

/-!
# Trees as bytes

A tree is stored as the levels and the coordinates of its nodes in order, so what was written from
one stored form of locations can be read into another:

```
  version: 4 bytes | dimension: 4 | levels: count, 4 each | coordinates: count, 8 each
```

Reading checks everything that writing promises; bytes behind the record are not looked at.
-/

namespace AdaptiveMesh

open LocationCode

/-- What is stored of a tree. -/
structure TreeRecord where
  version : Nat
  dimension : Nat
  levels : List Nat
  /-- The coordinates of node after node. -/
  coordinates : List Nat
deriving DecidableEq, Repr

namespace TreeRecord

/-- Version that is written, and the only one that is read. -/
def currentVersion : Nat := 1

def toBytes (r : TreeRecord) : Bytes :=
  Bytes.ofNat 4 r.version ++ Bytes.ofNat 4 r.dimension ++ Bytes.ofNats 4 r.levels ++
    Bytes.ofNats 8 r.coordinates

def decode : Decoder TreeRecord := do
  let version ← Decoder.nat 4
  let dimension ← Decoder.nat 4
  let levels ← Decoder.nats 4
  let coordinates ← Decoder.nats 8
  return { version, dimension, levels, coordinates }

end TreeRecord

namespace Tree

variable {D : Nat} {L : Type} [LocationCode D L]

def toRecord (t : Tree L) : TreeRecord where
  version := TreeRecord.currentVersion
  dimension := D
  levels := t.locations.toList.map LocationCode.level
  coordinates := t.locations.toList.flatMap fun x => (coordinates x).toList

/-- The bytes of a tree, whose nodes have to be distinct and in order.

The lists of the record are not measured by `Word.arraySize`, as the array of `uniform` is: the
longer one has 8 bytes for each axis of each node, which a signed word counts up to trees of
`2 ^ 58` nodes, and no memory holds a larger tree. -/
def toBytes (t : Tree L) : Except Fault Bytes :=
  if !t.isCompact then .error .writeNotCompact
  else if !t.isSorted then .error .writeNotSorted
  else .ok t.toRecord.toBytes

/-- The location of a stored node, whose level has to be one that can be stored and whose
coordinates have to be inside the root at that level. -/
def storedLocation (coordinates : Array Nat) (level position : Nat) : Except TreeError L :=
  let place : Vector Nat D := Vector.ofFn fun d => coordinates.getD (position * D + d) 0
  if hl : level ≤ LocationCode.maxLevel L then
    if hp : ∀ d : Fin D, place.get d < 2 ^ level then .ok (ofCoordinates place level hl hp)
    else .error (.invalidLocation position)
  else .error (.levelOutOfRange position level (LocationCode.maxLevel L))

/-- The tree that a record holds. -/
def ofRecord (L : Type) [LocationCode D L] (r : TreeRecord) : Except TreeError (Tree L) := do
  if r.version ≠ TreeRecord.currentVersion then throw (.unsupportedVersion r.version)
  if r.dimension ≠ D then throw (.dimensionMismatch D r.dimension)
  if r.coordinates.length ≠ r.levels.length * D then
    throw (.coordinateCount (r.levels.length * D) r.coordinates.length)
  let coordinates := r.coordinates.toArray
  let locations ← r.levels.zipIdx.mapM fun (level, position) =>
    storedLocation coordinates level position
  ofSorted locations.toArray

/-- The tree at the front of some bytes. -/
def ofBytes (L : Type) [LocationCode D L] (bytes : Bytes) : Except TreeError (Tree L) :=
  match TreeRecord.decode bytes with
  | .ok (record, _) => ofRecord L record
  | .error error => .error (.codec error)

end Tree

end AdaptiveMesh
