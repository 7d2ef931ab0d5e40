import AdaptiveMesh.Tile.Cells

/-!
# Closest cell

Cells around a start are searched shell by shell; a shell holds the cells of the tile at one
Chebyshev distance from the start:

```
  2 2 2 2 2
  2 1 1 1 2
  2 1 x 1 2
  2 1 1 1 2
  2 2 2 2 2
```

The first shell with a match decides, and in it the match at the least Euclidean distance, which
has to be the only one at that distance.
-/

namespace AdaptiveMesh

namespace Cell

variable {D : Nat}

/-- Steps between two places on one axis. -/
def gap (a b : Nat) : Nat := a - b + (b - a)

/-- The square of the Euclidean distance. -/
def distanceSquared (a b : Cell D) : Except Fault Nat :=
  (List.finRange D).foldlM
    (fun sum d => do Word.add sum (← Word.pow (gap (a.get d) (b.get d)) 2)) 0

/-- The largest number of steps along an axis. -/
def chebyshev (a b : Cell D) : Nat :=
  (List.finRange D).foldl (fun most d => max most (gap (a.get d) (b.get d))) 0

end Cell

namespace TileLayout

variable {D : Nat}

/-- The cells of the tile at a given Chebyshev distance, which is not 0, from a cell. They are the
part at that distance of the boundary of the box that reaches so far, cut off at the tile. -/
def shell (t : TileLayout D) (start : Cell D) (distance : Nat) : Except Fault (List (Cell D)) := do
  let last ← t.lastCell
  let first := start.map (· - distance)
  let upper ← start.mapM fun x => do return min (← Word.add x distance) last
  let boundary ← t.ring first upper 0
  return boundary.filter fun c => c.chebyshev start = distance

/-- The nearest match so far: where it is, how far, and whether another match is as near. -/
structure Nearest (D : Nat) where
  cell : Cell D
  distance : Nat
  tied : Bool

/-- The nearest match after one more match. -/
def Nearest.update (nearest : Option (Nearest D)) (cell : Cell D) (distance : Nat) :
    Option (Nearest D) :=
  match nearest with
  | none => some ⟨cell, distance, false⟩
  | some n =>
    if distance = n.distance then some { n with tied := true }
    else if n.distance < distance then some n
    else some ⟨cell, distance, false⟩

variable {m : Type → Type} [Monad m]

/-- The nearest match among some cells, which are put to the test in order. -/
def nearestAmong (start : Cell D) (test : Cell D → m Bool) (cells : List (Cell D)) :
    ExceptT Fault m (Option (Nearest D)) :=
  cells.foldlM (fun nearest cell => do
    if ← test cell then
      return Nearest.update nearest cell (← start.distanceSquared cell)
    else
      return nearest) none

/-- Searches `shells` shells from `distance` on. -/
def closestFrom (t : TileLayout D) (start : Cell D) (test : Cell D → m Bool) :
    (shells distance : Nat) → ExceptT Fault m (Option (Cell D))
  | 0, _ => return none
  | shells + 1, distance => do
    let cells ← t.shell start distance
    match ← nearestAmong start test cells with
    | some nearest =>
      if nearest.tied then throw (.closestTied start.toList nearest.cell.toList)
      else return some nearest.cell
    | none => closestFrom t start test shells (distance + 1)

/-- The closest cell at a Chebyshev distance from 1 to `maxDistance` that passes a test. -/
def closest (t : TileLayout D) (start : Cell D) (test : Cell D → m Bool) (maxDistance : Nat) :
    ExceptT Fault m (Option (Cell D)) := do
  if !(← t.contains start) then throw (.searchStart start.toList)
  let last ← t.lastCell
  closestFrom t start test (min maxDistance last) 1

end TileLayout

end AdaptiveMesh
