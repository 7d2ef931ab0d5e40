import AdaptiveMesh.Axis
import AdaptiveMesh.Fault

/-!
# Directions and manifolds

A node has a neighbour in each direction: a nonzero offset of at most one step along every axis.
Directions fall into manifolds by the number of axes they move along, which says what the two
nodes share: a face, an edge or a corner.
-/

namespace AdaptiveMesh

/-- One signed number of steps for each axis. -/
abbrev Offset (D : Nat) := Vector Int D

namespace Offset

variable {D : Nat}

/-- Number of axes an offset moves along. -/
def rank (o : Offset D) : Nat := o.toList.countP (· ≠ 0)

/-- At most one step along every axis. -/
def IsUnit (o : Offset D) : Prop := ∀ d : Fin D, (o.get d).natAbs ≤ 1

instance (o : Offset D) : Decidable o.IsUnit :=
  inferInstanceAs (Decidable (∀ d : Fin D, (o.get d).natAbs ≤ 1))

/-- Every offset of at most one step along every axis, axis 0 running fastest. -/
def units (D : Nat) : List (Offset D) := tuples (Vector.replicate D [-1, 0, 1])

end Offset

/-- What two neighbouring nodes share. -/
inductive Manifold where
  | face
  | edge
  | corner
deriving DecidableEq, Repr

namespace Manifold

/-- Number of axes a direction of the manifold moves along. -/
def rank : Manifold → Nat
  | face => 1
  | edge => 2
  | corner => 3

def ofRank? : Nat → Option Manifold
  | 1 => some face
  | 2 => some edge
  | 3 => some corner
  | _ => none

/-- Every manifold, lowest rank first. -/
def all : List Manifold := [face, edge, corner]

/-- The manifolds of a `D`-dimensional node. -/
def ofDimension (D : Nat) : List Manifold := all.filter fun m => m.rank ≤ D

def name : Manifold → String
  | face => "Face"
  | edge => "Edge"
  | corner => "Corner"

end Manifold

/-- A nonzero offset of at most one step along every axis. -/
structure Direction (D : Nat) where
  offset : Offset D
  isUnit : offset.IsUnit
  moves : offset.rank ≠ 0
deriving DecidableEq

namespace Direction

variable {D : Nat}

/-- The direction with a given offset. -/
def ofOffset (o : Offset D) : Except Fault (Direction D) :=
  if hu : o.IsUnit then
    if hm : o.rank ≠ 0 then .ok ⟨o, hu, hm⟩ else .error .zeroDirection
  else .error (.directionComponents o.toList)

/-- The direction along one axis. -/
def alongAxis (D axis : Nat) (positive : Bool) : Except Fault (Direction D) :=
  if axis < D then
    ofOffset (Vector.ofFn fun d => if d.val = axis then if positive then 1 else -1 else 0)
  else .error (.noSuchAxis axis D)

/-- What a node shares with its neighbour in this direction. -/
def manifold (d : Direction D) : Manifold :=
  match d.offset.rank with
  | 1 => .face
  | 2 => .edge
  | _ => .corner

/-- The direction that points the other way. -/
def opposite (d : Direction D) : Direction D where
  offset := d.offset.map (- ·)
  isUnit := fun i => by
    have := d.isUnit i
    simp only [get_eq_getElem, Vector.getElem_map] at this ⊢
    omega
  moves := by
    have h : (d.offset.map (- ·)).toList.countP (· ≠ 0) = d.offset.toList.countP (· ≠ 0) := by
      rw [Vector.toList_map, List.countP_map]
      congr 1
      funext z
      simp
    simpa only [Offset.rank, h] using d.moves

end Direction

namespace Manifold

/-- The directions of a manifold, axis 0 running fastest over `-1`, `0` and `1`. -/
def directions (D : Nat) (m : Manifold) : List (Direction D) :=
  (Offset.units D).filterMap fun o =>
    if o.rank = m.rank then (Direction.ofOffset o).toOption else none

end Manifold

namespace Direction

variable {D : Nat}

/-- Every direction, manifolds of lower rank first. -/
def all (D : Nat) : List (Direction D) :=
  (Manifold.ofDimension D).flatMap fun m => m.directions D

/-- Place of a direction in its manifold's list. -/
def index (d : Direction D) : Nat := (d.manifold.directions D).idxOf d

end Direction

end AdaptiveMesh
