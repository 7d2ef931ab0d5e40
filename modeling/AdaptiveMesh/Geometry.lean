import AdaptiveMesh.Child
import AdaptiveMesh.Scalar

/-!
# Points and boxes

Points have three components in every dimension; a `D`-dimensional box looks at the first `D` axes
and leaves the others alone. A box is a cube given by its centre and edge length, and its faces
belong to it.
-/

namespace AdaptiveMesh

/-- A point of space. -/
abbrev Point (S : Type) := Vector S 3

namespace Point

variable {D : Nat} {S : Type}

/-- The component along an axis of a `D`-dimensional box. -/
def along [Dimension D] (x : Point S) (d : Fin D) : S := x.get (d.castLE Dimension.le_three)

/-- The point with new components along the first `D` axes. -/
def mapAxes (D : Nat) (f : Fin D → S → S) (x : Point S) : Point S :=
  Vector.ofFn fun i => if h : i.val < D then f ⟨i, h⟩ (x.get i) else x.get i

end Point

/-- A cube of `D` dimensions. -/
structure Box (D : Nat) (S : Type) where
  centroid : Point S
  length : S

namespace Box

variable {D : Nat} {S : Type} [Scalar S]

/-- The box with a given centre and an edge length that is not negative. -/
def ofCentroid (centroid : Point S) (length : S) : Except Fault (Box D S) :=
  if Scalar.le (Scalar.ofNat 0) length then .ok ⟨centroid, length⟩ else .error .boxLength

/-- The box with a given lowest corner. -/
def ofLower (lower : Point S) (length : S) : Except Fault (Box D S) :=
  ofCentroid (lower.mapAxes D fun _ x => x + Scalar.half * length) length

/-- The corner with the smallest components. -/
def lower (b : Box D S) : Point S := b.centroid.mapAxes D fun _ x => x - Scalar.half * b.length

/-- The corner with the largest components. -/
def upper (b : Box D S) : Point S := b.centroid.mapAxes D fun _ x => x + Scalar.half * b.length

/-- Whether a point lies in the box. -/
def contains [Dimension D] (b : Box D S) (x : Point S) : Bool :=
  (List.finRange D).all fun d =>
    Scalar.le (b.lower.along d) (x.along d) && Scalar.le (x.along d) (b.upper.along d)

/-- Whether two boxes have a point in common. -/
def overlaps [Dimension D] (a b : Box D S) : Bool :=
  (List.finRange D).all fun d =>
    Scalar.le (a.lower.along d) (b.upper.along d) && Scalar.le (b.lower.along d) (a.upper.along d)

/-- Equality as numbers of centre and edge length. -/
def eq (a b : Box D S) : Bool :=
  (List.finRange 3).all (fun i => Scalar.eq (a.centroid.get i) (b.centroid.get i)) &&
    Scalar.eq a.length b.length

/-- The centre of a child: a quarter of the edge away from the parent's centre on each axis. -/
def childCentroid (p : ChildPosition D) (centroid : Point S) (length : S) : Point S :=
  let quarter := length / Scalar.ofNat 4
  centroid.mapAxes D fun d x => if p.isPositive d then x + quarter else x - quarter

/-- The box of a child. -/
def child (p : ChildPosition D) (parent : Box D S) : Except Fault (Box D S) :=
  ofCentroid (childCentroid p parent.centroid parent.length) (parent.length / Scalar.ofNat 2)

end Box

end AdaptiveMesh
