import AdaptiveMesh.Axis
import AdaptiveMesh.Bits
import AdaptiveMesh.Fault

/-!
# Child positions

A node of a `D`-dimensional tree has `2 ^ D` children. A child's position is the number whose bit
`d` tells on which side of the parent's centre the child lies along axis `d`.
-/

namespace AdaptiveMesh

/-- Position of a child within its parent. -/
abbrev ChildPosition (D : Nat) := Fin (2 ^ D)

namespace ChildPosition

variable {D : Nat}

/-- The child position with a given number. -/
def ofNat (D position : Nat) : Except Fault (ChildPosition D) :=
  if h : position < 2 ^ D then .ok ⟨position, h⟩ else .error (.childPosition position D)

/-- The child on the positive side of exactly the axes at which `f` holds. -/
def ofSides (f : Fin D → Bool) : ChildPosition D :=
  ⟨ofBits (fun i => if h : i < D then f ⟨i, h⟩ else false) D, ofBits_lt _ D⟩

/-- Every child position, in ascending order. -/
def all (D : Nat) : List (ChildPosition D) := List.finRange (2 ^ D)

/-- Whether the child lies on the positive side of an axis. -/
def isPositive (p : ChildPosition D) (axis : Nat) : Bool := p.val.testBit axis

theorem isPositive_ofSides (f : Fin D → Bool) (d : Fin D) : (ofSides f).isPositive d = f d := by
  simp [isPositive, ofSides, testBit_ofBits]

theorem ofSides_eq_iff {f g : Fin D → Bool} : ofSides f = ofSides g ↔ ∀ d, f d = g d := by
  constructor
  · intro h d
    rw [← isPositive_ofSides f, h, isPositive_ofSides]
  · intro h
    rw [funext h]

/-- The side of the parent's centre along an axis, as a sign. -/
def side (p : ChildPosition D) (axis : Nat) : Int := if p.isPositive axis then 1 else -1

/-- The side along every axis. -/
def relative (p : ChildPosition D) : Vector Int D := Vector.ofFn fun d => p.side d

end ChildPosition

end AdaptiveMesh
