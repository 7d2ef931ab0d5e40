/-!
# Scalars

The arithmetic that geometry and cell values need. Everything that computes with positions or
values is written over this interface, in a fixed order of operations, so one definition runs in
double precision and can be reasoned about over the rationals.
-/

namespace AdaptiveMesh

/-- Numbers for positions and cell values. -/
class Scalar (S : Type) extends Add S, Sub S, Mul S, Div S where
  ofNat : Nat → S
  lt : S → S → Bool
  le : S → S → Bool
  /-- Equality as numbers. -/
  eq : S → S → Bool
  /-- The largest natural not above a number, for numbers that are not negative. -/
  floor : S → Nat
  isFinite : S → Bool
  /-- How many times more than in exact arithmetic a length may have to be halved until it is below
  another, since halves round. -/
  extraHalvings : Nat

namespace Scalar

variable {S : Type} [Scalar S]

/-- One half. -/
def half : S := ofNat 1 / ofNat 2

/-- One quarter. -/
def quarter : S := ofNat 1 / ofNat 4

/-- Three quarters. -/
def threeQuarters : S := ofNat 3 / ofNat 4

/-- The smaller of two numbers. -/
def min (a b : S) : S := if le a b then a else b

/-- The larger of two numbers. -/
def max (a b : S) : S := if le a b then b else a

end Scalar

/-- Double precision, where a natural becomes the nearest double. The largest double is less than
`2 ^ 1024` and the smallest above zero is `2 ^ (-1074)`, so 2100 halvings bring any length to
zero. -/
instance : Scalar Float where
  ofNat n := if n < UInt64.size then n.toUInt64.toFloat else Float.ofScientific n false 0
  lt a b := decide (a < b)
  le a b := decide (a ≤ b)
  eq a b := a == b
  floor x := x.floor.toUInt64.toNat
  isFinite := Float.isFinite
  extraHalvings := 2100

/-- Exact arithmetic. -/
instance : Scalar Rat where
  ofNat n := n
  lt a b := decide (a < b)
  le a b := decide (a ≤ b)
  eq a b := decide (a = b)
  floor x := x.floor.toNat
  isFinite _ := true
  extraHalvings := 0

end AdaptiveMesh
