import AdaptiveMesh.Bytes
import AdaptiveMesh.Scalar

/-!
# Slope limiters

The slope across a cell from the differences to its lower and upper neighbours.
-/

namespace AdaptiveMesh

inductive Limiter where
  /-- The mean of the two differences. -/
  | unlimited
  /-- The difference nearer to zero if both have the same sign, else zero. -/
  | minmod
deriving DecidableEq, Repr

namespace Limiter

/-- The limiter to take where none is chosen. -/
def standard : Limiter := minmod

/-- The slope for two differences, per cell. -/
def slope {S : Type} [Scalar S] (limiter : Limiter) (left right : S) : S :=
  match limiter with
  | unlimited => Scalar.half * (left + right)
  | minmod =>
    if Scalar.lt (Scalar.ofNat 0) (left * right) then
      if Scalar.lt (Scalar.ofNat 0) left then Scalar.min left right else Scalar.max left right
    else Scalar.ofNat 0

def name : Limiter → String
  | unlimited => "Unlimited"
  | minmod => "Minmod"

/-- Number of a limiter in a record of bytes. -/
def number : Limiter → Nat
  | unlimited => 0
  | minmod => 1

def toBytes (limiter : Limiter) : Bytes := Bytes.ofNat 4 limiter.number

def decode : Decoder Limiter := do
  match ← Decoder.nat 4 with
  | 0 => return unlimited
  | 1 => return minmod
  | n => throw (.unknownVariant n 2)

end Limiter

end AdaptiveMesh
