import AdaptiveMesh.Bits

/-!
# Shortest decimals

A double stands for every real that rounds to it. Its text is the decimal with the fewest digits
among those reals, the one nearest to the double where several are as short, and the larger one
where two are as near. Everything is found in exact arithmetic on the significand and the exponent
of the double, and written positionally however large or small it is.
-/

namespace AdaptiveMesh

namespace Decimal

/-- The positive number `significand * 2 ^ exponent`. -/
structure Binary where
  significand : Nat
  exponent : Int
  /-- The next smaller double is half as far away as the next larger one. -/
  closeBelow : Bool

/-- Bits of a double behind the binary point of its significand. -/
def fractionBits : Nat := 52

/-- Bits of a double below its sign. -/
def magnitudeBits : Nat := 63

/-- The magnitude of a finite double that is not zero, from the bits below its sign. -/
def Binary.ofMagnitudeBits (bits : Nat) : Binary :=
  let fraction := bits % 2 ^ fractionBits
  let exponent : Nat := bits / 2 ^ fractionBits
  if exponent = 0 then ⟨fraction, -1074, false⟩
  else ⟨2 ^ fractionBits + fraction, (exponent : Int) - 1075, fraction = 0 ∧ 1 < exponent⟩

/-- The number `digits * 10 ^ exponent`. -/
structure Digits where
  digits : Nat
  exponent : Int
deriving DecidableEq, Repr

/-- Four times a double, and four times the ends of the interval of reals that round to it, over a
common denominator. The ends round to the double themselves if its significand is even. -/
structure Rounding where
  below : Nat
  value : Nat
  above : Nat
  denominator : Nat
  closed : Bool

def Rounding.ofBinary (b : Binary) : Rounding :=
  let unit := 2 ^ b.exponent.toNat
  { below := (4 * b.significand - if b.closeBelow then 1 else 2) * unit
    value := 4 * b.significand * unit
    above := (4 * b.significand + 2) * unit
    denominator := 4 * 2 ^ (-b.exponent).toNat
    closed := b.significand % 2 = 0 }

namespace Rounding

/-- Whether a fraction rounds to the double. -/
def contains (r : Rounding) (numerator denominator : Nat) : Bool :=
  let x := numerator * r.denominator
  let low := r.below * denominator
  let high := r.above * denominator
  if r.closed then low ≤ x ∧ x ≤ high else low < x ∧ x < high

/-- No double but zero is below this power of one tenth. -/
def deepestPlace : Nat := 330

/-- The exponent of the smallest power of ten above the double. -/
def magnitude (r : Rounding) : Int :=
  (Nat.toDigits 10 (r.value * 10 ^ deepestPlace / r.denominator)).length - (deepestPlace : Int)

/-- The decimal on the grid of `10 ^ exponent` that rounds to the double and is nearest to it. -/
def onGrid? (r : Rounding) (exponent : Int) : Option Digits :=
  let up := 10 ^ exponent.toNat
  let down := 10 ^ (-exponent).toNat
  let lower := r.value * down / (r.denominator * up)
  let hits := [lower, lower + 1].filter fun n => r.contains (n * up) down
  match hits with
  | [n, m] =>
    if 2 * r.value * down < (n + m) * up * r.denominator then some ⟨n, exponent⟩
    else some ⟨m, exponent⟩
  | [n] => some ⟨n, exponent⟩
  | _ => none

/-- The shortest decimal. Seventeen digits tell all doubles apart, so one of the grids has it. -/
def shortest (r : Rounding) : Digits :=
  let magnitude := r.magnitude
  ((List.range 17).findSome? fun n : Nat => r.onGrid? (magnitude - (n + 1))).getD ⟨0, 0⟩

end Rounding

/-- Digits, with the zeros or the point that the exponent asks for. -/
def Digits.positional (d : Digits) : String :=
  let digits := Nat.toDigits 10 d.digits
  if 0 ≤ d.exponent then String.ofList (digits ++ List.replicate d.exponent.toNat '0')
  else
    let places := (-d.exponent).toNat
    let padded := List.replicate (places + 1 - digits.length) '0' ++ digits
    let whole := padded.take (padded.length - places)
    let fraction := padded.drop (padded.length - places)
    let kept := (fraction.reverse.dropWhile (· = '0')).reverse
    String.ofList (if kept.isEmpty then whole else whole ++ '.' :: kept)

/-- The text of a double. -/
def render (x : Float) : String :=
  let bits := x.toBits.toNat
  let sign := if bits < 2 ^ magnitudeBits then "" else "-"
  let low := bits % 2 ^ magnitudeBits
  if x.isNaN then "NaN"
  else if x.isInf then sign ++ "inf"
  else if low = 0 then sign ++ "0"
  else sign ++ (Rounding.ofBinary (Binary.ofMagnitudeBits low)).shortest.positional

end Decimal

end AdaptiveMesh
