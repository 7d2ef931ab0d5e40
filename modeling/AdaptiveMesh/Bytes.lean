/-!
# Records of bytes

Numbers are written with a fixed width, least significant byte first, and a list of numbers behind
its length as a number of eight bytes. A decoder takes bytes from the front and leaves the rest;
running out of bytes is its only failure.
-/

namespace AdaptiveMesh

/-- A record of bytes that cannot be read or written. -/
inductive CodecError where
  | endOfStream
  | fullBuffer
  /-- An enumeration of `count` variants has none with this number. -/
  | unknownVariant (found count : Nat)
deriving DecidableEq, Repr

namespace CodecError

def message : CodecError → String
  | endOfStream => "io error: failed to fill whole buffer"
  | fullBuffer => "io error: failed to write whole buffer"
  | unknownVariant found count =>
    s!"invalid value: integer \x60{found}\x60, expected variant index 0 <= i < {count}"

end CodecError

/-- Bytes of a record. -/
abbrev Bytes := List UInt8

namespace Bytes

/-- The low `width` bytes of a number, least significant first. -/
def ofNat : (width : Nat) → Nat → Bytes
  | 0, _ => []
  | width + 1, n => UInt8.ofNat n :: ofNat width (n / 256)

/-- Numbers of `width` bytes each behind their count. -/
def ofNats (width : Nat) (ns : List Nat) : Bytes :=
  ofNat 8 ns.length ++ ns.flatMap (ofNat width)

/-- A buffer of `capacity` bytes that holds the given ones and zeros behind them. -/
def fill (capacity : Nat) (bytes : Bytes) : Except CodecError Bytes :=
  if bytes.length ≤ capacity then .ok (bytes ++ List.replicate (capacity - bytes.length) 0)
  else .error .fullBuffer

end Bytes

/-- Takes a value from the front of some bytes. -/
abbrev Decoder := StateT Bytes (Except CodecError)

namespace Decoder

def byte : Decoder UInt8
  | [] => .error .endOfStream
  | b :: rest => .ok (b, rest)

/-- A number of `width` bytes. -/
def nat : (width : Nat) → Decoder Nat
  | 0 => return 0
  | width + 1 => do
    let low ← byte
    let high ← nat width
    return low.toNat + 256 * high

/-- A given count of numbers of `width` bytes. -/
def natsOfCount (width : Nat) : (count : Nat) → Decoder (List Nat)
  | 0 => return []
  | count + 1 => do
    let first ← nat width
    let others ← natsOfCount width count
    return first :: others

/-- Numbers of `width` bytes behind their count. -/
def nats (width : Nat) : Decoder (List Nat) := do
  natsOfCount width (← nat 8)

end Decoder

end AdaptiveMesh
