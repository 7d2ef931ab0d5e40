import AdaptiveMesh.Bytes
import AdaptiveMesh.Config.Basic
import AdaptiveMesh.Decimal.Shortest

/-!
# Configurations in double precision

The texts of configuration errors, and a configuration as a record of bytes: the origin and the
root length by the bits of their doubles, then the three counts, eight bytes each.
-/

namespace AdaptiveMesh

namespace ConfigError

def message : ConfigError Float → String
  | internalCells found => s!"internal cells per axis must be a positive even number, got {found}"
  | haloLayers found internal => s!"halo layers must be in 1..={internal}, got {found}"
  | noVariables => "at least one state variable per cell is required"
  | rootLength found => "root length must be finite and positive, got " ++ Decimal.render found

end ConfigError

/-- What is stored of a configuration. The record keeps bits, so that a number that is not a
number comes back with the bits it had. -/
structure ConfigRecord where
  origin : Vector UInt64 3
  rootLength : UInt64
  internalCells : Nat
  haloLayers : Nat
  variableCount : Nat
deriving DecidableEq

namespace ConfigRecord

def toBytes (r : ConfigRecord) : Bytes :=
  (r.origin.toList ++ [r.rootLength]).flatMap (fun bits => Bytes.ofNat 8 bits.toNat) ++
    [r.internalCells, r.haloLayers, r.variableCount].flatMap (Bytes.ofNat 8)

/-- The bits of a double. -/
def decodeBits : Decoder UInt64 := do return UInt64.ofNat (← Decoder.nat 8)

def decode : Decoder ConfigRecord := do
  let x ← decodeBits
  let y ← decodeBits
  let z ← decodeBits
  let rootLength ← decodeBits
  let internalCells ← Decoder.nat 8
  let haloLayers ← Decoder.nat 8
  let variableCount ← Decoder.nat 8
  return { origin := #v[x, y, z], rootLength, internalCells, haloLayers, variableCount }

/-- The configuration that a record holds. -/
def config (r : ConfigRecord) : MeshConfig Float where
  origin := r.origin.map Float.ofBits
  rootLength := Float.ofBits r.rootLength
  internalCells := r.internalCells
  haloLayers := r.haloLayers
  variableCount := r.variableCount

/-- The record of a configuration. -/
def ofConfig (c : MeshConfig Float) : ConfigRecord where
  origin := c.origin.map Float.toBits
  rootLength := c.rootLength.toBits
  internalCells := c.internalCells
  haloLayers := c.haloLayers
  variableCount := c.variableCount

end ConfigRecord

end AdaptiveMesh
