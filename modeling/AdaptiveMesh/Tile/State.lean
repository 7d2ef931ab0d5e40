import AdaptiveMesh.Scalar
import AdaptiveMesh.Word

/-!
# State buffers

The values of a run of cells, with the same number of variables for each cell, stored cell after
cell.
-/

namespace AdaptiveMesh

structure StateBuffer (S : Type) where
  variableCount : Nat
  data : Array S
  variableCount_pos : 0 < variableCount

namespace StateBuffer

variable {S : Type}

/-- Bytes of a value. -/
def valueBytes : Nat := 8

/-- A buffer of zeros. -/
def make [Scalar S] (cells variableCount : Nat) : Except Fault (StateBuffer S) :=
  if h : 0 < variableCount then do
    let size ← Word.arraySize (← Word.mul cells variableCount) valueBytes
    return ⟨variableCount, Array.replicate size (Scalar.ofNat 0), h⟩
  else .error .noVariables

/-- Number of cells. -/
def cells (b : StateBuffer S) : Nat := b.data.size / b.variableCount

/-- Where the values of a cell start, if they all lie in the buffer. -/
def start (b : StateBuffer S) (cell : Nat) : Except Fault Nat := do
  let start ← Word.mul cell b.variableCount
  let stop ← Word.add start b.variableCount
  if b.data.size < stop then throw .outOfBounds
  return start

/-- The values of a cell. -/
def get (b : StateBuffer S) (cell : Nat) : Except Fault (Array S) := do
  let start ← b.start cell
  return b.data.extract start (start + b.variableCount)

/-- The buffer with other values for a cell. -/
def set (b : StateBuffer S) (cell : Nat) (values : Array S) : Except Fault (StateBuffer S) := do
  let start ← b.start cell
  if values.size ≠ b.variableCount then throw (.valueCount values.size b.variableCount)
  return { b with
    data := values.zipIdx.foldl (fun data (x, i) => data.setIfInBounds (start + i) x) b.data }

/-- The buffer with another value for one variable of a cell. -/
def setValue (b : StateBuffer S) (cell v : Nat) (x : S) : Except Fault (StateBuffer S) := do
  let start ← b.start cell
  if b.variableCount ≤ v then throw .outOfBounds
  return { b with data := b.data.setIfInBounds (start + v) x }

/-- The buffer with one value for every variable of every cell. -/
def fill (b : StateBuffer S) (x : S) : StateBuffer S := { b with data := b.data.map fun _ => x }

end StateBuffer

end AdaptiveMesh
