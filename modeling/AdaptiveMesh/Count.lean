import AdaptiveMesh.Word

/-!
# Counting nodes and faces

Closed forms for the numbers of children, faces and nodes of a refinement tree, in checked words.
-/

namespace AdaptiveMesh

namespace Count

/-- Children of a node. -/
def children (dim : Nat) : Except Fault Nat := Word.twoPow dim

/-- Nodes that share a node's parent, the node included. -/
def siblings (dim : Nat) : Except Fault Nat := children dim

/-- Children of a node that touch one of its faces of dimension `face`. -/
def sharingFace (dim face : Nat) : Except Fault Nat :=
  if face ≤ dim then Word.twoPow face else .ok 0

/-- Nodes at `level` that touch one face of dimension `face` of the root. No node touches a face
that does not exist, not even at level 0. -/
def sharingFaceAtLevel (dim face level : Nat) : Except Fault Nat := do
  let base ← sharingFace dim face
  if base = 0 ∧ level = 0 then return 0 else Word.pow base level

/-- Multiplies `result` by `(n - i) / (i + 1)` for `steps` successive values of `i`. -/
def binomialSteps (n : Nat) : (steps i result : Nat) → Except Fault Nat
  | 0, _, result => .ok result
  | steps + 1, i, result => do
    let product ← Word.mul result (n - i)
    binomialSteps n steps (i + 1) (product / (i + 1))

/-- Ways to choose `k` of `n` things, by the shorter of the two products. -/
def binomial (n k : Nat) : Except Fault Nat :=
  if n < k then .ok 0 else binomialSteps n (min k (n - k)) 0 1

/-- Faces of dimension `face` of a node. -/
def faces (dim face : Nat) : Except Fault Nat :=
  if face ≤ dim then do
    let sides ← Word.twoPow (dim - face)
    Word.mul sides (← binomial dim face)
  else .ok 0

/-- Nodes at `level` of a tree refined everywhere down to it. -/
def nodesAtLevel (dim level : Nat) : Except Fault Nat := do
  Word.pow (← children dim) level

/-- Adds to `total` the nodes of `levels` successive levels from `level` on. -/
def addLevels (dim : Nat) : (levels level total : Nat) → Except Fault Nat
  | 0, _, total => .ok total
  | levels + 1, level, total => do
    let here ← nodesAtLevel dim level
    addLevels dim levels (level + 1) (← Word.add total here)

/-- Nodes of a tree refined everywhere down to `level`. -/
def nodesUpToLevel (dim level : Nat) : Except Fault Nat := addLevels dim (level + 1) 0 0

end Count

end AdaptiveMesh
