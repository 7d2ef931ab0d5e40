import AdaptiveMesh.Bytes

/-!
# Errors of stored trees

What can be wrong with a tree that comes from outside: its bytes, its numbers or the order and
completeness of its nodes.
-/

namespace AdaptiveMesh

/-- The first fault of a stored tree. Positions count nodes from 0. -/
inductive TreeError where
  | empty
  | unsupportedVersion (version : Nat)
  | dimensionMismatch (expected found : Nat)
  | levelOutOfRange (position level deepest : Nat)
  | coordinateCount (expected found : Nat)
  | invalidLocation (position : Nat)
  | notSorted (position : Nat)
  | notCompact (position : Nat)
  | missingParent (position : Nat)
  | codec (error : CodecError)
deriving DecidableEq, Repr

namespace TreeError

def message : TreeError → String
  | empty => "tree contains no nodes"
  | unsupportedVersion version => s!"unsupported tree format version {version}"
  | dimensionMismatch expected found =>
    s!"dimension mismatch: expected {expected}, found {found}"
  | levelOutOfRange position level deepest =>
    s!"node {position}: level {level} exceeds the maximum level {deepest}"
  | coordinateCount expected found => s!"expected {expected} coordinates, found {found}"
  | invalidLocation position => s!"node {position}: coordinates outside the domain at its level"
  | notSorted position => s!"tree is not depth-first sorted at node {position}"
  | notCompact position => s!"tree is not compact: node {position} is a duplicate"
  | missingParent position => s!"node {position} has no parent in the tree"
  | codec error => "malformed tree stream: " ++ error.message

end TreeError

end AdaptiveMesh
