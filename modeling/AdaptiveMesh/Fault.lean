/-!
# Faults

The ways a request can break a rule that its caller has to keep: an argument outside its range, an
index outside its array, a number outside its word. `Fault.message` holds the wording of each.
-/

namespace AdaptiveMesh

/-- A broken precondition, with the values that show it. -/
inductive Fault where
  /-- A 64-bit result does not fit its word. -/
  | overflow
  /-- An array takes more bytes than a signed word counts. -/
  | capacity
  /-- An index is outside its array. -/
  | outOfBounds
  | childPosition (position dimension : Nat)
  | directionComponents (offset : List Int)
  | zeroDirection
  | noSuchAxis (axis dimension : Nat)
  /-- A path has one position for each level from 1 to the node's own. -/
  | pathLevel (level own : Nat)
  | deepestLevel (deepest : Nat)
  | rootHasNoParent
  | levelTooDeep (level deepest : Nat)
  | coordinate (value axis level : Nat)
  | ancestorBelowNode (level own : Nat)
  | shiftOffset (offset : Int) (axis : Nat)
  | uniformLevel (level deepest : Nat)
  | notLeaf (node : Nat)
  | writeNotCompact
  | writeNotSorted
  | boxLength
  | noInternalCells
  | noHaloLayers
  | cellOutsideTile (cell : List Nat) (cellsPerLength : Nat)
  | cellIndex (index size : Nat)
  | cellLeavesTile (cell : List Nat) (offset : List Int) (cellsPerLength : Nat)
  | ringOverlap (axis first last width : Nat)
  | invertedBounds (axis first last : Nat)
  | searchStart (start : List Nat)
  | closestTied (start cell : List Nat)
  | noVariables
  | centroidOutsideTile
  /-- Values of one cell are written over a cell with another number of variables. -/
  | valueCount (given expected : Nat)
  /-- However often a box is halved, it stays larger than the leaf cells under it. -/
  | unresolvedBox
deriving DecidableEq, Repr

/-- Items between square brackets, set apart by a comma and a blank. -/
def bracketed (items : List String) : String :=
  "[" ++ ", ".intercalate items ++ "]"

def bracketedNats (ns : List Nat) : String := bracketed (ns.map fun n => s!"{n}")

def bracketedInts (zs : List Int) : String := bracketed (zs.map fun z => s!"{z}")

namespace Fault

/-- The text of a fault. -/
def message : Fault → String
  | overflow => "arithmetic overflow"
  | capacity => "capacity overflow"
  | outOfBounds => "index out of bounds"
  | childPosition position dimension =>
    s!"child position {position} out of range for dimension {dimension}"
  | directionComponents offset =>
    "direction components must be in \x7b-1, 0, 1\x7d, got " ++ bracketedInts offset
  | zeroDirection => "direction offset must be nonzero"
  | noSuchAxis axis dimension => s!"axis {axis} out of range for dimension {dimension}"
  | pathLevel level own => s!"level {level} outside path 1..={own}"
  | deepestLevel deepest => s!"cannot descend below max level {deepest}"
  | rootHasNoParent => "the root has no parent"
  | levelTooDeep level deepest => s!"level {level} exceeds max level {deepest}"
  | coordinate value axis level =>
    s!"coordinate {value} along axis {axis} out of range for level {level}"
  | ancestorBelowNode level own => s!"ancestor level {level} is below node level {own}"
  | shiftOffset offset axis =>
    s!"shift offset must be unit per axis, got {offset} along axis {axis}"
  | uniformLevel level deepest =>
    s!"level {level} exceeds the maximum level {deepest} of the location type"
  | notLeaf node => s!"node #{node} is not a leaf"
  | writeNotCompact => "cannot write a tree that is not compact"
  | writeNotSorted => "cannot write a tree that is not depth-first sorted"
  | boxLength => "box length must be >= 0"
  | noInternalCells => "a tile needs at least one internal cell"
  | noHaloLayers => "a tile needs at least one halo layer"
  | cellOutsideTile cell cellsPerLength =>
    "cell " ++ bracketedNats cell ++ s!" outside the tile (cells per length {cellsPerLength})"
  | cellIndex index size => s!"cell index {index} out of range for a tile of {size} cells"
  | cellLeavesTile cell offset cellsPerLength =>
    "cell " ++ bracketedNats cell ++ " moved by " ++ bracketedInts offset ++
      s!" leaves the tile (cells per length {cellsPerLength})"
  | ringOverlap axis first last width =>
    s!"ring cells overlap along axis {axis}: from {first} to {last} width {width}"
  | invertedBounds axis first last =>
    s!"sub-tile bounds inverted along axis {axis}: {first} > {last}"
  | searchStart start => "search start " ++ bracketedNats start ++ " outside the tile"
  | closestTied start cell =>
    "multiple cells equally close to " ++ bracketedNats start ++
      " satisfy the predicate (one of them is " ++ bracketedNats cell ++ ")"
  | noVariables => "a state buffer needs at least one variable"
  | centroidOutsideTile => "assertion failed: self.layout.contains(coord)"
  | valueCount given expected =>
    s!"cannot write {given} values over a cell of {expected} variables"
  | unresolvedBox => "box larger than the leaf cells under it after every halving"

end Fault

end AdaptiveMesh
