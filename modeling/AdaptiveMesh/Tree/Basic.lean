import AdaptiveMesh.Location.Basic

/-!
# Trees

A tree is the array of the locations of its nodes, internal nodes and leaves alike, in depth-first
order. A node is an index into the array. The descendants of a node are the run of entries right
behind it, so a node is a leaf exactly if the next entry is no descendant, and a location is found
by binary search.
-/

namespace AdaptiveMesh

open LocationCode

/-- The locations of the nodes of a tree, in depth-first order. -/
structure Tree (L : Type) where
  locations : Array L
deriving DecidableEq

namespace Tree

variable {D : Nat} {L : Type} [LocationCode D L]

/-- Number of nodes. -/
abbrev size (t : Tree L) : Nat := t.locations.size

/-- A node of a tree. -/
abbrev Node (t : Tree L) := Fin t.size

/-- The node with a given index. -/
def node (t : Tree L) (n : Nat) : Except Fault t.Node :=
  if h : n < t.size then .ok ⟨n, h⟩ else .error .outOfBounds

/-- Every node, in depth-first order. -/
def nodes (t : Tree L) : List t.Node := List.finRange t.size

def location (t : Tree L) (n : t.Node) : L := t.locations[n]

def level (t : Tree L) (n : t.Node) : Nat := LocationCode.level (t.location n)

/-! ## Finding nodes -/

theorem middle_lt {lo hi : Nat} (h : lo < hi) : (lo + hi) / 2 < hi := by omega

/-- Place of `x` among the entries from `lo` up to `hi`, which are in order. -/
def searchBetween (a : Array L) (x : L) (lo hi : Nat) (h : hi ≤ a.size) : Option (Fin a.size) :=
  if hlt : lo < hi then
    let mid := (lo + hi) / 2
    have hmid : mid < a.size := Nat.lt_of_lt_of_le (middle_lt hlt) h
    match compare a[mid] x with
    | .eq => some ⟨mid, hmid⟩
    | .lt => searchBetween a x (mid + 1) hi h
    | .gt => searchBetween a x lo mid (Nat.le_of_lt hmid)
  else none
termination_by hi - lo

/-- The node at a location, if the tree has one. -/
def nodeAt? (t : Tree L) (x : L) : Option t.Node :=
  searchBetween t.locations x 0 t.size (Nat.le_refl _)

def contains (t : Tree L) (x : L) : Bool := (t.nodeAt? x).isSome

/-! ## Families -/

/-- Whether a node has no descendants: the next entry, if there is one, is none. -/
def isLeaf (t : Tree L) (n : t.Node) : Bool :=
  match t.locations[n.val + 1]? with
  | some next => !isAncestorOf (t.location n) next
  | none => true

/-- Every leaf, in depth-first order. -/
def leaves (t : Tree L) : List t.Node := t.nodes.filter t.isLeaf

def parent? (t : Tree L) (n : t.Node) : Option t.Node :=
  (LocationCode.parent? (t.location n)).bind t.nodeAt?

/-- The children of a node that the tree holds, by child position. -/
def children (t : Tree L) (n : t.Node) : List t.Node :=
  if t.isLeaf n then []
  else (ChildPosition.all D).filterMap fun p => (child? (t.location n) p).bind t.nodeAt?

/-- Deepest level of a node. -/
def maxLevel (t : Tree L) : Nat :=
  t.locations.toList.foldl (fun deepest x => max deepest (LocationCode.level x)) 0

/-! ## The order of the array -/

/-- No location is listed twice: once put in order, no two neighbours are equal. -/
def isCompact (t : Tree L) : Bool :=
  let sorted := t.locations.toList.mergeSort fun x y => (compare x y).isLE
  (sorted.zip sorted.tail).all fun (x, y) => x ≠ y

/-- No entry goes before the one in front of it. -/
def isSorted (t : Tree L) : Bool :=
  (t.locations.toList.zip t.locations.toList.tail).all fun (x, y) => (compare x y).isLE

end Tree

end AdaptiveMesh
