import AdaptiveMesh.Child
import AdaptiveMesh.Direction
import AdaptiveMesh.Word

/-!
# Locations

A location names a node of the infinitely refined tree by the child positions taken from the root
down to it. `LocationCode` is what a stored form of locations has to offer; the questions asked of
a location, its moves along the tree and its shifts across it are defined here from that interface
alone, once for every stored form.

Locations are ordered as a depth-first walk visits them: an ancestor before its descendants, and
siblings by child position.
-/

namespace AdaptiveMesh

/-- A stored form of locations in `D` dimensions, with its depth-first order. -/
class LocationCode (D : outParam Nat) (L : Type) extends Ord L where
  /-- Deepest level that can be stored. -/
  maxLevel : Nat
  root : L
  /-- Distance from the root. -/
  level : L → Nat
  /-- Child position taken on the way down from the level above the given one. -/
  childPosition : L → Nat → ChildPosition D
  push (x : L) (p : ChildPosition D) (h : level x < maxLevel) : L
  /-- The position within the parent, and the parent. -/
  pop (x : L) (h : 0 < level x) : ChildPosition D × L
  /-- Place along each axis, counted in nodes of the location's own level. -/
  coordinates : L → Vector Nat D
  ofCoordinates (place : Vector Nat D) (l : Nat) (hl : l ≤ maxLevel)
    (hp : ∀ d : Fin D, place.get d < 2 ^ l) : L
  /-- Whether the stored bits stand for a location. -/
  isValid : L → Bool
  decEq : DecidableEq L
  /-- Bytes of a location in an array. -/
  byteSize : Nat
  name : String

/-- The child position whose sides are bit `shift` of the coordinates. -/
def ChildPosition.ofCoordinates {D : Nat} (place : Vector Nat D) (shift : Nat) : ChildPosition D :=
  ChildPosition.ofSides fun d => (place.get d).testBit shift

/-- The depth-first order of two paths, each given by its length and its position at each level:
the first level that differs decides, and a path goes before its extensions. -/
def comparePaths {D : Nat} (la lb : Nat) (a b : Nat → ChildPosition D) : Ordering :=
  (List.range (min la lb)).foldr
    (fun l rest => (compare (a (l + 1)).val (b (l + 1)).val).then rest) (compare la lb)

theorem foldr_then_of_eq {order : Nat → Ordering} {last : Ordering} {n : Nat}
    (h : ∀ l < n, order l = .eq) :
    (List.range n).foldr (fun l rest => (order l).then rest) last = last := by
  induction n with
  | zero => rfl
  | succ n ih =>
    rw [List.range_succ, List.foldr_append, List.foldr_cons, List.foldr_nil, h n (by omega)]
    exact ih fun l hl => h l (by omega)

theorem foldr_then_of_ne {order : Nat → Ordering} {last : Ordering} {n k : Nat} (hk : k < n)
    (h : ∀ l < k, order l = .eq) (hne : order k ≠ .eq) :
    (List.range n).foldr (fun l rest => (order l).then rest) last = order k := by
  induction n generalizing last with
  | zero => omega
  | succ n ih =>
    rw [List.range_succ, List.foldr_append, List.foldr_cons, List.foldr_nil]
    rcases Nat.lt_or_ge k n with hkn | hkn
    · exact ih hkn
    · obtain rfl : k = n := by omega
      rw [foldr_then_of_eq h]
      cases ho : order k <;> simp_all

theorem comparePaths_of_eq {D la lb : Nat} {a b : Nat → ChildPosition D}
    (h : ∀ l < min la lb, a (l + 1) = b (l + 1)) : comparePaths la lb a b = compare la lb :=
  foldr_then_of_eq fun l hl => by rw [h l hl, Nat.compare_eq_eq]

theorem comparePaths_of_ne {D la lb k : Nat} {a b : Nat → ChildPosition D} (hk : k < min la lb)
    (h : ∀ l < k, a (l + 1) = b (l + 1)) (hne : a (k + 1) ≠ b (k + 1)) :
    comparePaths la lb a b = compare (a (k + 1)).val (b (k + 1)).val :=
  foldr_then_of_ne hk (fun l hl => by rw [h l hl, Nat.compare_eq_eq]) fun he =>
    hne (Fin.ext (Nat.compare_eq_eq.mp he))

namespace LocationCode

variable {D : Nat} {L : Type} [LocationCode D L]

instance : DecidableEq L := decEq

/-- The depth-first order, found through the path alone. -/
def depthFirstCompare (a b : L) : Ordering :=
  comparePaths (level a) (level b) (childPosition a) (childPosition b)

def isRoot (x : L) : Bool := level x == 0

/-- A child, unless the location is as deep as can be stored. -/
def child? (x : L) (p : ChildPosition D) : Option L :=
  if h : level x < maxLevel L then some (push x p h) else none

/-- The parent, unless the location is the root. -/
def parent? (x : L) : Option L :=
  if h : 0 < level x then some (pop x h).2 else none

/-- Child positions from the root down. -/
def path (x : L) : List (ChildPosition D) :=
  (List.range (level x)).map fun l => childPosition x (l + 1)

/-- The ancestor `n` levels up, or the root where there are fewer levels above. -/
def up : Nat → L → L
  | 0, x => x
  | n + 1, x => match parent? x with
    | some parent => up n parent
    | none => x

/-- The nearest `n` proper ancestors, nearest first. -/
def ancestorsWithin : Nat → L → List L
  | 0, _ => []
  | n + 1, x => match parent? x with
    | some parent => parent :: ancestorsWithin n parent
    | none => []

/-- Every proper ancestor, nearest first. -/
def ancestors (x : L) : List L := ancestorsWithin (level x) x

/-- Whether `a` is a proper ancestor of `b`. -/
def isAncestorOf (a b : L) : Bool :=
  level a < level b && up (level b - level a) b = a

/-! ## Requests that can be refused -/

/-- Child position taken on the way down to a level of the path. -/
def positionAt (x : L) (l : Nat) : Except Fault (ChildPosition D) :=
  if 1 ≤ l ∧ l ≤ level x then .ok (childPosition x l) else .error (.pathLevel l (level x))

def descend (x : L) (p : ChildPosition D) : Except Fault L :=
  if h : level x < maxLevel L then .ok (push x p h) else .error (.deepestLevel (maxLevel L))

def ascend (x : L) : Except Fault (ChildPosition D × L) :=
  if h : 0 < level x then .ok (pop x h) else .error .rootHasNoParent

/-- The location reached from the root along a path. -/
def ofPath (path : List (ChildPosition D)) : Except Fault L := path.foldlM descend root

/-- The location at a level with given coordinates. -/
def locate (place : Vector Nat D) (l : Nat) : Except Fault L :=
  if hl : l ≤ maxLevel L then
    if hp : ∀ d : Fin D, place.get d < 2 ^ l then .ok (ofCoordinates place l hl hp)
    else match (List.finRange D).find? fun d => 2 ^ l ≤ place.get d with
      | some d => .error (.coordinate (place.get d) d l)
      | none => .error .outOfBounds
  else .error (.levelTooDeep l (maxLevel L))

/-- The ancestor at a level no deeper than the location's own. -/
def ancestor (x : L) (l : Nat) : Except Fault L :=
  if l ≤ level x then .ok (up (level x - l) x) else .error (.ancestorBelowNode l (level x))

/-- The location of the same level one step away, unless it is outside the root. -/
def shift (x : L) (o : Offset D) : Except Fault (Option L) := do
  match (List.finRange D).find? fun d => 1 < (o.get d).natAbs with
  | some d => throw (.shiftOffset (o.get d) d)
  | none =>
    let extent ← Word.twoPow (level x)
    let place := coordinates x
    let moved : Vector Int D := Vector.ofFn fun d => (place.get d : Int) + o.get d
    if ∀ d : Fin D, 0 ≤ moved.get d ∧ moved.get d < extent then
      return some (← locate (moved.map Int.toNat) (level x))
    else
      return none

/-- The same node in another stored form. -/
def convert (M : Type) [LocationCode D M] (x : L) : Except Fault M :=
  locate (coordinates x) (level x)

/-- The level and the coordinates, under the name of the stored form. -/
def describe (x : L) : String :=
  name L ++ " \x7b level: " ++ s!"{level x}" ++ ", coordinates: " ++
    bracketedNats (coordinates x).toList ++ " \x7d"

end LocationCode

end AdaptiveMesh
