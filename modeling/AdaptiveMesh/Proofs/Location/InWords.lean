import AdaptiveMesh.Proofs.Except
import AdaptiveMesh.Proofs.Location.Grid
import AdaptiveMesh.Proofs.Location.Morton
import AdaptiveMesh.Proofs.Word

/-!
# Locations in words

Comparing locations and going down to one with every difference, product and shift of words
checked: codes are compared by cutting the longer one or by walking both paths, and a location is
reached from the root by the bits of its coordinates. No check fails, so nothing is lost where
`compare`, `depthFirstCompare` and `locate` do without.
-/

namespace AdaptiveMesh

open LocationCode

variable {D : Nat}

/-! ## Positions -/

/-- The child position whose sides are bit `shift` of coordinates of `bits` bits. -/
def ChildPosition.ofCoordinatesInWords (bits : Nat) (place : Vector Nat D) (shift : Nat) :
    Except Fault (ChildPosition D) := do
  let fronts ← place.toList.mapM fun c => Word.shiftDown bits c shift
  return ChildPosition.ofSides fun d => (fronts.getD d 0).testBit 0

theorem ChildPosition.ofCoordinatesInWords_eq {bits shift : Nat} (place : Vector Nat D)
    (h : shift < bits) :
    ofCoordinatesInWords bits place shift = .ok (ofCoordinates place shift) := by
  have hfronts : (place.toList.mapM fun c => Word.shiftDown bits c shift) =
      .ok (place.toList.map fun c => c / 2 ^ shift) :=
    mapM_eq_ok_map fun c _ => Word.shiftDown_eq_ok h
  rw [ofCoordinatesInWords, hfronts, ok_bind]
  refine congrArg Except.ok (ofSides_eq_iff.2 fun d => ?_)
  have hget : (place.toList.map fun c => c / 2 ^ shift).getD d 0 = place.get d / 2 ^ shift := by
    simp
  rw [hget, Nat.testBit_div_two_pow, Nat.zero_add]

/-! ## Walking two paths -/

namespace LocationCode

variable {L : Type} [LocationCode D L]

/-- Compares two paths at given levels, where each position may be refused. -/
def comparePositions (p q : Nat → Except Fault (ChildPosition D)) (last : Ordering) :
    List Nat → Except Fault Ordering
  | [] => .ok last
  | l :: levels => do
    match compare (← p l).val (← q l).val with
    | .eq => comparePositions p q last levels
    | order => return order

/-- The depth-first order of two locations whose positions are found by `position`. -/
def walkInWords (position : L → Nat → Except Fault (ChildPosition D)) (a b : L) :
    Except Fault Ordering :=
  comparePositions (position a) (position b) (compare (level a) (level b))
    ((List.range (min (level a) (level b))).map (· + 1))

theorem comparePositions_eq {p q : Nat → Except Fault (ChildPosition D)}
    {p' q' : Nat → ChildPosition D} {last : Ordering} {levels : List Nat}
    (hp : ∀ l ∈ levels, p l = .ok (p' l)) (hq : ∀ l ∈ levels, q l = .ok (q' l)) :
    comparePositions p q last levels =
      .ok (levels.foldr (fun l rest => (compare (p' l).val (q' l).val).then rest) last) := by
  induction levels with
  | nil => rfl
  | cons l levels ih =>
    have ih := ih (fun k hk => hp k (List.mem_cons_of_mem l hk))
      fun k hk => hq k (List.mem_cons_of_mem l hk)
    rw [comparePositions, hp l List.mem_cons_self, hq l List.mem_cons_self, ok_bind, ok_bind,
      List.foldr_cons]
    cases compare (p' l).val (q' l).val with
    | lt => rfl
    | eq => exact ih
    | gt => rfl

theorem walkInWords_eq {position : L → Nat → Except Fault (ChildPosition D)}
    (h : ∀ x l, 1 ≤ l → l ≤ level x → position x l = .ok (childPosition x l)) (a b : L) :
    walkInWords position a b = .ok (depthFirstCompare a b) := by
  have hrange {x : L} (hx : min (level a) (level b) ≤ level x) (l : Nat)
      (hl : l ∈ (List.range (min (level a) (level b))).map (· + 1)) :
      position x l = .ok (childPosition x l) := by
    obtain ⟨k, hk, rfl⟩ := List.mem_map.1 hl
    rw [List.mem_range] at hk
    exact h x (k + 1) (by omega) (by omega)
  rw [walkInWords, comparePositions_eq (hrange (Nat.min_le_left _ _)) (hrange (Nat.min_le_right _ _)),
    List.foldr_map]
  rfl

/-! ## Going down by coordinates -/

/-- One level down towards given coordinates of level `l`, from level `k`. -/
def descendTowards (place : Vector Nat D) (l : Nat) (x : L) (k : Nat) : Except Fault L := do
  descend x (← ChildPosition.ofCoordinatesInWords Word.width place (← Word.sub l (k + 1)))

/-- The location at a level with given coordinates, checked as `locate` does and then reached from
the root level by level. -/
def descendTo (place : Vector Nat D) (l : Nat) : Except Fault L := do
  let _ : L ← locate place l
  (List.range l).foldlM (descendTowards place l) root

variable [LawfulLocation L]

theorem exists_descendTowards {c : Vector Nat D} {l k : Nat} (hl : l ≤ maxLevel L) (hk : k < l)
    {x : L} (hlevel : level x = k) (hplace : ∀ d, place x d = c.get d / 2 ^ (l - k)) :
    ∃ y : L, descendTowards c l x k = .ok y ∧ level y = k + 1 ∧
      ∀ d, place y d = c.get d / 2 ^ (l - (k + 1)) := by
  have hdown : l - (k + 1) < Word.width := by
    have := LawfulLocation.maxLevel_lt (L := L)
    omega
  have hx : level x < maxLevel L := by omega
  refine ⟨push x (ChildPosition.ofCoordinates c (l - (k + 1))) hx, ?_, ?_, fun d => ?_⟩
  · rw [descendTowards, Word.sub_eq_ok (by omega), ok_bind,
      ChildPosition.ofCoordinatesInWords_eq _ hdown, ok_bind, descend, dif_pos hx]
  · rw [LawfulLocation.level_push, hlevel]
  · have hsucc : l - k = l - (k + 1) + 1 := by omega
    rw [LawfulLocation.place_push, hplace, ChildPosition.ofCoordinates,
      ChildPosition.isPositive_ofSides, Nat.toNat_testBit, hsucc, Nat.pow_succ,
      ← Nat.div_div_eq_div_mul, Nat.div_add_mod]

/-- In front of level `k` stand the top `k` bits of the coordinates. -/
theorem exists_foldlM_descendTowards {c : Vector Nat D} {l : Nat} (hl : l ≤ maxLevel L)
    (hp : ∀ d : Fin D, c.get d < 2 ^ l) {k : Nat} (hk : k ≤ l) :
    ∃ x : L, (List.range k).foldlM (descendTowards c l) root = .ok x ∧ level x = k ∧
      ∀ d, place x d = c.get d / 2 ^ (l - k) := by
  induction k with
  | zero =>
    refine ⟨root, rfl, level_root, fun d => ?_⟩
    rw [place_root, Nat.sub_zero, Nat.div_eq_of_lt (hp d)]
  | succ k ih =>
    obtain ⟨x, hx, hlevel, hplace⟩ := ih (by omega)
    obtain ⟨y, hy, hlevel', hplace'⟩ := exists_descendTowards hl hk hlevel hplace
    refine ⟨y, ?_, hlevel', hplace'⟩
    rw [List.range_succ, List.foldlM_append, hx, ok_bind, List.foldlM_cons, hy]
    rfl

theorem descendTo_eq_locate (c : Vector Nat D) (l : Nat) :
    (descendTo c l : Except Fault L) = locate c l := by
  cases hlocate : (locate c l : Except Fault L) with
  | error e =>
    rw [descendTo, hlocate]
    rfl
  | ok y =>
    obtain ⟨hlevel, hplace⟩ := locate_eq_ok_iff.1 hlocate
    obtain ⟨x, hx, hlevel', hplace'⟩ := exists_foldlM_descendTowards (L := L) (c := c)
      (hlevel ▸ LawfulLocation.level_le y)
      (fun d => by rw [← hplace d, ← hlevel]; exact LawfulLocation.place_lt y d) (Nat.le_refl l)
    rw [descendTo, hlocate, ok_bind, hx]
    refine congrArg Except.ok (LawfulLocation.ext (hlevel'.trans hlevel.symm) fun d => ?_)
    rw [hplace', hplace, Nat.sub_self, Nat.pow_zero, Nat.div_one]

end LocationCode

/-! ## Codes -/

namespace MortonLocation

variable {w : Nat}

/-- Bits of a number from its highest one down. -/
def significantBits (n : Nat) : Nat := if n = 0 then 0 else n.log2 + 1

/-- The level: the bits behind the leading one, `D` for each level. -/
def levelInWords (x : MortonLocation D w) : Except Fault Nat :=
  return (← Word.sub (significantBits x.code.toNat) 1) / D

/-- The code without the positions below a level, which is no deeper than the location's own. -/
def cutInWords (x : MortonLocation D w) (own l : Nat) : Except Fault Nat := do
  Word.shiftDown Word.width x.code.toNat (← Word.mul (← Word.sub own l) D)

/-- The last `D` bits of the code cut to a level. -/
def positionInWords (x : MortonLocation D w) (l : Nat) : Except Fault (ChildPosition D) := do
  let own ← levelInWords x
  if 1 ≤ l ∧ l ≤ own then
    let front ← cutInWords x own l
    return ⟨front % 2 ^ D, Nat.mod_lt _ (Nat.two_pow_pos D)⟩
  else throw (.pathLevel l own)

/-- The depth-first order, by the codes cut to the level of the shorter one. -/
def compareInWords (x y : MortonLocation D w) : Except Fault Ordering := do
  let lx ← levelInWords x
  let ly ← levelInWords y
  match Ord.compare lx ly with
  | .eq => return Ord.compare x.code.toNat y.code.toNat
  | .lt => return (Ord.compare x.code.toNat (← cutInWords y ly lx)).then .lt
  | .gt => return (Ord.compare (← cutInWords x lx ly) y.code.toNat).then .gt

theorem levelInWords_eq (x : MortonLocation D w) : levelInWords x = .ok x.level := by
  rw [levelInWords, significantBits, if_neg x.code_ne_zero, Word.sub_eq_ok (Nat.le_add_left _ _)]
  rfl

/-- A code has room for its path, so no cut takes all its bits. -/
theorem cutInWords_eq (hw : w ≤ Word.width) (x : MortonLocation D w) {l : Nat} (hl : l ≤ x.level) :
    cutInWords x x.level l = .ok (x.code >>> ((x.level - l) * D)).toNat := by
  have hcut : (x.level - l) * D < Word.width :=
    calc (x.level - l) * D ≤ x.level * D := Nat.mul_le_mul_right D (Nat.sub_le _ _)
      _ = x.code.toNat.log2 := by rw [log2_code, Nat.mul_comm]
      _ < w := x.log2_code_lt
      _ ≤ Word.width := hw
  have hbound : (x.level - l) * D < Word.bound := Nat.lt_trans hcut (by decide)
  rw [cutInWords, Word.sub_eq_ok hl, ok_bind, Word.mul_eq_ok hbound, ok_bind,
    Word.shiftDown_eq_ok hcut, BitVec.toNat_ushiftRight, Nat.shiftRight_eq_div_pow]

theorem positionInWords_eq (hw : w ≤ Word.width) (x : MortonLocation D w) {l : Nat} (h₁ : 1 ≤ l)
    (h₂ : l ≤ x.level) : positionInWords x l = .ok (x.childPosition l) := by
  rw [positionInWords, levelInWords_eq, ok_bind, if_pos ⟨h₁, h₂⟩, cutInWords_eq hw x h₂]
  rfl

theorem compareInWords_eq (hw : w ≤ Word.width) (x y : MortonLocation D w) :
    compareInWords x y = .ok (compare x y) := by
  rw [compareInWords, levelInWords_eq, levelInWords_eq, ok_bind, ok_bind, compare]
  cases hc : Ord.compare x.level y.level with
  | lt =>
    have hl : x.level ≤ y.level := Nat.le_of_lt (Nat.compare_eq_lt.1 hc)
    dsimp only
    rw [cutInWords_eq hw y hl]
    rfl
  | eq => rfl
  | gt =>
    have hl : y.level ≤ x.level := Nat.le_of_lt (Nat.compare_eq_gt.1 hc)
    dsimp only
    rw [cutInWords_eq hw x hl]
    rfl

end MortonLocation

/-! ## Coordinates -/

namespace GridLocation

/-- The bit of each coordinate at a level of the path. -/
def positionInWords (x : GridLocation D) (l : Nat) : Except Fault (ChildPosition D) := do
  if 1 ≤ l ∧ l ≤ x.level then
    ChildPosition.ofCoordinatesInWords 32 (coordinates x) (← Word.sub x.level l)
  else throw (.pathLevel l x.level)

theorem positionInWords_eq (x : GridLocation D) {l : Nat} (h₁ : 1 ≤ l) (h₂ : l ≤ x.level) :
    positionInWords x l = .ok (x.childPosition l) := by
  have hdown : x.level - l < 32 := by
    have := x.level_le
    omega
  rw [positionInWords, if_pos ⟨h₁, h₂⟩, Word.sub_eq_ok h₂, ok_bind,
    ChildPosition.ofCoordinatesInWords_eq _ hdown]
  exact congrArg Except.ok (LawfulLocation.childPosition_eq x h₁ h₂).symm

end GridLocation

end AdaptiveMesh
