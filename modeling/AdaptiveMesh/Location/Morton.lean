import AdaptiveMesh.Location.Basic

/-!
# Locations as one word

The path packed into a word of `w` bits, `D` bits for each level behind a leading one:

```
  2D, path [3, 0, 1]:   1 11 00 01
```

The leading one tells the level, so codes of different levels never meet. Two codes are put in
depth-first order by dropping the low bits of the longer one: the prefixes decide, and the shorter
code goes first where they agree.
-/

namespace AdaptiveMesh

/-- Widths of a code, which has to have room for the leading one. -/
class CodeWidth (w : Nat) : Prop where
  pos : 0 < w

instance : CodeWidth 32 := ⟨by decide⟩
instance : CodeWidth 64 := ⟨by decide⟩

/-- A location of `D` dimensions in a word of `w` bits. -/
structure MortonLocation (D w : Nat) where
  code : BitVec w
  code_ne_zero : code.toNat ≠ 0
  /-- Every level takes `D` bits behind the leading one. -/
  whole : D ∣ code.toNat.log2
deriving DecidableEq

namespace MortonLocation

variable {D w : Nat}

/-- The location with a given code, if the code has a leading one and whole levels behind it. -/
def ofCode? (code : BitVec w) : Option (MortonLocation D w) :=
  if h : code.toNat ≠ 0 ∧ D ∣ code.toNat.log2 then some ⟨code, h.1, h.2⟩ else none

/-- Levels that fit behind the leading one. -/
def maxLevel (D w : Nat) : Nat := (w - 1) / D

def level (x : MortonLocation D w) : Nat := x.code.toNat.log2 / D

theorem log2_code (x : MortonLocation D w) : x.code.toNat.log2 = D * x.level :=
  (Nat.mul_div_cancel' x.whole).symm

theorem log2_code_lt (x : MortonLocation D w) : x.code.toNat.log2 < w :=
  (Nat.log2_lt x.code_ne_zero).mpr x.code.isLt

theorem toNat_one [CodeWidth w] : (1#w).toNat = 1 := by
  rw [BitVec.toNat_ofNat, Nat.mod_eq_of_lt (Nat.one_lt_two_pow (Nat.ne_of_gt CodeWidth.pos))]

theorem log2_one : Nat.log2 1 = 0 := by decide

/-- The location whose code is the leading one alone. -/
def root [CodeWidth w] : MortonLocation D w where
  code := 1#w
  code_ne_zero := by rw [toNat_one]; decide
  whole := by rw [toNat_one, log2_one]; exact Nat.dvd_zero D

theorem level_root [CodeWidth w] : (root : MortonLocation D w).level = 0 := by
  rw [level, root, toNat_one, log2_one, Nat.zero_div]

theorem toNat_push (x : MortonLocation D w) (p : ChildPosition D) (h : x.level < maxLevel D w) :
    (x.code <<< D ||| BitVec.ofNat w p.val).toNat = 2 ^ D * x.code.toNat + p.val := by
  have hroom : x.code.toNat.log2 + D < w := by
    have : D * (x.level + 1) ≤ w - 1 :=
      Nat.le_trans (Nat.mul_le_mul_left D h) (Nat.mul_div_le (w - 1) D)
    rw [log2_code]
    rw [Nat.mul_add, Nat.mul_one] at this
    have := x.log2_code_lt
    omega
  have hlog := log2_two_pow_mul_add x.code_ne_zero p.isLt
  have hne : 2 ^ D * x.code.toNat + p.val ≠ 0 := by
    have := Nat.mul_pos (Nat.two_pow_pos D) (Nat.pos_of_ne_zero x.code_ne_zero)
    omega
  have hfit : 2 ^ D * x.code.toNat + p.val < 2 ^ w :=
    (Nat.log2_lt hne).mp (by omega)
  rw [BitVec.toNat_or, BitVec.toNat_shiftLeft, BitVec.toNat_ofNat, Nat.shiftLeft_eq,
    Nat.mod_eq_of_lt (by rw [Nat.mul_comm]; omega), Nat.mod_eq_of_lt (by omega),
    ← Nat.shiftLeft_eq, ← Nat.shiftLeft_add_eq_or_of_lt p.isLt, Nat.shiftLeft_eq, Nat.mul_comm]

/-- The child at a position: its bits are put behind the code. -/
def push (x : MortonLocation D w) (p : ChildPosition D) (h : x.level < maxLevel D w) :
    MortonLocation D w where
  code := x.code <<< D ||| BitVec.ofNat w p.val
  code_ne_zero := by
    rw [toNat_push x p h]
    have := Nat.mul_pos (Nat.two_pow_pos D) (Nat.pos_of_ne_zero x.code_ne_zero)
    omega
  whole := by
    rw [toNat_push x p h, log2_two_pow_mul_add x.code_ne_zero p.isLt]
    exact Nat.dvd_add x.whole (Nat.dvd_refl D)

theorem level_push (x : MortonLocation D w) (p : ChildPosition D) (h : x.level < maxLevel D w) :
    (x.push p h).level = x.level + 1 := by
  have hD : 0 < D := by
    rcases Nat.eq_zero_or_pos D with rfl | hD
    · simp [maxLevel] at h
    · exact hD
  have hlog : (x.push p h).code.toNat.log2 = x.code.toNat.log2 + D := by
    rw [push, toNat_push x p h, log2_two_pow_mul_add x.code_ne_zero p.isLt]
  rw [level, level, hlog, Nat.add_div_right _ hD]

/-- The last position of the path, and the location without it. -/
def pop (x : MortonLocation D w) (h : 0 < x.level) : ChildPosition D × MortonLocation D w :=
  have hD : D ≤ x.code.toNat.log2 := by
    rw [log2_code]
    exact Nat.le_mul_of_pos_right D h
  (⟨x.code.toNat % 2 ^ D, Nat.mod_lt _ (Nat.two_pow_pos D)⟩,
    { code := x.code >>> D
      code_ne_zero := by
        rw [BitVec.toNat_ushiftRight, Nat.shiftRight_eq_div_pow]
        exact (log2_div_two_pow hD x.code_ne_zero).1
      whole := by
        have h' := (log2_div_two_pow hD x.code_ne_zero).2
        rw [BitVec.toNat_ushiftRight, Nat.shiftRight_eq_div_pow]
        exact (Nat.dvd_add_iff_left (Nat.dvd_refl D)).mpr (h' ▸ x.whole) })

/-- The `D` bits behind the code of the ancestor one level above `l`. -/
def childPosition (x : MortonLocation D w) (l : Nat) : ChildPosition D :=
  ⟨(x.code >>> ((x.level - l) * D)).toNat % 2 ^ D, Nat.mod_lt _ (Nat.two_pow_pos D)⟩

/-- The binary number formed along each axis by the bits of the path. -/
def coordinates (x : MortonLocation D w) : Vector Nat D :=
  (List.range x.level).foldl
    (fun place l =>
      Vector.ofFn fun d => 2 * place.get d + ((x.childPosition (l + 1)).isPositive d).toNat)
    (Vector.replicate D 0)

/-- The location whose path is made of the top `n` of the `l` bits of the coordinates. -/
def ofTopBits [CodeWidth w] (c : Vector Nat D) (l : Nat) :
    (n : Nat) → n ≤ maxLevel D w → { x : MortonLocation D w // x.level = n }
  | 0, _ => ⟨root, level_root⟩
  | n + 1, h =>
    let x := ofTopBits c l n (Nat.le_of_succ_le h)
    have hx : x.val.level < maxLevel D w := by rw [x.property]; exact h
    ⟨x.val.push (ChildPosition.ofCoordinates c (l - (n + 1))) hx, by rw [level_push, x.property]⟩

/-- The depth-first order: the longer code loses its low bits, and goes last if nothing else
decides. -/
def compare (a b : MortonLocation D w) : Ordering :=
  match Ord.compare a.level b.level with
  | .eq => Ord.compare a.code.toNat b.code.toNat
  | .lt => (Ord.compare a.code.toNat (b.code >>> ((b.level - a.level) * D)).toNat).then .lt
  | .gt => (Ord.compare (a.code >>> ((a.level - b.level) * D)).toNat b.code.toNat).then .gt

instance : Ord (MortonLocation D w) := ⟨compare⟩

instance [CodeWidth w] : LocationCode D (MortonLocation D w) where
  maxLevel := maxLevel D w
  root := root
  level := level
  childPosition := childPosition
  push := push
  pop := pop
  coordinates := coordinates
  ofCoordinates c l hl _ := (ofTopBits c l l hl).val
  isValid x := decide (x.code.toNat ≠ 0 ∧ D ∣ x.code.toNat.log2)
  decEq := inferInstance
  byteSize := w / 8
  name := "InterleavedLocation"

end MortonLocation

end AdaptiveMesh
