import AdaptiveMesh.Location.Basic

/-!
# Locations as grid coordinates

One 32-bit coordinate for each axis, counted in nodes of the location's own level, and that level.
Going down doubles a coordinate and adds the child's side; going up drops its last bit. Brought to a
common level, the highest bit in which two locations differ decides their order.
-/

namespace AdaptiveMesh

/-- A location of `D` dimensions as its grid coordinates. -/
structure GridLocation (D : Nat) where
  cell : Vector (BitVec 32) D
  level : Nat
  level_le : level ≤ 32
  cell_lt : ∀ d : Fin D, (cell.get d).toNat < 2 ^ level
deriving DecidableEq

namespace GridLocation

variable {D : Nat}

def root : GridLocation D where
  cell := Vector.replicate D 0#32
  level := 0
  level_le := by decide
  cell_lt := by simp

/-- The sides of the child at a level of the path: bit `level - l` of every coordinate. -/
def childPosition (x : GridLocation D) (l : Nat) : ChildPosition D :=
  ChildPosition.ofSides fun d => (x.cell.get d).getLsbD (x.level - l)

theorem toNat_append_bit {w : Nat} (c : BitVec w) (b : Bool) (h : 2 * c.toNat + 1 < 2 ^ w) :
    (c <<< 1 ||| BitVec.ofNat w b.toNat).toNat = 2 * c.toNat + b.toNat := by
  have hb : b.toNat < 2 ^ 1 := by cases b <;> decide
  rw [BitVec.toNat_or, BitVec.toNat_shiftLeft, BitVec.toNat_ofNat, Nat.shiftLeft_eq,
    Nat.mod_eq_of_lt (by omega), Nat.mod_eq_of_lt (by omega), ← Nat.shiftLeft_eq,
    ← Nat.shiftLeft_add_eq_or_of_lt hb, Nat.shiftLeft_eq, Nat.mul_comm, Nat.pow_one]

def push (x : GridLocation D) (p : ChildPosition D) (h : x.level < 32) : GridLocation D where
  cell := Vector.ofFn fun d => x.cell.get d <<< 1 ||| BitVec.ofNat 32 (p.isPositive d).toNat
  level := x.level + 1
  level_le := h
  cell_lt := fun d => by
    have hlt := x.cell_lt d
    have hle : 2 ^ (x.level + 1) ≤ 2 ^ 32 := Nat.pow_le_pow_right (by decide) h
    have hb : (p.isPositive d).toNat ≤ 1 := Bool.toNat_le _
    simp only [get_eq_getElem, Vector.getElem_ofFn] at hlt ⊢
    rw [toNat_append_bit _ _ (by omega), Nat.pow_succ]
    omega

/-- The last bits of the coordinates, and the location without them. -/
def pop (x : GridLocation D) (h : 0 < x.level) : ChildPosition D × GridLocation D :=
  (ChildPosition.ofSides fun d => (x.cell.get d).getLsbD 0,
    { cell := x.cell.map fun c : BitVec 32 => c >>> 1
      level := x.level - 1
      level_le := Nat.le_trans (Nat.sub_le _ _) x.level_le
      cell_lt := fun d => by
        have hlt := x.cell_lt d
        have hp : 2 ^ x.level = 2 ^ (x.level - 1) * 2 := by
          rw [← Nat.pow_succ]
          congr 1
          omega
        simp only [get_eq_getElem, Vector.getElem_map] at hlt ⊢
        rw [BitVec.toNat_ushiftRight, Nat.shiftRight_eq_div_pow, Nat.pow_one]
        omega })

def ofCoordinates (place : Vector Nat D) (l : Nat) (hl : l ≤ 32)
    (hp : ∀ d : Fin D, place.get d < 2 ^ l) : GridLocation D where
  cell := place.map (BitVec.ofNat 32)
  level := l
  level_le := hl
  cell_lt := fun d => by
    have hlt := hp d
    simp only [get_eq_getElem, Vector.getElem_map, BitVec.toNat_ofNat] at hlt ⊢
    exact Nat.lt_of_le_of_lt (Nat.mod_le _ _) hlt

/-! ## Order -/

/-- The bits that differ, along some axis, between the coordinates of the ancestors of `a` and `b`
at a level. -/
def differingBits (a b : GridLocation D) (l : Nat) : BitVec 32 :=
  Fin.foldl D (fun bits d =>
    bits ||| (a.cell.get d >>> (a.level - l) ^^^ b.cell.get d >>> (b.level - l))) 0#32

/-- The depth-first order: two paths part at the level of the highest bit in which the coordinates
differ, once the deeper location has gone up to the level of the other. -/
def compare (a b : GridLocation D) : Ordering :=
  let l := min a.level b.level
  let bits := differingBits a b l
  if bits = 0#32 then Ord.compare a.level b.level
  else
    let parting := l - bits.toNat.log2
    Ord.compare (a.childPosition parting).val (b.childPosition parting).val

theorem getLsbD_foldl_or {α : Type} (xs : List α) (f : α → BitVec 32) (bits : BitVec 32) (i : Nat) :
    (xs.foldl (fun bits x => bits ||| f x) bits).getLsbD i =
      (bits.getLsbD i || xs.any fun x => (f x).getLsbD i) := by
  induction xs generalizing bits with
  | nil => simp
  | cons x xs ih => rw [List.foldl_cons, ih, BitVec.getLsbD_or, List.any_cons, Bool.or_assoc]

/-- A bit is among those that differ exactly if the child positions at its level differ. -/
theorem getLsbD_differingBits {a b : GridLocation D} {l i : Nat} (ha : l ≤ a.level)
    (hb : l ≤ b.level) (hi : i < l) :
    (differingBits a b l).getLsbD i = true ↔ a.childPosition (l - i) ≠ b.childPosition (l - i) := by
  have hxa : a.level - l + i = a.level - (l - i) := by omega
  have hxb : b.level - l + i = b.level - (l - i) := by omega
  simp only [differingBits, Fin.foldl_eq_finRange_foldl, getLsbD_foldl_or, childPosition, ne_eq,
    ChildPosition.ofSides_eq_iff]
  simp [hxa, hxb]

theorem getLsbD_differingBits_of_le (a b : GridLocation D) {l i : Nat} (hi : l ≤ i) :
    (differingBits a b l).getLsbD i = false := by
  have hbit (x : GridLocation D) (d : Fin D) :
      (x.cell.get d).getLsbD (x.level - l + i) = false := by
    rw [← BitVec.testBit_toNat]
    exact Nat.testBit_lt_two_pow (Nat.lt_of_lt_of_le (x.cell_lt d)
      (Nat.pow_le_pow_right (by decide) (by omega)))
  simp only [get_eq_getElem] at hbit
  simp [differingBits, Fin.foldl_eq_finRange_foldl, getLsbD_foldl_or, hbit]

/-- The order by the highest differing bit is the order of the paths. -/
theorem compare_eq_comparePaths (a b : GridLocation D) :
    compare a b = comparePaths a.level b.level a.childPosition b.childPosition := by
  have ha : min a.level b.level ≤ a.level := Nat.min_le_left _ _
  have hb : min a.level b.level ≤ b.level := Nat.min_le_right _ _
  unfold compare
  generalize hl : min a.level b.level = l at ha hb
  -- a level of both paths where the bits agree
  have agree {p : Nat} (hp : p < l) (h : (differingBits a b l).getLsbD (l - (p + 1)) = false) :
      a.childPosition (p + 1) = b.childPosition (p + 1) := by
    have := getLsbD_differingBits ha hb (show l - (p + 1) < l by omega)
    rw [show l - (l - (p + 1)) = p + 1 by omega, h] at this
    simpa using this
  dsimp only
  split
  · rename_i hzero
    refine (comparePaths_of_eq fun p hp => ?_).symm
    exact agree (hl ▸ hp) (by rw [hzero, BitVec.getLsbD_zero])
  · rename_i hne
    have hne : (differingBits a b l).toNat ≠ 0 := fun h => hne (BitVec.eq_of_toNat_eq h)
    generalize hk : (differingBits a b l).toNat.log2 = k
    have hbit : (differingBits a b l).getLsbD k = true := by
      rw [← hk, ← BitVec.testBit_toNat]
      exact Nat.testBit_log2 hne
    have hkl : k < l := by
      rcases Nat.lt_or_ge k l with h | h
      · exact h
      · rw [getLsbD_differingBits_of_le a b h] at hbit
        contradiction
    obtain ⟨p, hp⟩ : ∃ p, l - k = p + 1 := ⟨l - k - 1, by omega⟩
    rw [hp]
    refine (comparePaths_of_ne (by omega) (fun q hq => ?_) ?_).symm
    · refine agree (by omega) ?_
      rw [← BitVec.testBit_toNat]
      refine Nat.testBit_lt_two_pow (Nat.lt_of_lt_of_le Nat.lt_log2_self ?_)
      exact Nat.pow_le_pow_right (by decide) (by omega)
    · rw [← hp]
      exact (getLsbD_differingBits ha hb hkl).mp hbit

instance : Ord (GridLocation D) := ⟨compare⟩

instance : LocationCode D (GridLocation D) where
  maxLevel := 32
  root := root
  level := level
  childPosition := childPosition
  push := push
  pop := pop
  coordinates x := x.cell.map BitVec.toNat
  ofCoordinates := ofCoordinates
  isValid x := decide (x.level ≤ 32 ∧ ∀ d : Fin D, (x.cell.get d).toNat < 2 ^ x.level)
  decEq := inferInstance
  byteSize := 4 * (D + 1)
  name := "DeinterleavedLocation"

end GridLocation

end AdaptiveMesh
