import AdaptiveMesh.Location.Grid
import AdaptiveMesh.Proofs.Location.Order

/-!
# Grid locations are lawful

The place of a grid location is its stored coordinate, so each law is one about a 32-bit word.
-/

namespace AdaptiveMesh

namespace GridLocation

open LocationCode

variable {D : Nat}

theorem place_eq (x : GridLocation D) (d : Fin D) : place x d = (x.cell.get d).toNat := by
  change (x.cell.map BitVec.toNat).get d = _
  simp

theorem place_push_eq (x : GridLocation D) (p : ChildPosition D) (h : x.level < 32) (d : Fin D) :
    place (x.push p h) d = 2 * place x d + (p.isPositive d).toNat := by
  have hlt := x.cell_lt d
  have hle : 2 ^ (x.level + 1) ≤ 2 ^ 32 := Nat.pow_le_pow_right (by decide) h
  rw [Nat.pow_succ] at hle
  rw [place_eq, place_eq, push]
  simp only [Vector.get_eq_getElem, Vector.getElem_ofFn] at hlt ⊢
  exact toNat_append_bit _ _ (by omega)

instance : LawfulLocation (GridLocation D) where
  maxLevel_lt := show 32 < Word.width by decide
  level_le x := x.level_le
  place_lt x d := by
    rw [place_eq]
    exact x.cell_lt d
  ext {x y} hl hp := by
    obtain ⟨cx, lx, hlx, hcx⟩ := x
    obtain ⟨cy, ly, hly, hcy⟩ := y
    obtain rfl : lx = ly := hl
    have hc : cx = cy := by
      ext i hi : 1
      have := hp ⟨i, hi⟩
      rw [place_eq, place_eq] at this
      exact BitVec.eq_of_toNat_eq this
    subst hc
    rfl
  level_root := rfl
  level_push _ _ _ := rfl
  place_push := place_push_eq
  pop_fst x h := by
    change (x.pop h).1 = x.childPosition x.level
    rw [pop, childPosition, Nat.sub_self]
  level_pop _ _ := rfl
  place_pop x h d := by
    change place (x.pop h).2 d = _
    rw [place_eq, place_eq, pop]
    simp [BitVec.toNat_ushiftRight, Nat.shiftRight_eq_div_pow]
  childPosition_eq x l h₁ h₂ := by
    change x.childPosition l = _
    rw [childPosition, ChildPosition.ofCoordinates, ChildPosition.ofSides_eq_iff]
    intro d
    rw [← BitVec.testBit_toNat, ← place_eq]
    rfl
  level_ofCoordinates _ _ _ _ := rfl
  coordinates_ofCoordinates c l hl hc := by
    change (GridLocation.ofCoordinates c l hl hc).cell.map BitVec.toNat = c
    ext i hi
    have hle : 2 ^ l ≤ 2 ^ 32 := Nat.pow_le_pow_right (by decide) hl
    have := hc ⟨i, hi⟩
    rw [Vector.get_eq_getElem] at this
    simp only [GridLocation.ofCoordinates, Vector.getElem_map, BitVec.toNat_ofNat]
    exact Nat.mod_eq_of_lt (by simp only at this; omega)
  compare_eq := compare_eq_comparePaths
  isValid_eq x := decide_eq_true ⟨x.level_le, x.cell_lt⟩

/-- A square of one of the first levels of the plane. -/
def square (l : Fin 4) (x y : Fin (2 ^ l.val)) : GridLocation 2 :=
  ofCoordinates (Vector.ofFn ![x.val, y.val]) l (l.isLt.le.trans (by decide))
    (Fin.forall_fin_two.2 ⟨by simp, by simp⟩)

end GridLocation

end AdaptiveMesh
