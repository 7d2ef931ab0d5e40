import AdaptiveMesh.Proofs.Axis
import AdaptiveMesh.Proofs.Location.InWords

/-!
# Moves in words

A stored form's own moves with every operation on words checked: pushing and popping a child
position, and going over to coordinates and back. `WordMoves` collects them for a stored form, and
`LosslessMoves` says that no check fails: no bit is lost and no word left, down to the deepest level
for which there are bits.
-/

namespace AdaptiveMesh

open LocationCode

variable {D : Nat}

/-! ## Coordinates -/

namespace ChildPosition

/-- Coordinates in words of `bits` bits, one level further down: each is moved up by a bit, and the
child's side becomes its last one. -/
def appendInWords (bits : Nat) (place : Vector Nat D) (p : ChildPosition D) :
    Except Fault (Vector Nat D) :=
  Vector.ofFnM fun d => do
    let moved ← Word.shiftUp bits (place.get d) 1
    return moved ||| (p.isPositive d).toNat

theorem appendInWords_eq {bits : Nat} {place : Vector Nat D} {p : ChildPosition D}
    (hbits : 1 < bits) (h : ∀ d : Fin D, 2 * place.get d < 2 ^ bits) :
    appendInWords bits place p =
      .ok (Vector.ofFn fun d => 2 * place.get d + (p.isPositive d).toNat) := by
  have hside (d : Fin D) : (do
      let moved ← Word.shiftUp bits (place.get d) 1
      return moved ||| (p.isPositive d).toNat) =
        (.ok (2 * place.get d + (p.isPositive d).toNat) : Except Fault Nat) := by
    have hbit : (p.isPositive d).toNat < 2 ^ 1 := by cases p.isPositive d <;> decide
    have hmoved : place.get d * 2 ^ 1 = 2 * place.get d := by rw [Nat.pow_one, Nat.mul_comm]
    rw [Word.shiftUp_eq_ok hbits (by rw [hmoved]; exact h d), ok_bind, ← Nat.shiftLeft_eq,
      ← Nat.shiftLeft_add_eq_or_of_lt hbit, Nat.shiftLeft_eq, hmoved]
    rfl
  exact ofFnM_eq_pure hside

end ChildPosition

namespace LocationCode

/-- Refuses a coordinate outside a level. From level 64 on there is none. -/
def requireCoordinate (place : Vector Nat D) (l : Nat) (d : Fin D) : Except Fault Unit :=
  if l < Word.width then do
    let extent ← Word.twoPow l
    if extent ≤ place.get d then .error (.coordinate (place.get d) d l) else .ok ()
  else .ok ()

/-- Refuses a level that cannot be stored, and coordinates outside it. -/
def requireCoordinates (deepest : Nat) (place : Vector Nat D) (l : Nat) : Except Fault Unit :=
  if l ≤ deepest then (List.finRange D).forM (requireCoordinate place l)
  else .error (.levelTooDeep l deepest)

theorem requireCoordinate_eq {place : Vector Nat D} {l : Nat} (h : l < Word.width) (d : Fin D) :
    requireCoordinate place l d =
      if 2 ^ l ≤ place.get d then .error (.coordinate (place.get d) d l) else .ok () := by
  rw [requireCoordinate, if_pos h, Word.twoPow_of_lt h, ok_bind]

variable {L : Type} [LocationCode D L] [LawfulLocation L]

/-- What is found after the check is what `locate` answers, if it is the location wherever there is
one. -/
theorem requireCoordinates_bind {place : Vector Nat D} {l : Nat} {found : Except Fault L}
    (h : ∀ (hl : l ≤ maxLevel L) (hp : ∀ d : Fin D, place.get d < 2 ^ l),
      found = .ok (ofCoordinates place l hl hp)) :
    (do requireCoordinates (maxLevel L) place l; found) = locate place l := by
  unfold requireCoordinates locate
  by_cases hl : l ≤ maxLevel L
  · have hcheck := forM_refuse (p := fun d : Fin D => 2 ^ l ≤ place.get d)
      (e := fun d => Fault.coordinate (place.get d) d l) (List.finRange D)
    simp only [← requireCoordinate_eq (Nat.lt_of_le_of_lt hl LawfulLocation.maxLevel_lt)] at hcheck
    rw [if_pos hl, dif_pos hl, hcheck]
    cases hfind : (List.finRange D).find? fun d => decide (2 ^ l ≤ place.get d) with
    | none =>
      have hp (d : Fin D) : place.get d < 2 ^ l := by
        simpa using List.find?_eq_none.1 hfind d (List.mem_finRange d)
      rw [dif_pos hp]
      exact h hl hp
    | some d =>
      have hd : 2 ^ l ≤ place.get d := by simpa using List.find?_some hfind
      rw [dif_neg fun hp => Nat.not_lt.2 hd (hp d)]
      rfl
  · rw [if_neg hl, dif_neg hl]
    rfl

/-- The positions down to a level make up the coordinates of the ancestor there. -/
theorem foldlM_appendInWords {position : Nat → Except Fault (ChildPosition D)} {x : L}
    (hposition : ∀ l, 1 ≤ l → l ≤ level x → position l = .ok (childPosition x l)) {k : Nat}
    (hk : k ≤ level x) :
    (List.range k).foldlM (fun place l => do
      ChildPosition.appendInWords Word.width place (← position (l + 1))) (Vector.replicate D 0) =
        .ok (coordinates (above x k)) := by
  induction k with
  | zero =>
    refine congrArg Except.ok (Vector.ext fun d hd => ?_)
    have hplace := place_above x 0 ⟨d, hd⟩
    rw [Nat.sub_zero, Nat.div_eq_of_lt (LawfulLocation.place_lt x ⟨d, hd⟩)] at hplace
    rw [Vector.getElem_replicate]
    exact hplace.symm
  | succ k ih =>
    -- the next position holds the last bit of each coordinate of the ancestor one level down
    have hwidth := level_lt_width x
    have hbelow := child?_childPosition (parent?_above hk)
    rw [level_above hk, childPosition_above hk (Nat.succ_pos k) le_rfl] at hbelow
    obtain ⟨-, hplace⟩ := child?_eq_some_iff.1 hbelow
    have hroom (d : Fin D) : 2 * (coordinates (above x k)).get d < 2 ^ Word.width := by
      have hlt := LawfulLocation.place_lt (above x k) d
      have hpow : 2 ^ (k + 1) ≤ 2 ^ Word.width := Nat.pow_le_pow_right (by decide) (by omega)
      rw [level_above (Nat.le_of_succ_le hk), place] at hlt
      rw [Nat.pow_succ] at hpow
      omega
    rw [List.range_succ, List.foldlM_append, ih (Nat.le_of_succ_le hk), ok_bind, List.foldlM_cons,
      hposition (k + 1) (Nat.succ_pos k) hk, ok_bind,
      ChildPosition.appendInWords_eq (by decide) hroom]
    refine congrArg Except.ok (Vector.ext fun d hd => ?_)
    rw [Vector.getElem_ofFn]
    exact (hplace ⟨d, hd⟩).symm

end LocationCode

/-- The moves of a stored form with each operation on words checked: one that would lose a bit is
refused, and so is one whose result leaves its word. -/
class WordMoves {D : outParam Nat} (L : Type) [LocationCode D L] where
  levelInWords : L → Except Fault Nat
  positionInWords : L → Nat → Except Fault (ChildPosition D)
  pushInWords : L → ChildPosition D → Except Fault L
  popInWords : L → Except Fault (ChildPosition D × L)
  coordinatesInWords : L → Except Fault (Vector Nat D)
  locateInWords : Vector Nat D → Nat → Except Fault L

/-- No check of the moves fails, so they are those without checks. -/
class LosslessMoves {D : outParam Nat} (L : Type) [LocationCode D L] [WordMoves L] : Prop where
  level_eq (x : L) : WordMoves.levelInWords x = .ok (level x)
  position_eq (x : L) (l : Nat) : WordMoves.positionInWords x l = positionAt x l
  push_eq (x : L) (p : ChildPosition D) : WordMoves.pushInWords x p = descend x p
  pop_eq (x : L) : WordMoves.popInWords x = ascend x
  coordinates_eq (x : L) : WordMoves.coordinatesInWords x = .ok (coordinates x)
  locate_eq (place : Vector Nat D) (l : Nat) :
    WordMoves.locateInWords place l = (locate place l : Except Fault L)

/-! ## Codes -/

namespace MortonLocation

variable {w : Nat}

/-- The location with a number for its code, for which its word has to have room. -/
def ofNumber (n : Nat) : Except Fault (MortonLocation D w) := do
  let n ← Word.narrow w n
  (ofCode? (BitVec.ofNat w n)).elim (.error .outOfBounds) .ok

/-- The position is put behind the code. -/
def pushInWords (x : MortonLocation D w) (p : ChildPosition D) :
    Except Fault (MortonLocation D w) := do
  if (← levelInWords x) < maxLevel D w then
    let moved ← Word.shiftUp Word.width x.code.toNat D
    ofNumber (moved ||| p.val)
  else throw (.deepestLevel (maxLevel D w))

theorem mod_two_pow_lt (D code : Nat) : code % 2 ^ D < 2 ^ D := Nat.mod_lt _ (Nat.two_pow_pos D)

/-- The position in the last `D` bits of a code. -/
def lastPosition (D code : Nat) : ChildPosition D := ⟨code % 2 ^ D, mod_two_pow_lt D code⟩

/-- The last position of the code is taken off. -/
def popInWords (x : MortonLocation D w) : Except Fault (ChildPosition D × MortonLocation D w) := do
  if 0 < (← levelInWords x) then
    let y ← ofNumber (← Word.shiftDown Word.width x.code.toNat D)
    return (lastPosition D x.code.toNat, y)
  else throw .rootHasNoParent

/-- Every position of the path adds a bit to each coordinate. -/
def coordinatesInWords (x : MortonLocation D w) : Except Fault (Vector Nat D) := do
  (List.range (← levelInWords x)).foldlM (fun place l => do
    ChildPosition.appendInWords Word.width place (← positionInWords x (l + 1)))
      (Vector.replicate D 0)

/-- The bits of the coordinates are put behind the root's code, from the highest one down. -/
def locateInWords [CodeWidth w] (place : Vector Nat D) (l : Nat) :
    Except Fault (MortonLocation D w) := do
  requireCoordinates (maxLevel D w) place l
  (List.range l).foldlM (fun x k => do
    pushInWords x (← ChildPosition.ofCoordinatesInWords Word.width place (← Word.sub l (k + 1))))
      root

/-- Whether a word is the code of a location. -/
def isValidInWords (D : Nat) (code : BitVec w) : Except Fault Bool := do
  let bits := significantBits code.toNat
  if bits = 0 then return false
  let behind ← Word.sub bits 1
  return decide (behind % D = 0 ∧ behind / D ≤ maxLevel D w)

instance [CodeWidth w] : WordMoves (MortonLocation D w) where
  levelInWords := levelInWords
  positionInWords := positionInWords
  pushInWords := pushInWords
  popInWords := popInWords
  coordinatesInWords := coordinatesInWords
  locateInWords := locateInWords

theorem ofNumber_eq {x : MortonLocation D w} {n : Nat} (h : n = x.code.toNat) :
    ofNumber n = .ok x := by
  have hcode : ofCode? x.code = some x := dif_pos ⟨x.code_ne_zero, x.whole⟩
  rw [ofNumber, h, Word.narrow_eq_ok x.code.isLt, ok_bind, BitVec.ofNat_toNat, BitVec.setWidth_eq,
    hcode]
  rfl

theorem pushInWords_eq (hw : w ≤ Word.width) (x : MortonLocation D w) (p : ChildPosition D) :
    pushInWords x p = if h : x.level < maxLevel D w then .ok (x.push p h)
      else .error (.deepestLevel (maxLevel D w)) := by
  rw [pushInWords, levelInWords_eq, ok_bind]
  by_cases h : x.level < maxLevel D w
  · -- the longer code fits its word, so no bit of the shorter one is moved out
    have hcode := toNat_code_push x p h
    have hroom : x.code.toNat * 2 ^ D < 2 ^ Word.width := by
      have hpow : 2 ^ w ≤ 2 ^ Word.width := Nat.pow_le_pow_right (by decide) hw
      have := (x.push p h).code.isLt
      rw [Nat.mul_comm]
      omega
    have hD : D < Word.width := by
      rw [← Nat.pow_lt_pow_iff_right (show 1 < 2 by decide)]
      exact Nat.lt_of_le_of_lt
        (Nat.le_mul_of_pos_left _ (Nat.pos_of_ne_zero x.code_ne_zero)) hroom
    rw [if_pos h, dif_pos h, Word.shiftUp_eq_ok hD hroom, ok_bind]
    refine ofNumber_eq ?_
    rw [hcode, ← Nat.shiftLeft_eq, ← Nat.shiftLeft_add_eq_or_of_lt p.isLt, Nat.shiftLeft_eq,
      Nat.mul_comm]
  · rw [if_neg h, dif_neg h]
    rfl

theorem popInWords_eq (hw : w ≤ Word.width) (x : MortonLocation D w) :
    popInWords x = if h : 0 < x.level then .ok (x.pop h) else .error .rootHasNoParent := by
  rw [popInWords, levelInWords_eq, ok_bind]
  by_cases h : 0 < x.level
  · have hD : D < Word.width :=
      calc D ≤ D * x.level := Nat.le_mul_of_pos_right D h
        _ = x.code.toNat.log2 := x.log2_code.symm
        _ < w := x.log2_code_lt
        _ ≤ Word.width := hw
    rw [if_pos h, dif_pos h, Word.shiftDown_eq_ok hD, ok_bind,
      ofNumber_eq (toNat_code_pop x h).symm]
    rfl
  · rw [if_neg h, dif_neg h]
    rfl

theorem isValidInWords_eq (code : BitVec w) :
    isValidInWords D code = .ok (ofCode? code : Option (MortonLocation D w)).isSome := by
  unfold isValidInWords significantBits ofCode?
  by_cases hzero : code.toNat = 0
  · rw [if_pos hzero, dif_neg (fun h => h.1 hzero)]
    rfl
  · have hlevels : code.toNat.log2 / D ≤ maxLevel D w :=
      Nat.div_le_div_right (Nat.le_sub_one_of_lt ((Nat.log2_lt hzero).2 code.isLt))
    rw [if_neg hzero, if_neg (Nat.succ_ne_zero _), Word.sub_eq_ok (Nat.le_add_left _ _), ok_bind,
      Nat.add_sub_cancel]
    refine congrArg Except.ok ?_
    by_cases hwhole : D ∣ code.toNat.log2
    · rw [dif_pos ⟨hzero, hwhole⟩]
      exact decide_eq_true ⟨Nat.mod_eq_zero_of_dvd hwhole, hlevels⟩
    · rw [dif_neg fun h => hwhole h.2]
      exact decide_eq_false fun h => hwhole (Nat.dvd_of_mod_eq_zero h.1)

theorem positionInWords_eq_positionAt (hw : w ≤ Word.width) [CodeWidth w] (x : MortonLocation D w)
    (l : Nat) : positionInWords x l = positionAt x l := by
  by_cases h : 1 ≤ l ∧ l ≤ x.level
  · rw [positionInWords_eq hw x h.1 h.2, positionAt]
    exact (if_pos h).symm
  · rw [positionInWords, levelInWords_eq, ok_bind, if_neg h, positionAt]
    exact (if_neg h).symm

theorem losslessMoves (hw : w ≤ Word.width) [CodeWidth w] [LawfulLocation (MortonLocation D w)] :
    LosslessMoves (MortonLocation D w) where
  level_eq := levelInWords_eq
  position_eq := positionInWords_eq_positionAt hw
  push_eq := pushInWords_eq hw
  pop_eq := popInWords_eq hw
  coordinates_eq x := by
    have hposition (l : Nat) (h₁ : 1 ≤ l) (h₂ : l ≤ LocationCode.level x) :
        positionInWords x l = .ok (LocationCode.childPosition x l) := positionInWords_eq hw x h₁ h₂
    have hself : above x x.level = x := by
      rw [above]
      exact congrArg (up · x) (Nat.sub_self _)
    change coordinatesInWords x = _
    rw [coordinatesInWords, levelInWords_eq, ok_bind]
    refine (foldlM_appendInWords hposition (Nat.le_refl x.level)).trans ?_
    rw [hself]
  locate_eq place l := by
    refine requireCoordinates_bind fun hl hp => ?_
    have hpush : (fun (x : MortonLocation D w) k => do
        pushInWords x (← ChildPosition.ofCoordinatesInWords Word.width place
          (← Word.sub l (k + 1)))) = descendTowards place l := by
      funext x k
      simp only [pushInWords_eq hw]
      rfl
    obtain ⟨x, hx, hlevel, hplace⟩ := exists_foldlM_descendTowards hl hp le_rfl
    rw [hpush]
    refine hx.trans (congrArg Except.ok (LawfulLocation.ext ?_ fun d => ?_))
    · rw [hlevel, LawfulLocation.level_ofCoordinates]
    · rw [hplace, Nat.sub_self, Nat.pow_zero, Nat.div_one, LocationCode.place,
        LawfulLocation.coordinates_ofCoordinates]

instance [Dimension D] : LosslessMoves (MortonLocation D 32) := losslessMoves (by decide)

instance [Dimension D] : LosslessMoves (MortonLocation D 64) := losslessMoves (by decide)

end MortonLocation

/-! ## Grid coordinates -/

namespace GridLocation

/-- The location with numbers for its coordinates and its level, which have to fit 32 and eight
bits. -/
def ofNumbers (place : Vector Nat D) (l : Nat) : Except Fault (GridLocation D) := do
  let place ← place.mapM (Word.narrow 32)
  let l ← Word.narrow 8 l
  if h : l ≤ 32 ∧ ∀ d : Fin D, place.get d < 2 ^ l then return ofCoordinates place l h.1 h.2
  else throw .outOfBounds

/-- Every coordinate moves up by a bit. -/
def pushInWords (x : GridLocation D) (p : ChildPosition D) : Except Fault (GridLocation D) := do
  if x.level < 32 then
    ofNumbers (← ChildPosition.appendInWords 32 (coordinates x) p) (x.level + 1)
  else throw (.deepestLevel 32)

/-- Every coordinate loses its last bit. -/
def popInWords (x : GridLocation D) : Except Fault (ChildPosition D × GridLocation D) := do
  if 0 < x.level then
    let place ← (coordinates x).mapM fun c => Word.shiftDown 32 c 1
    let y ← ofNumbers place (← Word.sub x.level 1)
    return (ChildPosition.ofCoordinates (coordinates x) 0, y)
  else throw .rootHasNoParent

/-- The coordinates and the level are stored as they are. -/
def locateInWords (place : Vector Nat D) (l : Nat) : Except Fault (GridLocation D) := do
  requireCoordinates 32 place l
  ofNumbers place l

instance : WordMoves (GridLocation D) where
  levelInWords x := .ok x.level
  positionInWords := positionInWords
  pushInWords := pushInWords
  popInWords := popInWords
  coordinatesInWords x := .ok (coordinates x)
  locateInWords := locateInWords

theorem ofNumbers_eq {place : Vector Nat D} {l : Nat} {x : GridLocation D}
    (h : locate place l = .ok x) : ofNumbers place l = .ok x := by
  obtain ⟨rfl, hplace⟩ := locate_eq_ok_iff.1 h
  have hp (d : Fin D) : place.get d < 2 ^ x.level := hplace d ▸ LawfulLocation.place_lt x d
  have hpow : 2 ^ x.level ≤ 2 ^ 32 := Nat.pow_le_pow_right (by decide) x.level_le
  have hplace' : place.mapM (Word.narrow 32) = .ok place := by
    rw [vector_mapM_eq_ok_map (g := id), Vector.map_id]
    exact forall_mem_toList fun d => Word.narrow_eq_ok ((hp d).trans_le hpow)
  have hlevel : x.level < 2 ^ 8 := Nat.lt_of_le_of_lt x.level_le (by decide)
  rw [ofNumbers, hplace', ok_bind]
  change (do let l ← Word.narrow 8 x.level; _) = _
  rw [Word.narrow_eq_ok hlevel, ok_bind, dif_pos ⟨x.level_le, hp⟩, ← h]
  exact ((dif_pos x.level_le).trans (dif_pos hp)).symm

theorem pushInWords_eq (x : GridLocation D) (p : ChildPosition D) : pushInWords x p =
    if h : x.level < 32 then .ok (x.push p h) else .error (.deepestLevel 32) := by
  unfold pushInWords
  by_cases h : x.level < 32
  · have hroom (d : Fin D) : 2 * (coordinates x).get d < 2 ^ 32 := by
      have hlt := LawfulLocation.place_lt x d
      have hpow : 2 ^ (x.level + 1) ≤ 2 ^ 32 := Nat.pow_le_pow_right (by decide) h
      rw [Nat.pow_succ] at hpow
      change (coordinates x).get d < 2 ^ x.level at hlt
      omega
    rw [if_pos h, dif_pos h, ChildPosition.appendInWords_eq (by decide) hroom, ok_bind]
    refine ofNumbers_eq (locate_eq_ok_iff.2 ⟨rfl, fun d => ?_⟩)
    rw [place_push_eq]
    simp [place]
  · rw [if_neg h, dif_neg h]
    rfl

theorem popInWords_eq (x : GridLocation D) :
    popInWords x = if h : 0 < x.level then .ok (x.pop h) else .error .rootHasNoParent := by
  unfold popInWords
  by_cases h : 0 < x.level
  · have hhalves : ((coordinates x).mapM fun c => Word.shiftDown 32 c 1) =
        .ok ((coordinates x).map fun c => c / 2 ^ 1) :=
      vector_mapM_eq_ok_map fun c _ => Word.shiftDown_eq_ok (by decide)
    have hfound : locate ((coordinates x).map fun c => c / 2 ^ 1) (x.level - 1) =
        .ok (x.pop h).2 := by
      refine locate_eq_ok_iff.2 ⟨rfl, fun d => ?_⟩
      rw [show place (x.pop h).2 d = place x d / 2 from LawfulLocation.place_pop x h d]
      simp [place]
    have hposition : (x.pop h).1 = ChildPosition.ofCoordinates (coordinates x) 0 := by
      rw [← Nat.sub_self x.level]
      exact (LawfulLocation.pop_fst x h).trans (LawfulLocation.childPosition_eq x h le_rfl)
    rw [if_pos h, dif_pos h, hhalves, ok_bind, Word.sub_eq_ok h, ok_bind, ofNumbers_eq hfound,
      ok_bind, ← hposition]
    rfl
  · rw [if_neg h, dif_neg h]
    rfl

theorem positionInWords_eq_positionAt (x : GridLocation D) (l : Nat) :
    positionInWords x l = positionAt x l := by
  by_cases h : 1 ≤ l ∧ l ≤ x.level
  · rw [positionInWords_eq x h.1 h.2, positionAt]
    exact (if_pos h).symm
  · rw [positionInWords, if_neg h, positionAt]
    exact (if_neg h).symm

theorem locateInWords_eq (place : Vector Nat D) (l : Nat) :
    locateInWords place l = locate place l :=
  requireCoordinates_bind fun hl hp => ofNumbers_eq ((dif_pos hl).trans (dif_pos hp))

instance : LosslessMoves (GridLocation D) where
  level_eq _ := rfl
  position_eq := positionInWords_eq_positionAt
  push_eq := pushInWords_eq
  pop_eq := popInWords_eq
  coordinates_eq _ := rfl
  locate_eq := locateInWords_eq

end GridLocation

end AdaptiveMesh
