import AdaptiveMesh.Proofs.Location.MovesInWords

/-!
# Shifts

A shift reads the coordinates, adds a step of at most one along every axis, and looks the place up
again. `ShiftsExactly` says that it is a translation of the grid: it fails only by leaving the root,
the opposite step leads back, and the ancestors of the two ends are a step apart too, along some of
the same axes. One level up, a step along an axis either carries over or is absorbed.
-/

namespace AdaptiveMesh

open LocationCode

variable {D : Nat}

namespace Offset

/-- The first offset moves along some of the axes of the second, and like it there. -/
def IsPartOf (o' o : Offset D) : Prop := ∀ d : Fin D, o'.get d = 0 ∨ o'.get d = o.get d

theorem IsPartOf.refl (o : Offset D) : o.IsPartOf o := fun _ => Or.inr rfl

theorem IsPartOf.trans {o₁ o₂ o₃ : Offset D} (h : o₁.IsPartOf o₂) (h' : o₂.IsPartOf o₃) :
    o₁.IsPartOf o₃ := by
  intro d
  by_cases h₀ : o₁.get d = 0
  · exact Or.inl h₀
  · have heq := (h d).resolve_left h₀
    rw [heq] at h₀ ⊢
    exact h' d

theorem IsUnit.of_isPartOf {o o' : Offset D} (ho : o.IsUnit) (h : o'.IsPartOf o) : o'.IsUnit := by
  intro d
  have hd := ho d
  cases h d with
  | inl h₀ =>
    rw [h₀]
    exact Nat.zero_le 1
  | inr h₁ => rwa [h₁]

theorem get_map_neg (o : Offset D) (d : Fin D) : (o.map (-·)).get d = -o.get d := by
  simp

theorem IsUnit.neg {o : Offset D} (ho : o.IsUnit) : IsUnit (o.map (-·)) := by
  intro d
  rw [get_map_neg, Int.natAbs_neg]
  exact ho d

end Offset

namespace LocationCode

variable {L : Type} [LocationCode D L]

/-! ## Steps and ancestors -/

/-- What is left of a step one level up. -/
def carried (x : L) (o : Offset D) : Offset D :=
  Vector.ofFn fun d => movedPlace x o d / 2 - place x d / 2

theorem get_carried (x : L) (o : Offset D) (d : Fin D) :
    (carried x o).get d = movedPlace x o d / 2 - place x d / 2 := by
  simp [carried]

theorem isPartOf_carried (x : L) {o : Offset D} (ho : o.IsUnit) : (carried x o).IsPartOf o := by
  intro d
  have hd := ho d
  rw [get_carried, movedPlace]
  omega

section

variable [LawfulLocation L]

/-- The opposite step leads back. -/
theorem shift_neg {x y : L} {o : Offset D} (ho : o.IsUnit) (h : shift x o = .ok (some y)) :
    shift y (o.map (-·)) = .ok (some x) := by
  rw [shift_eq_some_iff ho] at h
  refine (shift_eq_some_iff ho.neg).2 ⟨h.1.symm, fun d => ?_⟩
  have hd := h.2 d
  simp only [movedPlace, Offset.get_map_neg] at hd ⊢
  omega

/-- One level up, a step has led from parent to parent. -/
theorem shift_parent? {x y p : L} {o : Offset D} (ho : o.IsUnit) (h : shift x o = .ok (some y))
    (hp : parent? x = some p) :
    ∃ q, parent? y = some q ∧ shift p (carried x o) = .ok (some q) := by
  rw [shift_eq_some_iff ho] at h
  rw [parent?_eq_some_iff] at hp
  obtain ⟨q, hq⟩ := exists_parent? (x := y) (by omega)
  refine ⟨q, hq, (shift_eq_some_iff (ho.of_isPartOf (isPartOf_carried x ho))).2 ?_⟩
  rw [parent?_eq_some_iff] at hq
  refine ⟨by omega, fun d => ?_⟩
  have hx := hp.2 d
  have hy := hq.2 d
  have hd := h.2 d
  rw [movedPlace, get_carried, ← hd]
  omega

/-- Any number of levels up, what is left of a step leads from ancestor to ancestor. -/
theorem shift_up {x y : L} {o : Offset D} (ho : o.IsUnit) (h : shift x o = .ok (some y)) (n : Nat) :
    ∃ o' : Offset D, o'.IsPartOf o ∧ shift (up n x) o' = .ok (some (up n y)) := by
  -- the step may lose an axis at every level, so the claim is carried for all of them
  induction n generalizing x y o with
  | zero => exact ⟨o, .refl o, h⟩
  | succ n ih =>
    by_cases hx : level x = 0
    · have hy : level y = 0 := ((shift_eq_some_iff ho).1 h).1.trans hx
      refine ⟨o, .refl o, ?_⟩
      rwa [up, up, parent?_eq_none_iff.2 hx, parent?_eq_none_iff.2 hy]
    · obtain ⟨p, hp⟩ := exists_parent? (Nat.pos_of_ne_zero hx)
      obtain ⟨q, hq, hpq⟩ := shift_parent? ho h hp
      have hpart := isPartOf_carried x ho
      obtain ⟨o', ho', hup⟩ := ih (ho.of_isPartOf hpart) hpq
      refine ⟨o', ho'.trans hpart, ?_⟩
      rwa [up, up, hp, hq]

/-- The ancestors of the two ends of a step are a step apart, along some of the same axes. -/
theorem shift_ancestor {x y : L} {o : Offset D} (ho : o.IsUnit) (h : shift x o = .ok (some y))
    {l : Nat} (hl : l ≤ level x) : ∃ (o' : Offset D) (a b : L), o'.IsPartOf o ∧
      ancestor x l = .ok a ∧ ancestor y l = .ok b ∧ shift a o' = .ok (some b) := by
  have hlevel : level y = level x := ((shift_eq_some_iff ho).1 h).1
  obtain ⟨o', ho', hup⟩ := shift_up ho h (level x - l)
  refine ⟨o', above x l, above y l, ho', if_pos hl, if_pos (hlevel.symm ▸ hl), ?_⟩
  rw [above, above, hlevel]
  exact hup

end

/-! ## Shifts in words -/

variable [WordMoves L]

/-- A step added to a coordinate as a signed number, unless the sum leaves the words or the level. -/
def addStep? (extent place : Nat) (step : Int) : Option Nat := do
  let moved ← Word.addSigned? place step
  if extent ≤ moved then none else some moved

theorem addStep?_eq {extent : Nat} (h : extent ≤ Word.bound) (place : Nat) (step : Int) :
    addStep? extent place step =
      if 0 ≤ place + step ∧ place + step < extent then some (place + step).toNat else none := by
  unfold addStep? Word.addSigned?
  by_cases hin : 0 ≤ (place : Int) + step ∧ place + step < Word.bound
  · rw [if_pos hin]
    by_cases hext : extent ≤ ((place : Int) + step).toNat
    · rw [if_neg (show ¬ (0 ≤ (place : Int) + step ∧ place + step < extent) by omega)]
      exact if_pos hext
    · rw [if_pos (show 0 ≤ (place : Int) + step ∧ place + step < extent by omega)]
      exact if_neg hext
  · -- the words end no lower than the level
    have hout : ¬ (0 ≤ (place : Int) + step ∧ place + step < extent) := by omega
    rw [if_neg hin, if_neg hout]
    rfl

/-- The step is added to each coordinate, and nothing is found where a sum leaves the level. -/
def stepInWords (x : L) (o : Offset D) : Except Fault (Option L) := do
  let own ← WordMoves.levelInWords x
  let extent ← Word.twoPow own
  let place ← WordMoves.coordinatesInWords x
  let moved := Vector.ofFnM fun d => addStep? extent (place.get d) (o.get d)
  moved.elim (.ok none) fun there => some <$> WordMoves.locateInWords there own

/-- A shift, which refuses the first axis along which the step is too long. -/
def shiftInWords (x : L) (o : Offset D) : Except Fault (Option L) := do
  (List.finRange D).forM fun d =>
    if 1 < (o.get d).natAbs then .error (.shiftOffset (o.get d) d) else .ok ()
  stepInWords x o

variable [LawfulLocation L] [LosslessMoves L]

theorem stepInWords_eq (x : L) {o : Offset D} (ho : o.IsUnit) : stepInWords x o = shift x o := by
  have hextent := Word.twoPow_of_lt (level_lt_width x)
  have hbound : 2 ^ level x ≤ Word.bound := Nat.pow_le_pow_right (by decide) (level_lt_width x).le
  rw [stepInWords, LosslessMoves.level_eq, ok_bind, hextent, ok_bind, LosslessMoves.coordinates_eq,
    ok_bind]
  cases shift_eq x ho with
  | inl h =>
    obtain ⟨y, hy, hlevel, hplace⟩ := h
    have hmoved (d : Fin D) : addStep? (2 ^ level x) ((coordinates x).get d) (o.get d) =
        some ((coordinates y).get d) := by
      have hlt := LawfulLocation.place_lt y d
      have hd := hplace d
      rw [hlevel] at hlt
      unfold movedPlace place at hd
      unfold place at hlt
      rw [addStep?_eq hbound, ← hd]
      exact if_pos ⟨by omega, by omega⟩
    have hself : (Vector.ofFn fun d => (coordinates y).get d) = coordinates y :=
      Vector.ext fun i hi => by simp
    have hfound : locate (coordinates y) (level x) = .ok y :=
      locate_eq_ok_iff.2 ⟨hlevel, fun _ => rfl⟩
    rw [ofFnM_eq_pure hmoved, hself, hy]
    show some <$> WordMoves.locateInWords (coordinates y) (level x) = _
    rw [LosslessMoves.locate_eq, hfound]
    rfl
  | inr h =>
    obtain ⟨hnone, d, hd⟩ := h
    have hmoved : addStep? (2 ^ level x) ((coordinates x).get d) (o.get d) = none := by
      rw [addStep?_eq hbound]
      exact if_neg hd
    rw [ofFnM_eq_none hmoved, hnone]
    rfl

theorem shiftInWords_eq (x : L) (o : Offset D) : shiftInWords x o = shift x o := by
  have hcheck := forM_refuse (p := fun d : Fin D => 1 < (o.get d).natAbs)
    (e := fun d => Fault.shiftOffset (o.get d) d) (List.finRange D)
  rw [shiftInWords, hcheck]
  cases hfind : (List.finRange D).find? fun d => decide (1 < (o.get d).natAbs) with
  | some d =>
    unfold shift
    rw [hfind]
    rfl
  | none =>
    have ho : o.IsUnit := by
      intro d
      simpa using List.find?_eq_none.1 hfind d (List.mem_finRange d)
    exact stepInWords_eq x ho

end LocationCode

/-! ## Translations -/

/-- A shift by at most one step along every axis is a translation of the grid of the level: it is
never refused, finds nothing exactly where a place would leave the level, and otherwise moves every
place. The opposite step leads back, and the ancestors of the two ends are a step apart along some
of the same axes. No operation leaves its words. -/
structure ShiftsExactly (L : Type) [LocationCode D L] [WordMoves L] : Prop where
  inWords (x : L) (o : Offset D) : shiftInWords x o = shift x o
  exists_reply (x : L) (o : Offset D) : o.IsUnit → ∃ r, shift x o = .ok r
  eq_none_iff (x : L) (o : Offset D) : o.IsUnit → (shift x o = .ok none ↔
    ∃ d : Fin D, (coordinates x).get d + o.get d < 0 ∨
      2 ^ level x ≤ (coordinates x).get d + o.get d)
  eq_some_iff (x y : L) (o : Offset D) : o.IsUnit → (shift x o = .ok (some y) ↔
    level y = level x ∧
      ∀ d : Fin D, ((coordinates y).get d : Int) = (coordinates x).get d + o.get d)
  back (x y : L) (o : Offset D) : o.IsUnit → shift x o = .ok (some y) →
    shift y (o.map (-·)) = .ok (some x)
  ancestor (x y : L) (o : Offset D) : o.IsUnit → shift x o = .ok (some y) →
    ∀ l ≤ level x, ∃ (o' : Offset D) (a b : L), (∀ d : Fin D, o'.get d = 0 ∨ o'.get d = o.get d) ∧
      ancestor x l = .ok a ∧ ancestor y l = .ok b ∧ shift a o' = .ok (some b)

theorem shiftsExactly (L : Type) [LocationCode D L] [LawfulLocation L] [WordMoves L]
    [LosslessMoves L] : ShiftsExactly L where
  inWords := shiftInWords_eq
  exists_reply x o ho := shift_ok x ho
  eq_none_iff x o ho := by
    rw [shift_eq_none_iff ho]
    refine exists_congr fun d => ?_
    rw [not_and_or, Int.not_le, Int.not_lt]
    push_cast
    rfl
  eq_some_iff x y o ho := shift_eq_some_iff ho
  back x y o ho h := shift_neg ho h
  ancestor x y o ho h l hl := shift_ancestor ho h hl

/-- In each stored form a shift is a translation, down to the deepest level that can be stored. -/
theorem shiftsExactly_codes_grid (D : Nat) [Dimension D] :
    ShiftsExactly (MortonLocation D 32) ∧ ShiftsExactly (MortonLocation D 64) ∧
      ShiftsExactly (GridLocation D) :=
  ⟨shiftsExactly _, shiftsExactly _, shiftsExactly _⟩

/-- The last node of level 32 in the lower half of a segment lies beside the first one in the upper
half, where the step carries over through every level. -/
theorem shiftsExactly_codes_grid_segment : Dimension 1 ∧ ∃ x y : GridLocation 1,
    level x = 32 ∧ place x 0 = 2 ^ 31 - 1 ∧ place y 0 = 2 ^ 31 ∧ shift x #v[1] = .ok (some y) ∧
      shift y #v[-1] = .ok (some x) := by
  obtain ⟨-, -, hshifts⟩ := shiftsExactly_codes_grid 1
  obtain ⟨x, hx, hxplace⟩ := exists_location (L := GridLocation 1) (l := 32) (by decide)
    (fun _ => 2 ^ 31 - 1) (by decide)
  obtain ⟨y, hy, hyplace⟩ := exists_location (L := GridLocation 1) (l := 32) (by decide)
    (fun _ => 2 ^ 31) (by decide)
  have hunit : Offset.IsUnit #v[(1 : Int)] := by decide
  have hshift : shift x #v[1] = .ok (some y) := by
    refine (hshifts.eq_some_iff x y #v[1] hunit).2 ⟨hy.trans hx.symm, fun d => ?_⟩
    show ((place y d : Nat) : Int) = (place x d : Nat) + _
    rw [hxplace, hyplace, Subsingleton.elim d 0]
    rfl
  have hback := hshifts.back x y #v[1] hunit hshift
  rw [show (#v[(1 : Int)]).map (-·) = #v[-1] by simp] at hback
  exact ⟨inferInstance, x, y, hx, hxplace 0, hyplace 0, hshift, hback⟩

end AdaptiveMesh
