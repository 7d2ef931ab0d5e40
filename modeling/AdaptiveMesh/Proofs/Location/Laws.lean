import AdaptiveMesh.Location.Basic
import Mathlib

/-!
# Laws of locations

What every stored form of locations has in common: a location is its level and its place along
each axis, and going down doubles a place and adds the child's side. `LawfulLocation` holds these
laws; everything that locations are asked for follows from them and is stated here through
`level` and `place`.
-/

namespace AdaptiveMesh

open LocationCode

variable {D : Nat} {L : Type} [LocationCode D L]

/-- A child position is its sides. -/
theorem ChildPosition.ext_isPositive {p q : ChildPosition D}
    (h : ∀ d : Fin D, p.isPositive d = q.isPositive d) : p = q := by
  refine Fin.ext (Nat.eq_of_testBit_eq fun i => ?_)
  rcases Nat.lt_or_ge i D with hi | hi
  · exact h ⟨i, hi⟩
  · have hpow : 2 ^ D ≤ 2 ^ i := Nat.pow_le_pow_right (by decide) hi
    rw [Nat.testBit_lt_two_pow (Nat.lt_of_lt_of_le p.isLt hpow),
      Nat.testBit_lt_two_pow (Nat.lt_of_lt_of_le q.isLt hpow)]

theorem toNat_bool_injective {a b : Bool} (h : a.toNat = b.toNat) : a = b := by
  cases a <;> cases b <;> simp at h ⊢

namespace LocationCode

/-- Place along an axis, counted in nodes of the location's own level. -/
def place (x : L) (d : Fin D) : Nat := (coordinates x).get d

end LocationCode

/-- A stored form whose locations are levels with places. -/
class LawfulLocation {D : outParam Nat} (L : Type) [LocationCode D L] : Prop where
  maxLevel_lt : maxLevel L < Word.width
  level_le (x : L) : level x ≤ maxLevel L
  place_lt (x : L) (d : Fin D) : place x d < 2 ^ level x
  ext {x y : L} : level x = level y → (∀ d, place x d = place y d) → x = y
  level_root : level (root : L) = 0
  level_push (x : L) (p : ChildPosition D) (h : level x < maxLevel L) :
    level (push x p h) = level x + 1
  place_push (x : L) (p : ChildPosition D) (h : level x < maxLevel L) (d : Fin D) :
    place (push x p h) d = 2 * place x d + (p.isPositive d).toNat
  pop_fst (x : L) (h : 0 < level x) : (pop x h).1 = childPosition x (level x)
  level_pop (x : L) (h : 0 < level x) : level (pop x h).2 = level x - 1
  place_pop (x : L) (h : 0 < level x) (d : Fin D) : place (pop x h).2 d = place x d / 2
  childPosition_eq (x : L) {l : Nat} (h₁ : 1 ≤ l) (h₂ : l ≤ level x) :
    childPosition x l = ChildPosition.ofCoordinates (coordinates x) (level x - l)
  level_ofCoordinates (c : Vector Nat D) (l : Nat) (hl : l ≤ maxLevel L)
    (hc : ∀ d : Fin D, c.get d < 2 ^ l) : level (ofCoordinates c l hl hc : L) = l
  coordinates_ofCoordinates (c : Vector Nat D) (l : Nat) (hl : l ≤ maxLevel L)
    (hc : ∀ d : Fin D, c.get d < 2 ^ l) : coordinates (ofCoordinates c l hl hc : L) = c
  compare_eq (x y : L) : compare x y = depthFirstCompare x y
  isValid_eq (x : L) : isValid x = true

namespace LocationCode

open LawfulLocation

variable [LawfulLocation L]

@[simp] theorem level_root : level (root : L) = 0 := LawfulLocation.level_root

@[simp] theorem place_root (d : Fin D) : place (root : L) d = 0 := by
  have := place_lt (root : L) d
  rw [level_root] at this
  omega

theorem eq_root_iff {x : L} : x = root ↔ level x = 0 := by
  constructor
  · rintro rfl
    exact level_root
  · intro h
    refine ext (by rw [h, level_root]) fun d => ?_
    have := place_lt x d
    rw [h] at this
    rw [place_root]
    omega

theorem level_lt_width (x : L) : level x < Word.width :=
  Nat.lt_of_le_of_lt (level_le x) maxLevel_lt

theorem isPositive_childPosition (x : L) {l : Nat} (h₁ : 1 ≤ l) (h₂ : l ≤ level x) (d : Fin D) :
    (childPosition x l).isPositive d = (place x d).testBit (level x - l) := by
  rw [childPosition_eq x h₁ h₂, ChildPosition.ofCoordinates, ChildPosition.isPositive_ofSides]
  rfl

theorem ext_iff {x y : L} : x = y ↔ level x = level y ∧ ∀ d, place x d = place y d :=
  ⟨fun h => h ▸ ⟨rfl, fun _ => rfl⟩, fun h => ext h.1 h.2⟩

/-- Every level with places below its extent has a location. -/
theorem exists_location {l : Nat} (hl : l ≤ maxLevel L) (p : Fin D → Nat) (hp : ∀ d, p d < 2 ^ l) :
    ∃ x : L, level x = l ∧ ∀ d, place x d = p d := by
  have hc : ∀ d : Fin D, (Vector.ofFn p).get d < 2 ^ l := by simpa using hp
  refine ⟨ofCoordinates (Vector.ofFn p) l hl hc, level_ofCoordinates _ _ _ _, fun d => ?_⟩
  rw [place, coordinates_ofCoordinates]
  simp

/-! ## Parents and children -/

theorem parent?_eq_some_iff {x y : L} : parent? x = some y ↔
    level x = level y + 1 ∧ ∀ d, place y d = place x d / 2 := by
  unfold parent?
  split
  · next h =>
    rw [Option.some.injEq, ext_iff, level_pop]
    simp only [place_pop]
    constructor
    · rintro ⟨h₁, h₂⟩
      exact ⟨by omega, fun d => (h₂ d).symm⟩
    · rintro ⟨h₁, h₂⟩
      exact ⟨by omega, fun d => (h₂ d).symm⟩
  · next h =>
    constructor
    · intro h
      contradiction
    · rintro ⟨h', -⟩
      omega

omit [LawfulLocation L] in
theorem parent?_eq_none_iff {x : L} : parent? x = none ↔ level x = 0 := by
  unfold parent?
  split
  · next h => simp only [reduceCtorEq, false_iff]; omega
  · next h => simp only [true_iff]; omega

omit [LawfulLocation L] in
theorem exists_parent? {x : L} (h : 0 < level x) : ∃ y, parent? x = some y := ⟨_, dif_pos h⟩

theorem child?_eq_some_iff {x y : L} {p : ChildPosition D} : child? x p = some y ↔
    level y = level x + 1 ∧ ∀ d, place y d = 2 * place x d + (p.isPositive d).toNat := by
  unfold child?
  split
  · next h =>
    rw [Option.some.injEq, ext_iff, level_push]
    simp only [place_push]
    constructor
    · rintro ⟨h₁, h₂⟩
      exact ⟨h₁.symm, fun d => (h₂ d).symm⟩
    · rintro ⟨h₁, h₂⟩
      exact ⟨h₁.symm, fun d => (h₂ d).symm⟩
  · next h =>
    constructor
    · intro h
      contradiction
    · rintro ⟨h', -⟩
      have := level_le y
      omega

theorem child?_eq_none_iff {x : L} {p : ChildPosition D} :
    child? x p = none ↔ level x = maxLevel L := by
  have := level_le x
  unfold child?
  split
  · next h => simp only [reduceCtorEq, false_iff]; omega
  · next h => simp only [true_iff]; omega

omit [LawfulLocation L] in
theorem exists_child? {x : L} (h : level x < maxLevel L) (p : ChildPosition D) :
    ∃ y, child? x p = some y := ⟨_, dif_pos h⟩

theorem parent?_of_child? {x y : L} {p : ChildPosition D} (h : child? x p = some y) :
    parent? y = some x := by
  obtain ⟨hl, hp⟩ := child?_eq_some_iff.1 h
  refine parent?_eq_some_iff.2 ⟨hl, fun d => ?_⟩
  have := Bool.toNat_le (p.isPositive d)
  rw [hp]
  omega

theorem child?_childPosition {x y : L} (h : parent? y = some x) :
    child? x (childPosition y (level y)) = some y := by
  obtain ⟨hl, hp⟩ := parent?_eq_some_iff.1 h
  refine child?_eq_some_iff.2 ⟨hl, fun d => ?_⟩
  rw [isPositive_childPosition y (by omega) le_rfl, Nat.sub_self, Nat.testBit_zero, hp]
  rcases Nat.mod_two_eq_zero_or_one (place y d) with h | h <;> simp [h] <;> omega

theorem parent?_eq_some_iff_child? {x y : L} :
    parent? y = some x ↔ ∃ p, child? x p = some y :=
  ⟨fun h => ⟨_, child?_childPosition h⟩, fun ⟨_, h⟩ => parent?_of_child? h⟩

/-! ## Ancestors -/

theorem level_up (n : Nat) (x : L) : level (up n x) = level x - n := by
  induction n generalizing x with
  | zero => simp [up]
  | succ n ih =>
    rw [up]
    split
    · next parent h =>
      have := (parent?_eq_some_iff.1 h).1
      rw [ih]
      omega
    · next h =>
      have := parent?_eq_none_iff.1 h
      omega

theorem place_up (n : Nat) (x : L) (d : Fin D) : place (up n x) d = place x d / 2 ^ n := by
  induction n generalizing x with
  | zero => simp [up]
  | succ n ih =>
    rw [up]
    split
    · next parent h =>
      rw [ih, (parent?_eq_some_iff.1 h).2, Nat.div_div_eq_div_mul, Nat.pow_succ']
    · next h =>
      rw [eq_root_iff.2 (parent?_eq_none_iff.1 h)]
      simp

/-- The ancestor of a location at a level, or the location itself where it is no deeper. -/
def above (x : L) (l : Nat) : L := up (level x - l) x

theorem level_above {x : L} {l : Nat} (h : l ≤ level x) : level (above x l) = l := by
  rw [above, level_up]
  omega

theorem place_above (x : L) (l : Nat) (d : Fin D) :
    place (above x l) d = place x d / 2 ^ (level x - l) := place_up _ _ _

theorem parent?_above {x : L} {l : Nat} (h : l < level x) :
    parent? (above x (l + 1)) = some (above x l) := by
  refine parent?_eq_some_iff.2 ⟨by rw [level_above h, level_above h.le], fun d => ?_⟩
  rw [place_above, place_above, Nat.div_div_eq_div_mul, ← Nat.pow_succ]
  congr 2
  omega

theorem isAncestorOf_iff {a b : L} : isAncestorOf a b = true ↔
    level a < level b ∧ ∀ d, place a d = place b d / 2 ^ (level b - level a) := by
  unfold isAncestorOf
  rw [Bool.and_eq_true, decide_eq_true_eq, decide_eq_true_eq, ext_iff, level_up]
  simp only [place_up]
  constructor
  · rintro ⟨h₁, -, h₂⟩
    exact ⟨h₁, fun d => (h₂ d).symm⟩
  · rintro ⟨h₁, h₂⟩
    exact ⟨h₁, by omega, fun d => (h₂ d).symm⟩

theorem isAncestorOf_above {x : L} {l : Nat} (h : l < level x) :
    isAncestorOf (above x l) x = true := by
  rw [isAncestorOf_iff, level_above (by omega)]
  exact ⟨h, place_above x l⟩

theorem eq_above_of_isAncestorOf {a b : L} (h : isAncestorOf a b = true) :
    a = above b (level a) := by
  obtain ⟨h₁, h₂⟩ := isAncestorOf_iff.1 h
  exact ext (by rw [level_above (by omega)]) fun d => by rw [place_above, h₂]

theorem isAncestorOf_trans {a b c : L} (hab : isAncestorOf a b = true)
    (hbc : isAncestorOf b c = true) : isAncestorOf a c = true := by
  obtain ⟨h₁, h₂⟩ := isAncestorOf_iff.1 hab
  obtain ⟨h₃, h₄⟩ := isAncestorOf_iff.1 hbc
  refine isAncestorOf_iff.2 ⟨by omega, fun d => ?_⟩
  rw [h₂, h₄, Nat.div_div_eq_div_mul, ← Nat.pow_add]
  congr 2
  omega

theorem isAncestorOf_irrefl (a : L) : isAncestorOf a a = false := by
  rw [Bool.eq_false_iff, Ne, isAncestorOf_iff]
  omega

/-- Of two ancestors of one location the one of the lower level is above the other. -/
theorem isAncestorOf_of_level_lt {a b c : L} (hac : isAncestorOf a c = true)
    (hbc : isAncestorOf b c = true) (h : level a < level b) : isAncestorOf a b = true := by
  obtain ⟨h₁, h₂⟩ := isAncestorOf_iff.1 hac
  obtain ⟨h₃, h₄⟩ := isAncestorOf_iff.1 hbc
  refine isAncestorOf_iff.2 ⟨h, fun d => ?_⟩
  rw [h₂, h₄, Nat.div_div_eq_div_mul, ← Nat.pow_add]
  congr 2
  omega

theorem isAncestorOf_of_parent? {a b : L} (h : parent? b = some a) : isAncestorOf a b = true := by
  obtain ⟨hl, hp⟩ := parent?_eq_some_iff.1 h
  refine isAncestorOf_iff.2 ⟨by omega, fun d => ?_⟩
  rw [hp, hl, Nat.add_sub_cancel_left, Nat.pow_one]

theorem parent?_of_isAncestorOf {a b : L} (h : isAncestorOf a b = true)
    (hl : level b = level a + 1) : parent? b = some a := by
  refine parent?_eq_some_iff.2 ⟨hl, fun d => ?_⟩
  rw [(isAncestorOf_iff.1 h).2, hl, Nat.add_sub_cancel_left, Nat.pow_one]

/-- A proper ancestor is the parent or above it. -/
theorem isAncestorOf_iff_parent? {a b p : L} (h : parent? b = some p) :
    isAncestorOf a b = true ↔ a = p ∨ isAncestorOf a p = true := by
  have hp := isAncestorOf_of_parent? h
  have hl := (parent?_eq_some_iff.1 h).1
  constructor
  · intro ha
    rcases Nat.lt_or_ge (level a) (level p) with hlt | hge
    · exact Or.inr (isAncestorOf_of_level_lt ha hp hlt)
    · have : level a = level p := by
        have := (isAncestorOf_iff.1 ha).1
        omega
      left
      rw [eq_above_of_isAncestorOf ha, eq_above_of_isAncestorOf hp, this]
  · rintro (rfl | ha)
    · exact hp
    · exact isAncestorOf_trans ha hp

theorem mem_ancestorsWithin {n : Nat} {x y : L} (hn : level x ≤ n) :
    y ∈ ancestorsWithin n x ↔ isAncestorOf y x = true := by
  induction n generalizing x with
  | zero =>
    have : ¬ isAncestorOf y x = true := fun h => by
      have := (isAncestorOf_iff.1 h).1
      omega
    simp [ancestorsWithin, this]
  | succ n ih =>
    rw [ancestorsWithin]
    split
    · next parent h =>
      have := (parent?_eq_some_iff.1 h).1
      rw [List.mem_cons, ih (by omega), isAncestorOf_iff_parent? h]
    · next h =>
      have := parent?_eq_none_iff.1 h
      simp only [List.not_mem_nil, false_iff, isAncestorOf_iff]
      omega

/-- Ancestors are listed upwards. -/
theorem pairwise_ancestorsWithin {n : Nat} {x : L} (hn : level x ≤ n) :
    (ancestorsWithin n x).Pairwise fun y z => isAncestorOf z y = true := by
  induction n generalizing x with
  | zero => exact List.Pairwise.nil
  | succ n ih =>
    rw [ancestorsWithin]
    split
    · next parent h =>
      have hl := (parent?_eq_some_iff.1 h).1
      refine List.Pairwise.cons (fun y hy => ?_) (ih (by omega))
      exact (mem_ancestorsWithin (by omega)).1 hy
    · exact List.Pairwise.nil

theorem mem_ancestors {x y : L} : y ∈ ancestors x ↔ isAncestorOf y x = true :=
  mem_ancestorsWithin le_rfl

/-! ## Boxes inside boxes -/

/-- The box of `y` lies in that of `x`. -/
def Covers (x y : L) : Prop :=
  level x ≤ level y ∧ ∀ d, place x d = place y d / 2 ^ (level y - level x)

theorem covers_iff {x y : L} : Covers x y ↔ x = y ∨ isAncestorOf x y = true := by
  rw [isAncestorOf_iff]
  constructor
  · rintro ⟨hl, hp⟩
    rcases Nat.lt_or_eq_of_le hl with hlt | heq
    · exact Or.inr ⟨hlt, hp⟩
    · refine Or.inl (ext heq fun d => ?_)
      rw [hp, heq, Nat.sub_self, Nat.pow_zero, Nat.div_one]
  · rintro (rfl | ⟨hl, hp⟩)
    · exact ⟨le_rfl, fun d => by rw [Nat.sub_self, Nat.pow_zero, Nat.div_one]⟩
    · exact ⟨hl.le, hp⟩

theorem covers_refl (x : L) : Covers x x := covers_iff.2 (Or.inl rfl)

theorem covers_above {x : L} {l : Nat} (h : l ≤ level x) : Covers (above x l) x := by
  unfold Covers
  rw [level_above h]
  exact ⟨h, place_above x l⟩

theorem Covers.trans {x y z : L} (hxy : Covers x y) (hyz : Covers y z) : Covers x z := by
  rcases covers_iff.1 hxy with rfl | h₁
  · exact hyz
  · rcases covers_iff.1 hyz with rfl | h₂
    · exact hxy
    · exact covers_iff.2 (Or.inr (isAncestorOf_trans h₁ h₂))

omit [LawfulLocation L] in
/-- Of two boxes around one box the smaller lies in the larger. -/
theorem Covers.of_level_le {x y z : L} (hxz : Covers x z) (hyz : Covers y z)
    (h : level x ≤ level y) : Covers x y := by
  refine ⟨h, fun d => ?_⟩
  obtain ⟨h₁, h₂⟩ := hxz
  obtain ⟨h₃, h₄⟩ := hyz
  rw [h₂, h₄, Nat.div_div_eq_div_mul, ← Nat.pow_add]
  congr 2
  omega

theorem Covers.eq_of_level_eq {x y z : L} (hxz : Covers x z) (hyz : Covers y z)
    (h : level x = level y) : x = y := by
  refine ext h fun d => ?_
  rw [hxz.2, hyz.2, h]

/-! ## Shifts -/

theorem locate_eq_ok_iff {c : Vector Nat D} {l : Nat} {x : L} :
    locate c l = .ok x ↔ level x = l ∧ ∀ d, place x d = c.get d := by
  unfold locate
  constructor
  · split
    · next hl =>
      split
      · next hc =>
        intro h
        rw [← Except.ok.inj h]
        exact ⟨level_ofCoordinates c l hl hc, fun d => by
          rw [place, coordinates_ofCoordinates c l hl hc]⟩
      · split <;> intro h <;> contradiction
    · intro h
      contradiction
  · rintro ⟨rfl, h⟩
    have hc : ∀ d : Fin D, c.get d < 2 ^ level x := fun d => h d ▸ place_lt x d
    rw [dif_pos (level_le x), dif_pos hc]
    refine congrArg Except.ok (ext (level_ofCoordinates _ _ _ _) fun d => ?_)
    rw [h, place, coordinates_ofCoordinates]

/-- The place along an axis after an offset, which may be outside the root. -/
def movedPlace (x : L) (o : Offset D) (d : Fin D) : Int := place x d + o.get d

/-- A shift by a unit offset is never refused. It leads to the location of the same level at the
moved places, if those are inside the root. -/
theorem shift_eq (x : L) {o : Offset D} (ho : o.IsUnit) :
    (∃ y, shift x o = .ok (some y) ∧ level y = level x ∧ ∀ d, (place y d : Int) = movedPlace x o d) ∨
      shift x o = .ok none ∧ ∃ d, ¬ (0 ≤ movedPlace x o d ∧ movedPlace x o d < (2 ^ level x : Nat)) := by
  have hfind : (List.finRange D).find? (fun d => decide (1 < (o.get d).natAbs)) = none := by
    rw [List.find?_eq_none]
    intro d _
    have := ho d
    simp only [decide_eq_true_eq]
    omega
  have hextent := Word.twoPow_of_lt (level_lt_width x)
  have hmoved (d : Fin D) : (Vector.ofFn fun d => ((coordinates x).get d : Int) + o.get d).get d =
      movedPlace x o d := by
    simp [movedPlace, place]
  unfold shift
  rw [hfind, hextent]
  simp only [hmoved]
  by_cases hin : ∀ d, 0 ≤ movedPlace x o d ∧ movedPlace x o d < (2 ^ level x : Nat)
  · left
    obtain ⟨y, hl, hp⟩ := exists_location (level_le x) (fun d => (movedPlace x o d).toNat)
      fun d => by have := hin d; omega
    have hy (d : Fin D) : (place y d : Int) = movedPlace x o d := by
      have := hin d
      rw [hp]
      omega
    refine ⟨y, ?_, hl, hy⟩
    have hlocate : locate ((Vector.ofFn fun d => ((coordinates x).get d : Int) + o.get d).map
        Int.toNat) (level x) = .ok y := by
      refine locate_eq_ok_iff.2 ⟨hl, fun d => ?_⟩
      rw [hp, ← hmoved]
      simp
    rw [hlocate]
    exact if_pos hin
  · right
    exact ⟨if_neg hin, not_forall.1 hin⟩

theorem shift_eq_some_iff {x y : L} {o : Offset D} (ho : o.IsUnit) :
    shift x o = .ok (some y) ↔ level y = level x ∧ ∀ d, (place y d : Int) = movedPlace x o d := by
  constructor
  · intro h
    rcases shift_eq x ho with ⟨z, hz, hl, hp⟩ | ⟨hn, -⟩
    · rw [h] at hz
      obtain rfl : y = z := by simpa using hz
      exact ⟨hl, hp⟩
    · rw [h] at hn
      simp at hn
  · rintro ⟨hl, hp⟩
    rcases shift_eq x ho with ⟨z, hz, hl', hp'⟩ | ⟨-, d, hd⟩
    · rw [hz, ext (x := y) (y := z) (by omega) fun d => by have := hp d; have := hp' d; omega]
    · have := place_lt y d
      rw [hl] at this
      have := hp d
      omega

theorem shift_eq_none_iff {x : L} {o : Offset D} (ho : o.IsUnit) : shift x o = .ok none ↔
    ∃ d, ¬ (0 ≤ movedPlace x o d ∧ movedPlace x o d < (2 ^ level x : Nat)) := by
  cases shift_eq x ho with
  | inl h =>
    obtain ⟨y, hy, hlevel, hplace⟩ := h
    refine iff_of_false (by simp [hy]) fun ⟨d, hd⟩ => hd ?_
    have hlt := place_lt y d
    rw [← hplace d, ← hlevel]
    omega
  | inr h => exact iff_of_true h.1 h.2

theorem shift_ok (x : L) {o : Offset D} (ho : o.IsUnit) : ∃ r, shift x o = .ok r := by
  rcases shift_eq x ho with ⟨y, hy, -⟩ | ⟨hn, -⟩
  · exact ⟨_, hy⟩
  · exact ⟨_, hn⟩

end LocationCode

end AdaptiveMesh
