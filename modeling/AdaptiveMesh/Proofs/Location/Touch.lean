import AdaptiveMesh.Proofs.Axis
import AdaptiveMesh.Proofs.Location.Laws

/-!
# Boxes that touch

The closed box of a location on the grid of a finer level, and when two of them have a point in
common. A location touches exactly those that are one step away at its own level, lie above such a
location, or lie below one on the side turned to it (`exists_step_of_adjoins`, `adjoins_iff_faces`).
-/

namespace AdaptiveMesh

open LocationCode LawfulLocation

variable {D : Nat} {L : Type} [LocationCode D L]

namespace LocationCode

/-- The closed box of a location, in units of the edge of a node of level `finest`. -/
def closedBox (finest : Nat) (x : L) : Set (Fin D → ℚ) :=
  {p | ∀ d, ((place x d * 2 ^ (finest - level x) : Nat) : ℚ) ≤ p d ∧
    p d ≤ (((place x d + 1) * 2 ^ (finest - level x) : Nat) : ℚ)}

/-- Two closed boxes have a point in common. -/
def Touches (finest : Nat) (x y : L) : Prop := (closedBox finest x ∩ closedBox finest y).Nonempty

/-- Neither box lies beyond the other along any axis, said on the product of both grids. -/
def Adjoins (x y : L) : Prop :=
  ∀ d, place x d * 2 ^ level y ≤ (place y d + 1) * 2 ^ level x ∧
    place y d * 2 ^ level x ≤ (place x d + 1) * 2 ^ level y

theorem Adjoins.symm {x y : L} (h : Adjoins x y) : Adjoins y x := fun d => (h d).symm

theorem adjoins_comm {x y : L} : Adjoins x y ↔ Adjoins y x := ⟨Adjoins.symm, Adjoins.symm⟩

theorem mul_two_pow_sub_le_iff {a b l m finest : Nat} (hl : l ≤ finest) (hm : m ≤ finest) :
    a * 2 ^ (finest - l) ≤ b * 2 ^ (finest - m) ↔ a * 2 ^ m ≤ b * 2 ^ l := by
  have hpos : 0 < 2 ^ l * 2 ^ m := Nat.mul_pos (Nat.two_pow_pos l) (Nat.two_pow_pos m)
  have hfin : 0 < 2 ^ finest := Nat.two_pow_pos finest
  have ha : a * 2 ^ (finest - l) * (2 ^ l * 2 ^ m) = a * 2 ^ m * 2 ^ finest := by
    rw [← Nat.sub_add_cancel hl, Nat.pow_add, Nat.add_sub_cancel]
    ring
  have hb : b * 2 ^ (finest - m) * (2 ^ l * 2 ^ m) = b * 2 ^ l * 2 ^ finest := by
    rw [← Nat.sub_add_cancel hm, Nat.pow_add, Nat.add_sub_cancel]
    ring
  rw [← Nat.mul_le_mul_right_iff hpos, ha, hb, Nat.mul_le_mul_right_iff hfin]

theorem touches_iff_adjoins {finest : Nat} {x y : L} (hx : level x ≤ finest)
    (hy : level y ≤ finest) : Touches finest x y ↔ Adjoins x y := by
  constructor
  · rintro ⟨p, hpx, hpy⟩ d
    obtain ⟨h₁, h₂⟩ := hpx d
    obtain ⟨h₃, h₄⟩ := hpy d
    have hxy := h₁.trans h₄
    have hyx := h₃.trans h₂
    rw [Nat.cast_le] at hxy hyx
    exact ⟨(mul_two_pow_sub_le_iff hx hy).1 hxy, (mul_two_pow_sub_le_iff hy hx).1 hyx⟩
  · intro h
    -- the larger of the two lower ends lies in both intervals
    refine ⟨fun d => ((max (place x d * 2 ^ (finest - level x))
      (place y d * 2 ^ (finest - level y)) : Nat) : ℚ), fun d => ?_, fun d => ?_⟩
    · exact ⟨Nat.cast_le.2 (le_max_left _ _), Nat.cast_le.2 (max_le
        (Nat.mul_le_mul_right _ (Nat.le_succ _)) ((mul_two_pow_sub_le_iff hy hx).2 (h d).2))⟩
    · exact ⟨Nat.cast_le.2 (le_max_right _ _), Nat.cast_le.2 (max_le
        ((mul_two_pow_sub_le_iff hx hy).2 (h d).1) (Nat.mul_le_mul_right _ (Nat.le_succ _)))⟩

/-- Against a location `n` levels further down, the grid of that one is enough. -/
theorem adjoins_iff_of_level {x y : L} {n : Nat} (h : level y = level x + n) :
    Adjoins x y ↔ ∀ d, place x d * 2 ^ n ≤ place y d + 1 ∧ place y d ≤ (place x d + 1) * 2 ^ n := by
  have hpos : 0 < 2 ^ level x := Nat.two_pow_pos _
  have hpow : 2 ^ level y = 2 ^ n * 2 ^ level x := by rw [h, Nat.pow_add, Nat.mul_comm]
  refine forall_congr' fun d => and_congr ?_ ?_
  · rw [hpow, ← Nat.mul_assoc, Nat.mul_le_mul_right_iff hpos]
  · rw [hpow, ← Nat.mul_assoc, Nat.mul_le_mul_right_iff hpos]

/-- What a box covers is some `n` levels further down, with `n` low bits behind the box's place. -/
theorem Covers.exists_place_eq {x y : L} (h : Covers x y) : ∃ n, level y = level x + n ∧
    ∀ d, place x d * 2 ^ n + place y d % 2 ^ n = place y d := by
  obtain ⟨n, hn⟩ := Nat.exists_eq_add_of_le h.1
  refine ⟨n, hn, fun d => ?_⟩
  rw [h.2 d, hn, Nat.add_sub_cancel_left]
  exact Nat.div_add_mod' _ _

/-- Whatever lies around a box that touches a location touches it too. -/
theorem Adjoins.of_covers {x y z : L} (h : Adjoins x y) (hz : Covers z y) : Adjoins x z := by
  obtain ⟨n, hn, hplace⟩ := hz.exists_place_eq
  have hpos := Nat.two_pow_pos n
  intro d
  have hd := hplace d
  have hlt := Nat.mod_lt (place y d) hpos
  have hlow : place z d * 2 ^ n ≤ place y d := by omega
  have hup : place y d + 1 ≤ (place z d + 1) * 2 ^ n := by
    rw [Nat.add_mul, Nat.one_mul]
    omega
  obtain ⟨h₁, h₂⟩ := h d
  rw [hn, Nat.pow_add] at h₁ h₂
  constructor
  · refine Nat.le_of_mul_le_mul_right ?_ hpos
    calc place x d * 2 ^ level z * 2 ^ n = place x d * (2 ^ level z * 2 ^ n) := Nat.mul_assoc _ _ _
      _ ≤ (place y d + 1) * 2 ^ level x := h₁
      _ ≤ (place z d + 1) * 2 ^ n * 2 ^ level x := Nat.mul_le_mul_right _ hup
      _ = (place z d + 1) * 2 ^ level x * 2 ^ n := Nat.mul_right_comm _ _ _
  · refine Nat.le_of_mul_le_mul_right ?_ hpos
    calc place z d * 2 ^ level x * 2 ^ n = place z d * 2 ^ n * 2 ^ level x := Nat.mul_right_comm _ _ _
      _ ≤ place y d * 2 ^ level x := Nat.mul_le_mul_right _ hlow
      _ ≤ (place x d + 1) * (2 ^ level z * 2 ^ n) := h₂
      _ = (place x d + 1) * 2 ^ level z * 2 ^ n := (Nat.mul_assoc _ _ _).symm

/-! ## One step away -/

/-- `y` is the location one step from `x` in a direction. -/
def IsStep (d : Direction D) (x y : L) : Prop :=
  level y = level x ∧ ∀ i, (place y i : Int) = place x i + d.offset.get i

variable [LawfulLocation L]

theorem shift_eq_some_iff_isStep {x y : L} {d : Direction D} :
    shift x d.offset = .ok (some y) ↔ IsStep d x y :=
  shift_eq_some_iff d.isUnit

omit [LawfulLocation L] in
theorem IsStep.adjoins {d : Direction D} {x y : L} (h : IsStep d x y) : Adjoins x y := by
  rw [adjoins_iff_of_level (n := 0) h.1]
  intro i
  have := h.2 i
  have := d.isUnit i
  simp only [Nat.pow_zero, Nat.mul_one]
  omega

omit [LawfulLocation L] in
theorem IsStep.ne {d : Direction D} {x y : L} (h : IsStep d x y) : y ≠ x := by
  rintro rfl
  obtain ⟨i, hi⟩ := d.exists_get_ne_zero
  have := h.2 i
  omega

/-- One step leads to one location. -/
theorem IsStep.unique {d : Direction D} {x y z : L} (hy : IsStep d x y) (hz : IsStep d x z) :
    z = y :=
  ext (hz.1.trans hy.1.symm) fun i => by
    have := hy.2 i
    have := hz.2 i
    omega

/-- A location above one that is a step away touches. -/
theorem IsStep.adjoins_of_isAncestorOf {d : Direction D} {x y z : L} (h : IsStep d x y)
    (hz : isAncestorOf z y = true) : Adjoins x z := by
  obtain ⟨n, hn, hplace⟩ := (covers_iff.2 (.inr hz)).exists_place_eq
  rw [adjoins_comm, adjoins_iff_of_level (n := n) (h.1 ▸ hn)]
  intro i
  have hi := h.2 i
  have hu := d.isUnit i
  have hmod := hplace i
  have hlt := Nat.mod_lt (place y i) (Nat.two_pow_pos n)
  rw [Nat.add_mul, Nat.one_mul]
  omega

/-! ## The side turned to a neighbour -/

/-- Every step of the path from `x` down to `y` keeps to the side facing against `d`. -/
def Faces (d : Direction D) (x y : L) : Prop :=
  ∀ l, level x < l → l ≤ level y → ∀ i : Fin D, d.offset.get i = 0 ∨
    (childPosition y l).side i = -d.offset.get i

/-- The `k` low bits are all `b` exactly if they make `0` or `2 ^ k - 1`. -/
theorem forall_testBit_eq_iff {n k : Nat} (b : Bool) :
    (∀ j < k, n.testBit j = b) ↔ n % 2 ^ k = if b then 2 ^ k - 1 else 0 := by
  have hbit (j : Nat) : (if b then 2 ^ k - 1 else 0).testBit j = (decide (j < k) && b) := by
    cases b with
    | false => rw [if_neg Bool.false_ne_true, Nat.zero_testBit, Bool.and_false]
    | true => rw [if_pos rfl, Nat.testBit_two_pow_sub_one, Bool.and_true]
  constructor
  · intro h
    refine Nat.eq_of_testBit_eq fun j => ?_
    rw [Nat.testBit_mod_two_pow, hbit]
    by_cases hj : j < k
    · rw [h j hj]
    · rw [decide_eq_false hj, Bool.false_and, Bool.false_and]
  · intro h j hj
    have := congrArg (Nat.testBit · j) h
    simpa only [Nat.testBit_mod_two_pow, hbit, decide_eq_true hj, Bool.true_and] using this

theorem side_eq_iff {p : ChildPosition D} {i : Nat} (b : Bool) :
    p.side i = (if b then 1 else -1) ↔ p.isPositive i = b := by
  unfold ChildPosition.side
  cases p.isPositive i <;> cases b <;> simp

/-- Below `x` the path keeps to one side along an axis exactly if the low bits of the place do. -/
theorem forall_side_eq_iff {x y : L} {n : Nat} (h : level y = level x + n) (i : Fin D) (b : Bool) :
    (∀ l, level x < l → l ≤ level y → (childPosition y l).side i = if b then 1 else -1) ↔
      place y i % 2 ^ n = if b then 2 ^ n - 1 else 0 := by
  rw [← forall_testBit_eq_iff]
  constructor
  · intro hl j hj
    have := (side_eq_iff b).1 (hl (level y - j) (by omega) (by omega))
    rwa [isPositive_childPosition y (by omega) (by omega),
      show level y - (level y - j) = j by omega] at this
  · intro hj l h₁ h₂
    rw [side_eq_iff, isPositive_childPosition y (by omega) h₂]
    exact hj _ (by omega)

theorem faces_iff {d : Direction D} {x y : L} {n : Nat} (h : level y = level x + n) :
    Faces d x y ↔ ∀ i : Fin D, (d.offset.get i = 1 → place y i % 2 ^ n = 0) ∧
      (d.offset.get i = -1 → place y i % 2 ^ n = 2 ^ n - 1) := by
  have hlow (i : Fin D) := forall_side_eq_iff h i false
  have hup (i : Fin D) := forall_side_eq_iff h i true
  constructor
  · intro hf i
    constructor
    · intro ho
      refine (hlow i).1 fun l h₁ h₂ => ?_
      rw [(hf l h₁ h₂ i).resolve_left (by omega), ho]
      rfl
    · intro ho
      refine (hup i).1 fun l h₁ h₂ => ?_
      rw [(hf l h₁ h₂ i).resolve_left (by omega), ho]
      rfl
  · intro hm l h₁ h₂ i
    have hu := d.isUnit i
    obtain ho | ho | ho : d.offset.get i = 0 ∨ d.offset.get i = 1 ∨ d.offset.get i = -1 := by omega
    · exact Or.inl ho
    · right
      rw [ho]
      exact (hlow i).2 ((hm i).1 ho) l h₁ h₂
    · right
      rw [ho, neg_neg]
      exact (hup i).2 ((hm i).2 ho) l h₁ h₂

/-- Below a location that is a step away, exactly the locations on the near side touch. -/
theorem IsStep.adjoins_iff_faces {d : Direction D} {x y z : L} (h : IsStep d x y)
    (hz : isAncestorOf y z = true) : Adjoins x z ↔ Faces d y z := by
  obtain ⟨n, hn, hplace⟩ := (covers_iff.2 (.inr hz)).exists_place_eq
  rw [adjoins_iff_of_level (n := n) (h.1 ▸ hn), faces_iff hn]
  refine forall_congr' fun i => ?_
  have hi := h.2 i
  have hu := d.isUnit i
  have hmod := hplace i
  have hlt := Nat.mod_lt (place z i) (Nat.two_pow_pos n)
  rw [Nat.add_mul, Nat.one_mul]
  obtain ho | ho | ho : d.offset.get i = 0 ∨ d.offset.get i = 1 ∨ d.offset.get i = -1 := by omega
  · have : place y i = place x i := by omega
    rw [this] at hmod
    simp only [ho]
    omega
  · have : place y i = place x i + 1 := by omega
    rw [this, Nat.add_mul, Nat.one_mul] at hmod
    refine ⟨fun hb => ⟨fun _ => by omega, fun ho' => by omega⟩, fun hf => ?_⟩
    have := hf.1 ho
    omega
  · have : place x i = place y i + 1 := by omega
    rw [this, Nat.add_mul, Nat.one_mul]
    refine ⟨fun hb => ⟨fun ho' => by omega, fun _ => by omega⟩, fun hf => ?_⟩
    have := hf.2 ho
    omega

/-- A box that touches a location has a box of any level as fine as both in it that does. -/
theorem exists_covers_adjoins {x y : L} {l : Nat} (hx : level x ≤ l) (hy : level y ≤ l)
    (hl : l ≤ maxLevel L) (h : Adjoins x y) : ∃ z, level z = l ∧ Covers y z ∧ Adjoins x z := by
  obtain ⟨a, rfl⟩ := Nat.exists_eq_add_of_le hx
  obtain ⟨n, hn⟩ := Nat.exists_eq_add_of_le hy
  have hpos := Nat.two_pow_pos n
  have hsub₁ : level x + a - level x = a := by omega
  have hsub₂ : level x + a - level y = n := by omega
  have htouch (d : Fin D) : place x d * 2 ^ a ≤ (place y d + 1) * 2 ^ n ∧
      place y d * 2 ^ n ≤ (place x d + 1) * 2 ^ a := by
    rw [← hsub₁, ← hsub₂, mul_two_pow_sub_le_iff hx hy, mul_two_pow_sub_le_iff hy hx]
    exact h d
  -- the box nearest to the lowest corner of `x`
  let near (d : Fin D) : Nat :=
    max (place y d * 2 ^ n) (min (place x d * 2 ^ a) ((place y d + 1) * 2 ^ n - 1))
  have hnear (d : Fin D) : near d =
      max (place y d * 2 ^ n) (min (place x d * 2 ^ a) ((place y d + 1) * 2 ^ n - 1)) := rfl
  simp only [Nat.add_mul, Nat.one_mul] at htouch hnear
  have hdiv (d : Fin D) : near d / 2 ^ n = place y d := by
    rw [Nat.div_eq_iff hpos, hnear]
    omega
  obtain ⟨z, hzl, hzp⟩ := exists_location (L := L) hl near fun d => by
    have := place_lt y d
    rw [hn, Nat.pow_add, ← Nat.div_lt_iff_lt_mul hpos, hdiv]
    exact this
  refine ⟨z, hzl, ⟨by omega, fun d => ?_⟩, (adjoins_iff_of_level hzl).2 fun d => ?_⟩
  · rw [hzp, hzl, hn, Nat.add_sub_cancel_left, hdiv]
  · have := htouch d
    have := Nat.two_pow_pos a
    rw [hzp, hnear, Nat.add_mul, Nat.one_mul]
    omega

/-- Whatever touches a location at its own level is one step away. -/
theorem exists_isStep {x z : L} (hl : level z = level x) (hne : z ≠ x) (h : Adjoins x z) :
    ∃ d, IsStep d x z := by
  rw [adjoins_iff_of_level (n := 0) hl] at h
  have hmoved : ∃ i, (place z i : Int) - place x i ≠ 0 := by
    by_contra hall
    simp only [not_exists, not_not] at hall
    exact hne (ext hl fun i => by have := hall i; omega)
  obtain ⟨d, hd⟩ := Direction.exists_direction (fun i => by
    have := h i
    simp only [Nat.pow_zero, Nat.mul_one] at this
    omega) hmoved
  refine ⟨d, hl, fun i => ?_⟩
  rw [hd]
  omega

/-- Whatever touches a location, without being it or above or below it, lies at, above or below a
location one step away. -/
theorem exists_step_of_adjoins {x y : L} (h : Adjoins x y) (hne : y ≠ x)
    (hxy : isAncestorOf x y = false) (hyx : isAncestorOf y x = false) :
    ∃ d z, IsStep d x z ∧ (y = z ∨ isAncestorOf y z = true ∨ isAncestorOf z y = true) := by
  rcases Nat.le_total (level y) (level x) with hl | hl
  · -- `y` is as coarse or coarser: one of the boxes in it of the level of `x` touches
    obtain ⟨z, hzl, hyz, hxz⟩ := exists_covers_adjoins le_rfl hl (level_le x) h
    have hzx : z ≠ x := fun he => (covers_iff.1 (he ▸ hyz)).elim hne (Bool.eq_false_iff.1 hyx)
    obtain ⟨d, hstep⟩ := exists_isStep hzl hzx hxz
    exact ⟨d, z, hstep, (covers_iff.1 hyz).imp_right Or.inl⟩
  · -- `y` is as fine or finer: what lies around it at the level of `x` touches
    have hzy := covers_above (x := y) hl
    have hzx : above y (level x) ≠ x := fun he =>
      (covers_iff.1 (he ▸ hzy)).elim (fun hxy' => hne hxy'.symm) (Bool.eq_false_iff.1 hxy)
    obtain ⟨d, hstep⟩ := exists_isStep (level_above hl) hzx (h.of_covers hzy)
    exact ⟨d, _, hstep, (covers_iff.1 hzy).imp Eq.symm Or.inr⟩

end LocationCode

end AdaptiveMesh
