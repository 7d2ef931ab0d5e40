import AdaptiveMesh.Location.Morton
import AdaptiveMesh.Proofs.Location.Order

/-!
# Morton locations are lawful

Every code but the root's is the code of its parent with `D` more bits behind it (`push_pop`), so
each law is proved along the path. The code of an ancestor is the front part of a code, which is
why comparing codes cut to one length compares paths.
-/

namespace AdaptiveMesh

namespace MortonLocation

open LocationCode (place path length_path)

variable {D w : Nat}

theorem ext_code {x y : MortonLocation D w} (h : x.code.toNat = y.code.toNat) : x = y := by
  obtain ⟨a, ha, ha'⟩ := x
  obtain ⟨b, hb, hb'⟩ := y
  obtain rfl : a = b := BitVec.eq_of_toNat_eq h
  rfl

theorem toNat_code_push (x : MortonLocation D w) (p : ChildPosition D)
    (h : x.level < maxLevel D w) : (x.push p h).code.toNat = 2 ^ D * x.code.toNat + p.val :=
  toNat_push x p h

theorem toNat_code_pop (x : MortonLocation D w) (h : 0 < x.level) :
    (x.pop h).2.code.toNat = x.code.toNat / 2 ^ D := by
  rw [pop]
  simp only
  rw [BitVec.toNat_ushiftRight, Nat.shiftRight_eq_div_pow]

theorem dim_pos_of_level_pos {x : MortonLocation D w} (h : 0 < x.level) : 0 < D := by
  rcases Nat.eq_zero_or_pos D with rfl | hD
  · simp [level] at h
  · exact hD

theorem level_le_maxLevel (x : MortonLocation D w) : x.level ≤ maxLevel D w :=
  Nat.div_le_div_right (Nat.le_sub_one_of_lt x.log2_code_lt)

theorem level_pop_add_one (x : MortonLocation D w) (h : 0 < x.level) :
    (x.pop h).2.level + 1 = x.level := by
  have hD := dim_pos_of_level_pos h
  have hlog : D ≤ x.code.toNat.log2 := by
    rw [log2_code]
    exact Nat.le_mul_of_pos_right D h
  have := (log2_div_two_pow hlog x.code_ne_zero).2
  rw [level, level, toNat_code_pop, ← this, Nat.add_div_right _ hD]

theorem level_pop_lt (x : MortonLocation D w) (h : 0 < x.level) :
    (x.pop h).2.level < maxLevel D w := by
  have := level_pop_add_one x h
  have := level_le_maxLevel x
  omega

/-- A location below the root is its parent with the last position put behind. -/
theorem push_pop (x : MortonLocation D w) (h : 0 < x.level) :
    (x.pop h).2.push (x.pop h).1 (level_pop_lt x h) = x := by
  refine ext_code ?_
  rw [toNat_code_push, toNat_code_pop]
  exact Nat.div_add_mod _ _

theorem eq_root_of_level_eq_zero [CodeWidth w] {x : MortonLocation D w} (h : x.level = 0) :
    x = root := by
  have hlog : x.code.toNat.log2 = 0 := by rw [log2_code, h, Nat.mul_zero]
  have h₁ := Nat.log2_self_le x.code_ne_zero
  have h₂ := Nat.lt_log2_self (n := x.code.toNat)
  rw [hlog] at h₁ h₂
  simp only [Nat.pow_zero, Nat.zero_add, Nat.pow_one] at h₁ h₂
  refine ext_code ?_
  rw [root, toNat_one]
  omega

/-- Every location is the root or a push. -/
theorem push_cases [CodeWidth w] {motive : MortonLocation D w → Prop} (root : motive root)
    (push : ∀ (x : MortonLocation D w) p (h : x.level < maxLevel D w), motive (x.push p h))
    (x : MortonLocation D w) : motive x := by
  rcases Nat.eq_zero_or_pos x.level with h | h
  · rw [eq_root_of_level_eq_zero h]
    exact root
  · rw [← push_pop x h]
    exact push _ _ _

/-- Every location comes from the root by pushes. -/
theorem push_induction [CodeWidth w] {motive : MortonLocation D w → Prop} (root : motive root)
    (push : ∀ x p (h : x.level < maxLevel D w), motive x → motive (x.push p h))
    (x : MortonLocation D w) : motive x := by
  induction hl : x.level generalizing x with
  | zero =>
    rw [eq_root_of_level_eq_zero hl]
    exact root
  | succ l ih =>
    cases x using push_cases with
    | root => exact root
    | push x p h =>
      rw [level_push] at hl
      exact push x p h (ih x (Nat.succ.inj hl))

/-- Two locations of one level come from the root by pushes made side by side. -/
theorem push_induction₂ [CodeWidth w]
    {motive : ∀ x y : MortonLocation D w, x.level = y.level → Prop} (root : motive root root rfl)
    (push : ∀ x y p q (hx : x.level < maxLevel D w) (hy : y.level < maxLevel D w)
      (h : x.level = y.level), motive x y h →
        motive (x.push p hx) (y.push q hy) (by rw [level_push, level_push, h]))
    (x y : MortonLocation D w) (h : x.level = y.level) : motive x y h := by
  induction x using push_induction generalizing y with
  | root =>
    cases y using push_cases with
    | root => exact root
    | push y q hy =>
      rw [level_root, level_push] at h
      omega
  | push x p hx ih =>
    cases y using push_cases with
    | root =>
      rw [level_root, level_push] at h
      omega
    | push y q hy =>
      have hxy : x.level = y.level := by
        rw [level_push, level_push] at h
        exact Nat.succ.inj h
      exact push x y p q hx hy hxy (ih y hxy)

/-! ## Positions along the path -/

theorem childPosition_push_self (x : MortonLocation D w) (p : ChildPosition D)
    (h : x.level < maxLevel D w) : (x.push p h).childPosition (x.level + 1) = p := by
  refine Fin.ext ?_
  rw [childPosition]
  simp only
  rw [level_push, Nat.sub_self, Nat.zero_mul, BitVec.ushiftRight_zero, toNat_code_push,
    Nat.mul_add_mod, Nat.mod_eq_of_lt p.isLt]

/-- In front of the last position a push has the code of the parent. -/
theorem shiftRight_code_push (x : MortonLocation D w) (p : ChildPosition D)
    (h : x.level < maxLevel D w) {l : Nat} (hl : l ≤ x.level) :
    (x.push p h).code >>> ((x.level + 1 - l) * D) = x.code >>> ((x.level - l) * D) := by
  have hshift : (x.level + 1 - l) * D = D + (x.level - l) * D := by
    rw [show x.level + 1 - l = 1 + (x.level - l) by omega, Nat.add_mul, Nat.one_mul]
  have hparent : (x.push p h).code >>> D = x.code := by
    refine BitVec.eq_of_toNat_eq ?_
    rw [BitVec.toNat_ushiftRight, Nat.shiftRight_eq_div_pow, toNat_code_push,
      Nat.mul_add_div (Nat.two_pow_pos D), Nat.div_eq_of_lt p.isLt, Nat.add_zero]
  rw [hshift, BitVec.shiftRight_add, hparent]

theorem childPosition_push_of_le (x : MortonLocation D w) (p : ChildPosition D)
    (h : x.level < maxLevel D w) {l : Nat} (hl : l ≤ x.level) :
    (x.push p h).childPosition l = x.childPosition l := by
  refine Fin.ext ?_
  rw [childPosition, childPosition]
  simp only
  rw [level_push, shiftRight_code_push x p h hl]

theorem coordinates_push (x : MortonLocation D w) (p : ChildPosition D)
    (h : x.level < maxLevel D w) : (x.push p h).coordinates =
      Vector.ofFn fun d => 2 * x.coordinates.get d + (p.isPositive d).toNat := by
  rw [coordinates, coordinates, level_push, List.range_succ, List.foldl_append, List.foldl_cons,
    List.foldl_nil, childPosition_push_self]
  have hfold (ls : List Nat) (hls : ∀ l ∈ ls, l < x.level) (c : Vector Nat D) :
      ls.foldl (fun place l => Vector.ofFn fun d =>
        2 * place.get d + (((x.push p h).childPosition (l + 1)).isPositive d).toNat) c =
      ls.foldl (fun place l => Vector.ofFn fun d =>
        2 * place.get d + ((x.childPosition (l + 1)).isPositive d).toNat) c := by
    induction ls generalizing c with
    | nil => rfl
    | cons l ls ih =>
      have hl := hls l List.mem_cons_self
      rw [List.foldl_cons, List.foldl_cons, childPosition_push_of_le x p h (by omega)]
      exact ih (fun l' hl' => hls l' (List.mem_cons_of_mem _ hl')) _
  rw [hfold _ (fun l hl => List.mem_range.1 hl)]

variable [CodeWidth w]

theorem place_push_eq (x : MortonLocation D w) (p : ChildPosition D) (h : x.level < maxLevel D w)
    (d : Fin D) : place (x.push p h) d = 2 * place x d + (p.isPositive d).toNat := by
  change (x.push p h).coordinates.get d = 2 * x.coordinates.get d + _
  rw [coordinates_push]
  simp

theorem place_root_eq (d : Fin D) : place (root : MortonLocation D w) d = 0 := by
  change (root : MortonLocation D w).coordinates.get d = 0
  rw [coordinates, level_root]
  simp

theorem place_lt_two_pow (x : MortonLocation D w) (d : Fin D) : place x d < 2 ^ x.level := by
  induction x using push_induction with
  | root =>
    rw [place_root_eq]
    exact Nat.two_pow_pos _
  | push x p h ih =>
    have := Bool.toNat_le (p.isPositive d)
    rw [place_push_eq, level_push, Nat.pow_succ]
    omega

theorem place_pop_eq (x : MortonLocation D w) (h : 0 < x.level) (d : Fin D) :
    place (x.pop h).2 d = place x d / 2 := by
  have hpush := place_push_eq _ (x.pop h).1 (level_pop_lt x h) d
  have := Bool.toNat_le ((x.pop h).1.isPositive d)
  rw [push_pop] at hpush
  omega

theorem ext_place {x y : MortonLocation D w} (hl : x.level = y.level)
    (hp : ∀ d, place x d = place y d) : x = y := by
  induction x, y, hl using push_induction₂ with
  | root => rfl
  | push x y p q hx hy _ ih =>
    have hd (d : Fin D) : 2 * place x d + (p.isPositive d).toNat =
        2 * place y d + (q.isPositive d).toNat := by
      rw [← place_push_eq x p hx, ← place_push_eq y q hy, hp]
    obtain rfl : x = y := ih fun d => by
      have := hd d
      have := Bool.toNat_le (p.isPositive d)
      have := Bool.toNat_le (q.isPositive d)
      omega
    obtain rfl : p = q := ChildPosition.ext_isPositive fun d =>
      toNat_bool_injective (Nat.add_left_cancel (hd d))
    rfl

theorem isPositive_childPosition_eq (x : MortonLocation D w) {l : Nat} (h₁ : 1 ≤ l)
    (h₂ : l ≤ x.level) (d : Fin D) :
    (x.childPosition l).isPositive d = (place x d).testBit (x.level - l) := by
  induction x using push_induction with
  | root =>
    rw [level_root] at h₂
    omega
  | push x p h ih =>
    have hlevel := level_push x p h
    have hb := Bool.toNat_le (p.isPositive d)
    rw [place_push_eq, hlevel]
    rcases Nat.lt_or_ge x.level l with hl | hl
    · obtain rfl : l = x.level + 1 := by omega
      rw [childPosition_push_self, Nat.sub_self, Nat.testBit_zero, Nat.mul_add_mod]
      cases p.isPositive d <;> rfl
    · rw [childPosition_push_of_le x p h hl, ih hl, Nat.succ_sub hl, Nat.testBit_succ]
      congr 1
      omega

theorem place_ofTopBits (c : Vector Nat D) {l n : Nat} (hn : n ≤ maxLevel D w) (hl : n ≤ l)
    (hc : ∀ d : Fin D, c.get d < 2 ^ l) (d : Fin D) :
    place (ofTopBits c l n hn).val d = c.get d / 2 ^ (l - n) := by
  induction n with
  | zero =>
    rw [ofTopBits, place_root_eq, Nat.sub_zero, Nat.div_eq_of_lt (hc d)]
  | succ n ih =>
    have hpow : 2 ^ (l - n) = 2 ^ (l - (n + 1)) * 2 := by
      rw [← Nat.pow_succ]
      congr 1
      omega
    rw [ofTopBits]
    simp only
    rw [place_push_eq, ih (Nat.le_of_succ_le hn) (Nat.le_of_succ_le hl),
      ChildPosition.ofCoordinates, ChildPosition.isPositive_ofSides, hpow,
      ← Nat.div_div_eq_div_mul, Nat.toNat_testBit]
    omega

/-! ## Order -/

omit [CodeWidth w] in
theorem compare_mul_add {b u v p q : Nat} (hp : p < b) (hq : q < b) :
    Ord.compare (b * u + p) (b * v + q) = (Ord.compare u v).then (Ord.compare p q) := by
  rcases Nat.lt_trichotomy u v with h | rfl | h
  · have : b * u + p < b * v + q := by
      have := Nat.mul_le_mul_left b (Nat.succ_le_of_lt h)
      rw [Nat.mul_succ] at this
      omega
    rw [Nat.compare_eq_lt.2 this, Nat.compare_eq_lt.2 h]
    rfl
  · rw [Nat.compare_eq_eq.2 (rfl : u = u), Ordering.eq_then]
    simp only [Nat.compare_eq_ite_lt, Nat.add_lt_add_iff_left]
  · have : b * v + q < b * u + p := by
      have := Nat.mul_le_mul_left b (Nat.succ_le_of_lt h)
      rw [Nat.mul_succ] at this
      omega
    rw [Nat.compare_eq_gt.2 this, Nat.compare_eq_gt.2 h]
    rfl

theorem path_push (x : MortonLocation D w) (p : ChildPosition D) (h : x.level < maxLevel D w) :
    path (x.push p h) = path x ++ [p] := by
  change (List.range (x.push p h).level).map (fun l => (x.push p h).childPosition (l + 1)) =
    (List.range x.level).map (fun l => x.childPosition (l + 1)) ++ [p]
  rw [level_push, List.range_succ, List.map_append, List.map_singleton, childPosition_push_self]
  congr 1
  exact List.map_congr_left fun l hl =>
    childPosition_push_of_le x p h (Nat.succ_le_of_lt (List.mem_range.1 hl))

/-- Codes of one level are ordered as their paths. -/
theorem compare_code_eq {x y : MortonLocation D w} (hl : x.level = y.level) :
    Ord.compare x.code.toNat y.code.toNat = Ord.compare (path x) (path y) := by
  induction x, y, hl using push_induction₂ with
  | root => rw [Std.ReflOrd.compare_self, Std.ReflOrd.compare_self]
  | push x y p q hx hy h ih =>
    have hlen : (path x).length = (path y).length := by
      rw [length_path, length_path]
      exact h
    rw [toNat_code_push, toNat_code_push, compare_mul_add p.isLt q.isLt, ih, path_push, path_push,
      compare_append hlen, List.compare_cons_cons, List.compare_nil_nil, Ordering.then_eq]
    rfl

/-- Dropping the low bits of a code leaves the code of an ancestor. -/
theorem exists_front (x : MortonLocation D w) {n : Nat} (hn : n ≤ x.level) :
    ∃ y : MortonLocation D w, y.level = n ∧ y.code = x.code >>> ((x.level - n) * D) ∧
      path y = (path x).take n := by
  induction x using push_induction with
  | root =>
    rw [level_root] at hn
    refine ⟨root, ?_, ?_, ?_⟩
    · rw [level_root]
      omega
    · rw [level_root, Nat.zero_sub, Nat.zero_mul, BitVec.ushiftRight_zero]
    · rw [List.take_of_length_le]
      rw [length_path]
      change (root : MortonLocation D w).level ≤ n
      rw [level_root]
      omega
  | push x p h ih =>
    rw [level_push] at hn
    rcases Nat.lt_or_ge x.level n with hlt | hle
    · obtain rfl : n = x.level + 1 := by omega
      refine ⟨x.push p h, level_push x p h, ?_, ?_⟩
      · rw [level_push, Nat.sub_self, Nat.zero_mul, BitVec.ushiftRight_zero]
      · rw [List.take_of_length_le]
        rw [length_path]
        change (x.push p h).level ≤ _
        rw [level_push]
    · obtain ⟨y, hl, hcode, hpath⟩ := ih hle
      refine ⟨y, hl, ?_, ?_⟩
      · rw [level_push, shiftRight_code_push x p h hle, hcode]
      · rw [path_push, hpath, List.take_append_of_le_length]
        rw [length_path]
        exact hle

/-- The front of a longer path has the length of the shorter, and leaves something. -/
theorem front_of_level_lt {x y : MortonLocation D w} (h : x.level < y.level) :
    ((path y).take x.level).length = (path x).length ∧ (path y).drop x.level ≠ [] := by
  have hx : (path x).length = x.level := length_path x
  have hy : (path y).length = y.level := length_path y
  refine ⟨by rw [List.length_take, hx, hy]; omega, ?_⟩
  rw [Ne, List.drop_eq_nil_iff, hy]
  exact Nat.not_le.2 h

theorem compare_eq_compare_path (x y : MortonLocation D w) :
    compare x y = Ord.compare (path x) (path y) := by
  unfold compare
  rcases Nat.lt_trichotomy x.level y.level with h | h | h
  · obtain ⟨z, hl, hcode, hpath⟩ := exists_front y (Nat.le_of_lt h)
    obtain ⟨hlen, hrest⟩ := front_of_level_lt h
    have happend := compare_append_right hlen.symm hrest
    rw [List.take_append_drop] at happend
    rw [Nat.compare_eq_lt.2 h, happend, ← hpath, ← compare_code_eq hl.symm, hcode]
  · rw [Nat.compare_eq_eq.2 h]
    exact compare_code_eq h
  · obtain ⟨z, hl, hcode, hpath⟩ := exists_front x (Nat.le_of_lt h)
    obtain ⟨hlen, hrest⟩ := front_of_level_lt h
    have happend := compare_append_left hlen hrest
    rw [List.take_append_drop] at happend
    rw [Nat.compare_eq_gt.2 h, happend, ← hpath, ← compare_code_eq hl, hcode]

/-! ## The laws -/

theorem maxLevel_lt_width [Dimension D] (hw : w ≤ Word.width) : maxLevel D w < Word.width := by
  have h₁ : (w - 1) / D ≤ w - 1 := Nat.div_le_self _ _
  have h₂ := CodeWidth.pos (w := w)
  unfold maxLevel
  omega

theorem lawful (hw : maxLevel D w < Word.width) : LawfulLocation (MortonLocation D w) where
  maxLevel_lt := hw
  level_le := level_le_maxLevel
  place_lt := place_lt_two_pow
  ext := ext_place
  level_root := level_root
  level_push := level_push
  place_push := place_push_eq
  pop_fst x h := by
    refine Fin.ext ?_
    change (x.pop h).1.val = (x.childPosition x.level).val
    rw [pop, childPosition]
    simp only
    rw [Nat.sub_self, Nat.zero_mul, BitVec.ushiftRight_zero]
  level_pop x h := Nat.eq_sub_of_add_eq (level_pop_add_one x h)
  place_pop := place_pop_eq
  childPosition_eq x l h₁ h₂ := ChildPosition.ext_isPositive fun d => by
    rw [ChildPosition.ofCoordinates, ChildPosition.isPositive_ofSides]
    exact isPositive_childPosition_eq x h₁ h₂ d
  level_ofCoordinates c l hl _ := (ofTopBits c l l hl).property
  coordinates_ofCoordinates c l hl hc := by
    ext d hd
    have := place_ofTopBits c hl le_rfl hc ⟨d, hd⟩
    rw [Nat.sub_self, Nat.pow_zero, Nat.div_one] at this
    exact this
  compare_eq x y := by
    rw [LocationCode.depthFirstCompare, comparePaths_eq_compare_map]
    exact compare_eq_compare_path x y
  isValid_eq x := decide_eq_true ⟨x.code_ne_zero, x.whole⟩

instance [Dimension D] : LawfulLocation (MortonLocation D 32) :=
  lawful (maxLevel_lt_width (by decide))

instance [Dimension D] : LawfulLocation (MortonLocation D 64) :=
  lawful (maxLevel_lt_width (by decide))

end MortonLocation

end AdaptiveMesh
