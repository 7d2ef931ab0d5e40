import AdaptiveMesh.Proofs.Except
import AdaptiveMesh.Proofs.Word
import AdaptiveMesh.Tile.State

/-!
# Reading and writing cells

Writing one cell of a buffer changes that cell alone. A buffer is known from its shape and the
values of its cells.
-/

namespace AdaptiveMesh

namespace StateBuffer

variable {S : Type}

/-! ## Runs of values -/

theorem getElem?_foldl_set (xs : List S) (data : Array S) (start k j : Nat)
    (h : start + k + xs.length ≤ data.size) :
    ((xs.zipIdx k).foldl (fun data (x, i) => data.setIfInBounds (start + i) x) data)[j]? =
      if start + k ≤ j ∧ j < start + k + xs.length then xs[j - (start + k)]? else data[j]? := by
  induction xs generalizing data k with
  | nil => simp [show ¬ (start + k ≤ j ∧ j < start + k) by omega]
  | cons x xs ih =>
    rw [List.length_cons] at h
    rw [List.zipIdx_cons, List.foldl_cons, ih _ _ (by rw [Array.size_setIfInBounds]; omega),
      Array.getElem?_setIfInBounds, List.length_cons]
    rcases lt_trichotomy j (start + k) with hlt | rfl | hgt
    · rw [if_neg (by omega), if_neg (by omega), if_neg (by omega)]
    · rw [if_neg (by omega), if_pos rfl, if_pos (by omega), if_pos (by omega), Nat.sub_self,
        List.getElem?_cons_zero]
    · by_cases hin : j < start + k + (xs.length + 1)
      · rw [if_pos (by omega), if_pos (by omega),
          show j - (start + k) = j - (start + (k + 1)) + 1 by omega, List.getElem?_cons_succ]
      · rw [if_neg (by omega), if_neg (by omega), if_neg (by omega)]

theorem size_foldl_set (xs : List (S × Nat)) (data : Array S) (start : Nat) :
    (xs.foldl (fun data (x, i) => data.setIfInBounds (start + i) x) data).size = data.size := by
  induction xs generalizing data with
  | nil => rfl
  | cons x xs ih => rw [List.foldl_cons, ih, Array.size_setIfInBounds]

/-! ## Cells -/

/-- The buffers have room for the same cells. -/
def SameShape (a b : StateBuffer S) : Prop :=
  a.variableCount = b.variableCount ∧ a.data.size = b.data.size

theorem SameShape.refl (b : StateBuffer S) : SameShape b b := ⟨rfl, rfl⟩

theorem SameShape.symm {a b : StateBuffer S} (h : SameShape a b) : SameShape b a :=
  ⟨h.1.symm, h.2.symm⟩

theorem SameShape.trans {a b c : StateBuffer S} (h : SameShape a b) (h' : SameShape b c) :
    SameShape a c := ⟨h.1.trans h'.1, h.2.trans h'.2⟩

variable {b b' : StateBuffer S} {i j s : Nat} {values : Array S}

theorem start_eq_ok_iff : b.start i = .ok s ↔
    s = i * b.variableCount ∧ s + b.variableCount < Word.bound ∧
      s + b.variableCount ≤ b.data.size := by
  unfold start
  constructor
  · intro h
    obtain ⟨s', hs', h⟩ := bind_eq_ok_iff.1 h
    obtain ⟨e, he, h⟩ := bind_eq_ok_iff.1 h
    obtain ⟨hs₁, rfl⟩ := Word.mul_eq_ok_iff.1 hs'
    obtain ⟨he₁, rfl⟩ := Word.add_eq_ok_iff.1 he
    split at h
    · contradiction
    · next hsize =>
      obtain rfl := Except.ok.inj h
      exact ⟨rfl, he₁, Nat.not_lt.1 hsize⟩
  · rintro ⟨rfl, hbound, hsize⟩
    rw [Word.mul_eq_ok (by omega), ok_bind, Word.add_eq_ok hbound, ok_bind,
      if_neg (Nat.not_lt.2 hsize)]
    rfl

theorem SameShape.start_eq {a b : StateBuffer S} (h : SameShape a b) (i : Nat) :
    a.start i = b.start i := by
  unfold start
  rw [h.1, h.2]

theorem get_eq_ok_iff : b.get i = .ok values ↔ ∃ s, b.start i = .ok s ∧
    values = b.data.extract s (s + b.variableCount) := by
  unfold get
  rw [bind_eq_ok_iff]
  exact exists_congr fun s => and_congr_right fun _ =>
    ⟨fun h => (Except.ok.inj h).symm, fun h => h ▸ rfl⟩

theorem size_of_get (h : b.get i = .ok values) : values.size = b.variableCount := by
  obtain ⟨s, hs, rfl⟩ := get_eq_ok_iff.1 h
  have := (start_eq_ok_iff.1 hs).2.2
  rw [Array.size_extract]
  omega

/-- The values of a cell, one by one. -/
theorem getElem?_of_get (h : b.get i = .ok values) {v : Nat} (hv : v < b.variableCount) :
    values[v]? = b.data[i * b.variableCount + v]? := by
  obtain ⟨s, hs, rfl⟩ := get_eq_ok_iff.1 h
  obtain ⟨rfl, -, hsize⟩ := start_eq_ok_iff.1 hs
  rw [Array.getElem?_extract, if_pos (by omega)]

theorem set_eq_ok_iff : b.set i values = .ok b' ↔ ∃ s, b.start i = .ok s ∧
    values.size = b.variableCount ∧ b' = { b with
      data := values.zipIdx.foldl (fun data (x, i) => data.setIfInBounds (s + i) x) b.data } := by
  unfold set
  rw [bind_eq_ok_iff]
  refine exists_congr fun s => and_congr_right fun _ => ?_
  by_cases hsize : values.size = b.variableCount
  · simp only [hsize, ne_eq, not_true_eq_false, if_false, true_and]
    exact ⟨fun h => (Except.ok.inj h).symm, fun h => h ▸ rfl⟩
  · simp only [hsize, ne_eq, not_false_eq_true, if_true, false_and, iff_false]
    intro h
    contradiction

theorem sameShape_of_set (h : b.set i values = .ok b') : SameShape b' b := by
  obtain ⟨s, -, -, rfl⟩ := set_eq_ok_iff.1 h
  refine ⟨rfl, ?_⟩
  rw [← Array.foldl_toList]
  exact size_foldl_set _ _ _

/-- The values of all cells after one is written. -/
theorem getElem?_of_set (h : b.set i values = .ok b') (k : Nat) : b'.data[k]? =
    if i * b.variableCount ≤ k ∧ k < i * b.variableCount + b.variableCount
      then values[k - i * b.variableCount]? else b.data[k]? := by
  obtain ⟨s, hs, hsize, rfl⟩ := set_eq_ok_iff.1 h
  obtain ⟨rfl, -, hle⟩ := start_eq_ok_iff.1 hs
  have := getElem?_foldl_set values.toList b.data (i * b.variableCount) 0 k
    (by rw [Array.length_toList]; omega)
  rw [← Array.foldl_toList, Array.toList_zipIdx, this, Array.length_toList, hsize, Nat.add_zero,
    Array.getElem?_toList]

/-- The runs of two different cells do not meet. -/
theorem run_apart (n : Nat) (h : j ≠ i) : i * n + n ≤ j * n ∨ j * n + n ≤ i * n := by
  rw [← Nat.succ_mul, ← Nat.succ_mul]
  exact (Nat.lt_or_gt_of_ne h).symm.imp (Nat.mul_le_mul_right n) (Nat.mul_le_mul_right n)

/-- A cell holds the values that are found in its run, one by one. -/
theorem get_eq_ok_of_getElem? (hs : b.start i = .ok s) (hsize : values.size = b.variableCount)
    (h : ∀ v < b.variableCount, b.data[s + v]? = values[v]?) : b.get i = .ok values := by
  have hle := (start_eq_ok_iff.1 hs).2.2
  refine get_eq_ok_iff.2 ⟨s, hs, Array.ext_getElem? fun v => ?_⟩
  rw [Array.getElem?_extract, Nat.min_eq_left hle, Nat.add_sub_cancel_left]
  split
  · next hv => exact (h v hv).symm
  · next hv => exact Array.getElem?_eq_none (by omega)

/-- A cell that was written holds its new values, and every other cell is as before. -/
theorem get_of_set (h : b.set i values = .ok b') (j : Nat) :
    b'.get j = if j = i then .ok values else b.get j := by
  have hshape := sameShape_of_set h
  obtain ⟨s, hs, hsize, -⟩ := set_eq_ok_iff.1 h
  obtain ⟨rfl, -, -⟩ := start_eq_ok_iff.1 hs
  split
  · next hji =>
    subst hji
    refine get_eq_ok_of_getElem? ((hshape.start_eq j).trans hs) (hsize.trans hshape.1.symm)
      fun v hv => ?_
    rw [hshape.1] at hv
    rw [getElem?_of_set h, if_pos (by omega), Nat.add_sub_cancel_left]
  · next hji =>
    unfold get
    rw [hshape.start_eq, hshape.1]
    cases hj : b.start j with
    | error e => rfl
    | ok s' =>
      obtain ⟨rfl, -, hle⟩ := start_eq_ok_iff.1 hj
      rw [ok_bind, ok_bind]
      refine congrArg Except.ok (Array.ext_getElem? fun v => ?_)
      rw [Array.getElem?_extract, Array.getElem?_extract, hshape.2]
      have hapart := run_apart b.variableCount hji
      split
      · rw [getElem?_of_set h, if_neg (by omega)]
      · rfl

theorem setValue_eq_ok_iff {v : Nat} {x : S} : b.setValue i v x = .ok b' ↔ ∃ s,
    b.start i = .ok s ∧ v < b.variableCount ∧
      b' = { b with data := b.data.setIfInBounds (s + v) x } := by
  unfold setValue
  rw [bind_eq_ok_iff]
  refine exists_congr fun s => and_congr_right fun _ => ?_
  by_cases hv : b.variableCount ≤ v
  · rw [if_pos hv]
    exact iff_of_false (fun h => by cases h) fun h => Nat.not_lt.2 hv h.1
  · rw [if_neg hv]
    exact ⟨fun h => ⟨Nat.not_le.1 hv, (Except.ok.inj h).symm⟩, fun h => h.2 ▸ rfl⟩

theorem sameShape_of_setValue {v : Nat} {x : S} (h : b.setValue i v x = .ok b') :
    SameShape b' b := by
  obtain ⟨s, -, -, rfl⟩ := setValue_eq_ok_iff.1 h
  exact ⟨rfl, Array.size_setIfInBounds⟩

/-- A cell of which one variable was written holds the new value there and its other values as
before, and so do all other cells. -/
theorem get_of_setValue {v : Nat} {x : S} (h : b.setValue i v x = .ok b')
    (hj : b.get j = .ok values) :
    b'.get j = .ok (if j = i then values.setIfInBounds v x else values) := by
  have hshape := sameShape_of_setValue h
  have hsize := size_of_get hj
  obtain ⟨s, hs, hv, rfl⟩ := setValue_eq_ok_iff.1 h
  obtain ⟨s', hs', -⟩ := get_eq_ok_iff.1 hj
  obtain ⟨rfl, -, hle⟩ := start_eq_ok_iff.1 hs
  obtain ⟨rfl, -, -⟩ := start_eq_ok_iff.1 hs'
  refine get_eq_ok_of_getElem? ((hshape.start_eq j).trans hs') ?_ fun k hk => ?_
  · rw [← hsize, apply_ite Array.size, Array.size_setIfInBounds, ite_self]
  · have hbefore := getElem?_of_get hj hk
    dsimp only at hk ⊢
    rw [Array.getElem?_setIfInBounds, ← hbefore]
    by_cases hji : j = i
    · subst hji
      rw [if_pos rfl, Array.getElem?_setIfInBounds, if_pos (show v < values.size by omega),
        if_pos (show j * b.variableCount + v < b.data.size by omega)]
      simp only [Nat.add_left_cancel_iff]
    · have hapart := run_apart b.variableCount hji
      rw [if_neg hji, if_neg (by omega)]

/-! ## Buffers of a number of cells -/

/-- The buffer has exactly the values of a number of cells. -/
def Holds (b : StateBuffer S) (cells : Nat) : Prop :=
  b.data.size = cells * b.variableCount ∧ b.data.size < Word.bound

theorem Holds.of_sameShape {a : StateBuffer S} {cells : Nat} (h : a.Holds cells)
    (hs : SameShape b a) : b.Holds cells := by
  unfold Holds
  rw [hs.1, hs.2]
  exact h

theorem Holds.start_eq {cells : Nat} (h : b.Holds cells) (hi : i < cells) :
    b.start i = .ok (i * b.variableCount) := by
  have hle : (i + 1) * b.variableCount ≤ cells * b.variableCount := Nat.mul_le_mul_right _ hi
  obtain ⟨hsize, hbound⟩ := h
  rw [Nat.add_mul, Nat.one_mul] at hle
  exact start_eq_ok_iff.2 ⟨rfl, by omega, by omega⟩

theorem Holds.exists_get {cells : Nat} (h : b.Holds cells) (hi : i < cells) :
    ∃ values, b.get i = .ok values :=
  ⟨_, get_eq_ok_iff.2 ⟨_, h.start_eq hi, rfl⟩⟩

theorem Holds.exists_set {cells : Nat} (h : b.Holds cells) (hi : i < cells)
    (hv : values.size = b.variableCount) : ∃ b', b.set i values = .ok b' :=
  ⟨_, set_eq_ok_iff.2 ⟨_, h.start_eq hi, hv, rfl⟩⟩

/-- A buffer is its shape and the values of its cells. -/
theorem Holds.ext {cells : Nat} (h : b.Holds cells) (hs : SameShape b' b)
    (hget : ∀ j < cells, b'.get j = b.get j) : b' = b := by
  have hdata : b'.data = b.data := by
    refine Array.ext_getElem? fun k => ?_
    have hpos := b.variableCount_pos
    rcases Nat.lt_or_ge k b.data.size with hk | hk
    · have hj : k / b.variableCount < cells := by
        rw [Nat.div_lt_iff_lt_mul hpos, ← h.1]
        exact hk
      have hv : k % b.variableCount < b.variableCount := Nat.mod_lt k hpos
      have hkv : k / b.variableCount * b.variableCount + k % b.variableCount = k :=
        Nat.div_add_mod' k b.variableCount
      obtain ⟨values, hvalues⟩ := h.exists_get hj
      have hb := getElem?_of_get hvalues hv
      have hb' := getElem?_of_get ((hget _ hj).trans hvalues) (hs.1 ▸ hv)
      rw [hkv] at hb
      rw [hs.1, hkv] at hb'
      rw [← hb, ← hb']
    · rw [Array.getElem?_eq_none hk, Array.getElem?_eq_none (hs.2 ▸ hk)]
  obtain ⟨hvariables, -⟩ := hs
  cases b
  cases b'
  simp_all

/-- A buffer that can be made takes fewer bytes than a signed word counts. -/
theorem make_eq_ok [Scalar S] {cells variableCount : Nat} (h : make cells variableCount = .ok b) :
    b.variableCount = variableCount ∧
      b.data = Array.replicate (cells * variableCount) (Scalar.ofNat 0) ∧
      cells * variableCount * valueBytes < 2 ^ (Word.width - 1) := by
  unfold make at h
  split at h
  · obtain ⟨n, hn, h⟩ := bind_eq_ok_iff.1 h
    obtain ⟨size, hsize, h⟩ := bind_eq_ok_iff.1 h
    obtain ⟨-, rfl⟩ := Word.mul_eq_ok_iff.1 hn
    obtain ⟨hbytes, rfl⟩ := Word.arraySize_eq_ok_iff.1 hsize
    obtain rfl := Except.ok.inj h
    exact ⟨rfl, rfl, hbytes⟩
  · contradiction

end StateBuffer

end AdaptiveMesh
