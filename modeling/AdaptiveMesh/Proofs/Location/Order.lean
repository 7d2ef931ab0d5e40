import AdaptiveMesh.Proofs.Location.Laws

/-!
# Depth-first order

The order of locations is the lexicographic order of their paths, and a location is above another
exactly if its path is a proper beginning of the other's. So the order is total, an ancestor goes
before its descendants, and the descendants of a location follow it without a gap.
-/

namespace AdaptiveMesh

open LocationCode LawfulLocation

variable {D : Nat} {L : Type} [LocationCode D L]

/-! ## Lists in lexicographic order -/

section Prefix

variable {α : Type} [Ord α] [Std.TransOrd α] [Std.LawfulEqOrd α] {p q r : List α}

omit [Std.TransOrd α] in
theorem compare_of_prefix (h : p <+: q) (hne : p ≠ q) : compare p q = .lt := by
  induction p generalizing q with
  | nil =>
    cases q with
    | nil => contradiction
    | cons y q => exact List.compare_nil_cons
  | cons x p ih =>
    obtain ⟨t, rfl⟩ := h
    rw [List.cons_append, List.compare_cons_cons, Std.ReflOrd.compare_self,
      ih (List.prefix_append p t) fun he => hne (by rw [List.cons_append, ← he])]
    rfl

/-- What lies between a list and one that begins with it begins with it too. -/
theorem prefix_of_between (h : p <+: q) (hpr : (compare p r).isLE) (hrq : (compare r q).isLE) :
    p <+: r := by
  induction p generalizing q r with
  | nil => exact List.nil_prefix
  | cons x p ih =>
    obtain ⟨t, rfl⟩ := h
    cases r with
    | nil => simp [List.compare_cons_nil] at hpr
    | cons y r =>
      rw [List.cons_append, List.compare_cons_cons] at hrq
      rw [List.compare_cons_cons] at hpr
      have hxy : compare x y = .eq := by
        rw [Std.OrientedOrd.eq_swap] at hrq
        cases hc : compare x y <;> simp_all
      have hyx : compare y x = .eq := Std.OrientedCmp.eq_comm.1 hxy
      rw [hxy, Ordering.eq_then] at hpr
      rw [hyx, Ordering.eq_then] at hrq
      rw [Std.LawfulEqCmp.eq_of_compare hxy, List.cons_prefix_cons]
      exact ⟨rfl, ih (List.prefix_append p t) hpr hrq⟩

omit [Std.TransOrd α] [Std.LawfulEqOrd α] in
theorem compare_append {u v : List α} (h : p.length = q.length) :
    compare (p ++ u) (q ++ v) = (compare p q).then (compare u v) := by
  induction p generalizing q with
  | nil =>
    rw [List.eq_nil_of_length_eq_zero h.symm]
    rfl
  | cons x p ih =>
    cases q with
    | nil => contradiction
    | cons y q =>
      rw [List.cons_append, List.cons_append, List.compare_cons_cons, List.compare_cons_cons,
        ih (Nat.succ.inj h), Ordering.then_assoc]

omit [Std.TransOrd α] [Std.LawfulEqOrd α] in
theorem compare_append_right {t : List α} (h : p.length = q.length) (ht : t ≠ []) :
    compare p (q ++ t) = (compare p q).then .lt := by
  obtain ⟨a, t, rfl⟩ := List.exists_cons_of_ne_nil ht
  have := compare_append (u := []) (v := a :: t) h
  rwa [List.append_nil, List.compare_nil_cons] at this

omit [Std.TransOrd α] [Std.LawfulEqOrd α] in
theorem compare_append_left {t : List α} (h : p.length = q.length) (ht : t ≠ []) :
    compare (p ++ t) q = (compare p q).then .gt := by
  obtain ⟨a, t, rfl⟩ := List.exists_cons_of_ne_nil ht
  have := compare_append (u := a :: t) (v := []) h
  rwa [List.append_nil, List.compare_cons_nil] at this

end Prefix

/-! ## Paths -/

theorem comparePaths_eq_compare_map {la lb : Nat} {a b : Nat → ChildPosition D} :
    comparePaths la lb a b =
      compare ((List.range la).map fun l => a (l + 1)) ((List.range lb).map fun l => b (l + 1)) := by
  induction la generalizing lb a b with
  | zero =>
    rw [comparePaths, Nat.zero_min, List.range_zero, List.foldr_nil, List.map_nil]
    cases lb with
    | zero => rfl
    | succ lb =>
      rw [List.range_succ_eq_map, List.map_cons, List.compare_nil_cons, Nat.compare_eq_lt]
      omega
  | succ la ih =>
    cases lb with
    | zero =>
      rw [comparePaths, Nat.min_zero, List.range_zero, List.foldr_nil, List.map_nil,
        List.range_succ_eq_map, List.map_cons, List.compare_cons_nil, Nat.compare_eq_gt]
      omega
    | succ lb =>
      have hstep : comparePaths (la + 1) (lb + 1) a b =
          (compare (a 1) (b 1)).then (comparePaths la lb (fun l => a (l + 1)) fun l => b (l + 1)) := by
        have hcompare : compare (la + 1) (lb + 1) = compare la lb := by
          simp only [Nat.compare_eq_ite_lt, Nat.add_lt_add_iff_right]
        rw [comparePaths, Nat.add_min_add_right, List.range_succ_eq_map, List.foldr_cons,
          List.foldr_map, hcompare]
        rfl
      rw [hstep, ih, List.range_succ_eq_map, List.range_succ_eq_map, List.map_cons, List.map_cons,
        List.compare_cons_cons, List.map_map, List.map_map]
      rfl

namespace LocationCode

@[simp] theorem length_path (x : L) : (path x).length = level x := by
  simp [path]

theorem getElem_path (x : L) {i : Nat} (h : i < (path x).length) :
    (path x)[i] = childPosition x (i + 1) := by
  simp [path]

variable [LawfulLocation L]

theorem compare_eq_compare_path (x y : L) : compare x y = compare (path x) (path y) := by
  rw [compare_eq, depthFirstCompare, comparePaths_eq_compare_map]
  rfl

theorem path_injective {x y : L} (h : path x = path y) : x = y := by
  have hl : level x = level y := by rw [← length_path x, h, length_path]
  refine ext hl fun d => Nat.eq_of_testBit_eq fun i => ?_
  rcases Nat.lt_or_ge i (level x) with hi | hi
  · have hpath : childPosition x (level x - i) = childPosition y (level x - i) := by
      have hx := getElem_path x (i := level x - i - 1) (by rw [length_path]; omega)
      have hy := getElem_path y (i := level x - i - 1) (by rw [length_path]; omega)
      rw [show level x - i - 1 + 1 = level x - i by omega] at hx hy
      rw [← hx, ← hy]
      simp only [h]
    have hx := isPositive_childPosition x (l := level x - i) (by omega) (by omega) d
    have hy := isPositive_childPosition y (l := level x - i) (by omega) (by omega) d
    rw [show level x - (level x - i) = i by omega] at hx
    rw [show level y - (level x - i) = i by omega] at hy
    rw [← hx, ← hy, hpath]
  · have hpow : 2 ^ level x ≤ 2 ^ i := Nat.pow_le_pow_right (by decide) hi
    rw [Nat.testBit_lt_two_pow (Nat.lt_of_lt_of_le (place_lt x d) hpow),
      Nat.testBit_lt_two_pow (Nat.lt_of_lt_of_le (hl ▸ place_lt y d) hpow)]

theorem childPosition_above {x : L} {l k : Nat} (hl : l ≤ level x) (h₁ : 1 ≤ k) (h₂ : k ≤ l) :
    childPosition (above x l) k = childPosition x k := by
  have hlevel := level_above hl
  rw [childPosition_eq _ h₁ (by omega), childPosition_eq _ h₁ (by omega),
    ChildPosition.ofCoordinates, ChildPosition.ofCoordinates, ChildPosition.ofSides_eq_iff]
  intro d
  change (place (above x l) d).testBit _ = (place x d).testBit _
  rw [place_above, Nat.testBit_div_two_pow, hlevel]
  congr 1
  omega

theorem path_above {x : L} {l : Nat} (hl : l ≤ level x) : path (above x l) = (path x).take l := by
  refine List.ext_getElem (by simp [level_above hl, hl]) fun i h₁ h₂ => ?_
  rw [length_path, level_above hl] at h₁
  rw [getElem_path, List.getElem_take, getElem_path, childPosition_above hl (by omega) h₁]

/-- A location is above another exactly if its path is a proper beginning of the other's. -/
theorem isAncestorOf_iff_path {a b : L} :
    isAncestorOf a b = true ↔ path a <+: path b ∧ a ≠ b := by
  constructor
  · intro h
    have hl := (isAncestorOf_iff.1 h).1
    refine ⟨?_, fun he => ?_⟩
    · rw [eq_above_of_isAncestorOf h, path_above (by omega)]
      exact List.take_prefix _ _
    · rw [he] at hl
      omega
  · rintro ⟨hp, hne⟩
    have hle : level a ≤ level b := by simpa using hp.length_le
    have ha : a = above b (level a) := by
      apply path_injective
      rw [path_above hle, ← length_path a]
      exact List.prefix_iff_eq_take.1 hp
    have hlt : level a < level b := by
      refine Nat.lt_of_le_of_ne hle fun he => hne ?_
      rw [ha, above, he, Nat.sub_self]
      rfl
    rw [ha]
    exact isAncestorOf_above hlt

/-- Going up from a location drops the end of its path. -/
theorem covers_iff_path {x y : L} : Covers x y ↔ path x <+: path y := by
  rw [covers_iff, isAncestorOf_iff_path]
  constructor
  · rintro (rfl | ⟨hbegins, -⟩)
    · exact List.prefix_rfl
    · exact hbegins
  · intro hbegins
    by_cases h : x = y
    · exact Or.inl h
    · exact Or.inr ⟨hbegins, h⟩

/-! ## The order -/

instance : Std.TransOrd L where
  eq_swap {x y} := by
    rw [compare_eq_compare_path, compare_eq_compare_path, Std.OrientedOrd.eq_swap]
  isLE_trans {x y z} h₁ h₂ := by
    rw [compare_eq_compare_path] at h₁ h₂ ⊢
    exact Std.TransCmp.isLE_trans h₁ h₂

instance : Std.LawfulEqOrd L where
  compare_self {x} := by
    rw [compare_eq_compare_path]
    exact Std.ReflCmp.compare_self
  eq_of_compare {x y} h := by
    rw [compare_eq_compare_path] at h
    exact path_injective (Std.LawfulEqCmp.eq_of_compare h)

theorem ne_of_compare_lt {x y : L} (h : compare x y = .lt) : x ≠ y := by
  rintro rfl
  rw [Std.ReflOrd.compare_self] at h
  contradiction

/-- An ancestor goes before its descendants. -/
theorem compare_of_isAncestorOf {a b : L} (h : isAncestorOf a b = true) : compare a b = .lt := by
  obtain ⟨hp, hne⟩ := isAncestorOf_iff_path.1 h
  rw [compare_eq_compare_path]
  exact compare_of_prefix hp fun he => hne (path_injective he)

/-- The descendants of a location follow it without a gap. -/
theorem isAncestorOf_of_between {a b c : L} (hac : isAncestorOf a c = true)
    (hab : compare a b = .lt) (hbc : (compare b c).isLE) : isAncestorOf a b = true := by
  rw [compare_eq_compare_path] at hbc
  refine isAncestorOf_iff_path.2 ⟨prefix_of_between (isAncestorOf_iff_path.1 hac).1 ?_ hbc, ?_⟩
  · rw [← compare_eq_compare_path, hab]
    rfl
  · rintro rfl
    simp [Std.ReflCmp.compare_self] at hab

/-- What follows a location without being below it follows all its descendants. -/
theorem compare_of_not_isAncestorOf {a b c : L} (hac : isAncestorOf a c = true)
    (hab : compare a b = .lt) (hnot : isAncestorOf a b = false) : compare c b = .lt := by
  rcases hc : compare c b with _ | _ | _
  · rfl
  · rw [Std.LawfulEqCmp.eq_of_compare hc, hnot] at hac
    contradiction
  · have hbc : (compare b c).isLE := by
      rw [Std.OrientedCmp.gt_iff_lt.1 hc]
      rfl
    rw [isAncestorOf_of_between hac hab hbc] at hnot
    contradiction

theorem path_of_child? {x y : L} {p : ChildPosition D} (h : child? x p = some y) :
    path y = path x ++ [p] := by
  obtain ⟨hl, hp⟩ := child?_eq_some_iff.1 h
  have hx : above y (level x) = x := by
    refine (eq_above_of_isAncestorOf ?_).symm
    exact isAncestorOf_of_parent? (parent?_of_child? h)
  have hlast : childPosition y (level y) = p := by
    have h' := child?_childPosition (parent?_of_child? h)
    refine ChildPosition.ext_isPositive fun d => toNat_bool_injective ?_
    have h₁ := (child?_eq_some_iff.1 h').2 d
    have h₂ := hp d
    omega
  have htake : (path y).take (level x) = path x := by
    rw [← path_above (by omega), hx]
  have hlen : (path y).length = level x + 1 := by rw [length_path, hl]
  have hget : (path y)[level x] = p := by rw [getElem_path, ← hl, hlast]
  rw [← htake, ← hget, List.take_append_getElem, ← hlen, List.take_length]

/-- Siblings are ordered by child position. -/
theorem compare_of_child? {x y z : L} {p q : ChildPosition D} (hy : child? x p = some y)
    (hz : child? x q = some z) : compare y z = compare p q := by
  rw [compare_eq_compare_path, path_of_child? hy, path_of_child? hz, compare_append rfl,
    Std.ReflOrd.compare_self, Ordering.eq_then, List.compare_cons_cons,
    List.compare_nil_nil, Ordering.then_eq]

end LocationCode

end AdaptiveMesh
