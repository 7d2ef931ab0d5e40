import AdaptiveMesh.Proofs.Location.InWords
import AdaptiveMesh.Proofs.Tree.Grown

/-!
# The order of a walk

Every stored form compares locations as a depth-first walk from the root meets them: by their paths
in lexicographic order, a path before its extensions. Comparing codes cut to one length and walking
both paths give this order alike, and neither leaves its words.
-/

namespace AdaptiveMesh

open LocationCode

/-! ## Lists in order -/

theorem compare_eq_lt_iff_lex {n : Nat} {p q : List (Fin n)} :
    compare p q = .lt ↔ List.Lex (· < ·) p q := by
  induction p generalizing q with
  | nil =>
    cases q with
    | nil => simp
    | cons y q => exact iff_of_true List.compare_nil_cons List.Lex.nil
  | cons x p ih =>
    cases q with
    | nil => simp [List.compare_cons_nil]
    | cons y q =>
      rw [List.compare_cons_cons, Ordering.then_eq_lt, ih, List.cons_lex_cons_iff, compare_lt_iff_lt,
        compare_eq_iff_eq]

/-- In an ascending list two entries are ordered as their places. -/
theorem compare_idxOf {α : Type} [DecidableEq α] [Ord α] [Std.TransOrd α] [Std.LawfulEqOrd α]
    {xs : List α} (h : xs.Pairwise fun x y => compare x y = .lt) {x y : α} (hx : x ∈ xs)
    (hy : y ∈ xs) : compare (xs.idxOf x) (xs.idxOf y) = compare x y := by
  have hplace {x y : α} (hx : x ∈ xs) (hy : y ∈ xs) (hlt : xs.idxOf x < xs.idxOf y) :
      compare x y = .lt := by
    have hxl := List.idxOf_lt_length_iff.2 hx
    have hyl := List.idxOf_lt_length_iff.2 hy
    have := List.pairwise_iff_getElem.1 h _ _ hxl hyl hlt
    rwa [List.getElem_idxOf, List.getElem_idxOf] at this
  rcases Nat.lt_trichotomy (xs.idxOf x) (xs.idxOf y) with hlt | heq | hgt
  · rw [Nat.compare_eq_lt.2 hlt, hplace hx hy hlt]
  · rw [Nat.compare_eq_eq.2 heq, (List.idxOf_inj hx).1 heq, Std.ReflOrd.compare_self]
  · rw [Nat.compare_eq_gt.2 hgt, Std.OrientedCmp.gt_iff_lt.2 (hplace hy hx hgt)]

/-! ## Locations in order -/

section

variable {D : Nat} {L : Type} [LocationCode D L]

/-- The order of a stored form is the depth-first one, and it is found in words: by `inWords`, and
by a walk along both paths that finds their positions with `position`. -/
structure ComparesDepthFirst (L : Type) [LocationCode D L]
    (position : L → Nat → Except Fault (ChildPosition D))
    (inWords : L → L → Except Fault Ordering) : Prop where
  lt_iff_lex (a b : L) : compare a b = .lt ↔ List.Lex (· < ·) (path a) (path b)
  eq_iff (a b : L) : compare a b = .eq ↔ a = b
  swap (a b : L) : compare b a = (compare a b).swap
  trans (a b c : L) : compare a b = .lt → compare b c = .lt → compare a c = .lt
  total (a b : L) : compare a b = .lt ∨ a = b ∨ compare b a = .lt
  eq_depthFirstCompare (a b : L) : compare a b = depthFirstCompare a b
  /-- A walk down to some level meets each location once, in this order. -/
  visits {depth : Nat} (hdepth : depth ≤ maxLevel L) (a b : L) (ha : level a ≤ depth)
    (hb : level b ≤ depth) : (Tree.subtree depth (root : L)).count a = 1 ∧
      compare a b = compare ((Tree.subtree depth root).idxOf a) ((Tree.subtree depth root).idxOf b)
  inWords_eq (a b : L) : inWords a b = .ok (compare a b)
  walkInWords_eq (a b : L) : walkInWords position a b = .ok (compare a b)

variable [LawfulLocation L]

theorem comparesDepthFirst_of_inWords {position : L → Nat → Except Fault (ChildPosition D)}
    {inWords : L → L → Except Fault Ordering}
    (hposition : ∀ x l, 1 ≤ l → l ≤ level x → position x l = .ok (childPosition x l))
    (hcompare : ∀ a b, inWords a b = .ok (compare a b)) :
    ComparesDepthFirst L position inWords where
  lt_iff_lex a b := by rw [compare_eq_compare_path, compare_eq_lt_iff_lex]
  eq_iff a b := Std.LawfulEqCmp.compare_eq_iff_eq
  swap a b := Std.OrientedOrd.eq_swap
  trans a b c := Std.TransCmp.lt_trans
  total a b := by
    cases hc : compare a b with
    | lt => exact Or.inl rfl
    | eq => exact Or.inr (Or.inl (Std.LawfulEqOrd.eq_of_compare hc))
    | gt => exact Or.inr (Or.inr (Std.OrientedCmp.gt_iff_lt.1 hc))
  eq_depthFirstCompare := LawfulLocation.compare_eq
  visits {depth} hdepth a b ha hb := by
    have hroot : level (root : L) + depth ≤ maxLevel L := by rw [level_root]; omega
    have hmem {x : L} (hx : level x ≤ depth) : x ∈ Tree.subtree depth root := by
      rw [Tree.mem_subtree_iff hroot, level_root, Nat.zero_add,
        ← eq_root_iff.2 (level_above (Nat.zero_le (level x)))]
      exact ⟨covers_above (Nat.zero_le _), hx⟩
    have hascending := Tree.pairwise_subtree hroot
    have hnodup : (Tree.subtree depth (root : L)).Nodup := hascending.imp ne_of_compare_lt
    refine ⟨List.count_eq_one_of_mem hnodup (hmem ha), ?_⟩
    rw [compare_idxOf hascending (hmem ha) (hmem hb)]
  inWords_eq := hcompare
  walkInWords_eq a b := by
    rw [walkInWords_eq hposition, LawfulLocation.compare_eq]

end

/-- Codes of either width and grid coordinates are compared in depth-first order. -/
theorem comparesDepthFirst_codes_grid (D : Nat) [Dimension D] :
    ComparesDepthFirst (MortonLocation D 32) MortonLocation.positionInWords
        MortonLocation.compareInWords ∧
      ComparesDepthFirst (MortonLocation D 64) MortonLocation.positionInWords
        MortonLocation.compareInWords ∧
      ComparesDepthFirst (GridLocation D) GridLocation.positionInWords
        (walkInWords GridLocation.positionInWords) := by
  refine ⟨comparesDepthFirst_of_inWords ?_ ?_, comparesDepthFirst_of_inWords ?_ ?_,
    comparesDepthFirst_of_inWords ?_ ?_⟩
  · exact fun x l => MortonLocation.positionInWords_eq (by decide) x
  · exact MortonLocation.compareInWords_eq (by decide)
  · exact fun x l => MortonLocation.positionInWords_eq (by decide) x
  · exact MortonLocation.compareInWords_eq (by decide)
  · exact fun x l => GridLocation.positionInWords_eq x
  · intro a b
    rw [walkInWords_eq fun x l => GridLocation.positionInWords_eq x, LawfulLocation.compare_eq]

/-- In space, where a code of 32 bits leaves one bit unused. -/
theorem comparesDepthFirst_codes_grid_space : Dimension 3 ∧
    ComparesDepthFirst (MortonLocation 3 32) MortonLocation.positionInWords
        MortonLocation.compareInWords ∧
      ComparesDepthFirst (MortonLocation 3 64) MortonLocation.positionInWords
        MortonLocation.compareInWords ∧
      ComparesDepthFirst (GridLocation 3) GridLocation.positionInWords
        (walkInWords GridLocation.positionInWords) :=
  ⟨inferInstance, comparesDepthFirst_codes_grid 3⟩

end AdaptiveMesh
