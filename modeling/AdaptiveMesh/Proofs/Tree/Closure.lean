import AdaptiveMesh.Proofs.Tree.Sorted

/-!
# The tree over some locations

The root, the given locations and everything above them, put in order and each kept once, are a
valid tree.
-/

namespace AdaptiveMesh

open LocationCode

/-! ## Dropping repetitions -/

section Repetitions

variable {α : Type} [DecidableEq α]

theorem eraseReps_loop (a : α) (xs seen : List α) :
    List.eraseRepsBy.loop (· == ·) a xs seen =
      seen.reverse ++ List.eraseRepsBy.loop (· == ·) a xs [] := by
  induction xs generalizing a seen with
  | nil => simp [List.eraseRepsBy.loop]
  | cons b xs ih =>
    rw [List.eraseRepsBy.loop, List.eraseRepsBy.loop]
    cases a == b with
    | true => exact ih a seen
    | false =>
      dsimp only
      rw [ih b (a :: seen), ih b [a], List.reverse_cons, List.append_assoc]
      rfl

theorem eraseReps_cons_cons (a b : α) (xs : List α) : (a :: b :: xs).eraseReps =
    if a = b then (b :: xs).eraseReps else a :: (b :: xs).eraseReps := by
  change List.eraseRepsBy.loop (· == ·) a (b :: xs) [] =
    if a = b then List.eraseRepsBy.loop (· == ·) b xs []
    else a :: List.eraseRepsBy.loop (· == ·) b xs []
  rw [List.eraseRepsBy.loop]
  by_cases h : a = b
  · rw [if_pos h, beq_iff_eq.2 h, h]
  · rw [if_neg h, beq_eq_false_iff_ne.2 h]
    exact eraseReps_loop b xs [a]

theorem mem_eraseReps {x : α} {xs : List α} : x ∈ xs.eraseReps ↔ x ∈ xs := by
  match xs with
  | [] => rfl
  | [a] => rfl
  | a :: b :: xs =>
    have ih : x ∈ (b :: xs).eraseReps ↔ x ∈ b :: xs := mem_eraseReps
    rw [eraseReps_cons_cons]
    by_cases h : a = b
    · rw [if_pos h, ih, h]
      simp
    · rw [if_neg h, List.mem_cons, ih, List.mem_cons (a := x) (b := a)]

/-- Where no entry goes before an earlier one, dropping repetitions leaves an ascending list. -/
theorem pairwise_eraseReps [Ord α] [Std.TransOrd α] [Std.LawfulEqOrd α] {xs : List α}
    (h : xs.Pairwise fun x y => (compare x y).isLE) :
    xs.eraseReps.Pairwise fun x y => compare x y = .lt := by
  match xs with
  | [] => exact List.Pairwise.nil
  | [a] => exact List.pairwise_singleton _ a
  | a :: b :: xs =>
    obtain ⟨ha, hb⟩ := List.pairwise_cons.1 h
    have ih := pairwise_eraseReps hb
    rw [eraseReps_cons_cons]
    by_cases hab : a = b
    · rwa [if_pos hab]
    · rw [if_neg hab]
      refine List.Pairwise.cons (fun c hc => ?_) ih
      have hlt : compare a b = .lt := by
        cases hcmp : compare a b with
        | lt => rfl
        | eq => exact absurd (Std.LawfulEqOrd.eq_of_compare hcmp) hab
        | gt => simpa [hcmp] using ha b List.mem_cons_self
      rcases List.mem_cons.1 (mem_eraseReps.1 hc) with rfl | hc
      · exact hlt
      · exact Std.TransCmp.lt_of_lt_of_isLE hlt ((List.pairwise_cons.1 hb).1 c hc)

end Repetitions

/-! ## Locations and everything above them -/

namespace Tree

variable {D : Nat} {L : Type} [LocationCode D L] [LawfulLocation L]

/-- The tree over some locations holds the root and the locations that cover a given one. -/
theorem mem_ofLocations_iff {xs : List L} {x : L} :
    x ∈ (ofLocations xs).locations ↔ x = root ∨ ∃ y ∈ xs, Covers x y := by
  rw [ofLocations, List.mem_toArray, mem_eraseReps, List.mem_mergeSort, List.mem_cons,
    List.mem_flatMap]
  simp only [List.mem_cons, mem_ancestors, covers_iff]

theorem valid_ofLocations (xs : List L) : (ofLocations xs).Valid := by
  have hascending : (ofLocations xs).locations.toList.Pairwise fun x y => compare x y = .lt := by
    refine pairwise_eraseReps (List.pairwise_mergeSort (fun _ _ _ => Std.TransCmp.isLE_trans)
      (fun x y => ?_) _)
    rw [Std.OrientedOrd.eq_swap (a := y)]
    cases compare x y <;> rfl
  refine ⟨?_, hascending, fun x hx y hy => ?_⟩
  · have hroot : root ∈ (ofLocations xs).locations.toList :=
      Array.mem_toList_iff.2 (mem_ofLocations_iff.2 (Or.inl rfl))
    rw [← Array.getElem?_toList]
    cases hlist : (ofLocations xs).locations.toList with
    | nil =>
      rw [hlist] at hroot
      contradiction
    | cons x ys =>
      rw [hlist] at hroot hascending
      rw [List.getElem?_cons_zero, Option.some.injEq]
      by_contra hne
      have hmem := (List.mem_cons.1 hroot).resolve_left (Ne.symm hne)
      exact Std.OrientedCmp.not_lt_of_lt ((List.pairwise_cons.1 hascending).1 root hmem)
        (compare_root_lt hne)
  · have hyx := covers_iff.2 (Or.inr (isAncestorOf_of_parent? hy))
    rw [mem_ofLocations_iff] at hx ⊢
    rcases hx with rfl | ⟨z, hz, hxz⟩
    · rw [parent?_eq_none_iff.2 level_root] at hy
      contradiction
    · exact Or.inr ⟨z, hz, hyx.trans hxz⟩

end Tree

end AdaptiveMesh
