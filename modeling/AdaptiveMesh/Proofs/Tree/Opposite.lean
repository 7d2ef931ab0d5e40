import AdaptiveMesh.Proofs.Tree.Neighbor

/-!
# Neighbours of the same level

The node next to a node in a direction is the one of its level whose places are one step further,
if the tree holds it. A step back in the opposite direction leads to the node again.
-/

namespace AdaptiveMesh

open LocationCode

variable {D : Nat} {L : Type} [LocationCode D L]

theorem Direction.get_offset_opposite (d : Direction D) (i : Fin D) :
    d.opposite.offset.get i = -d.offset.get i := by
  simp [opposite]

namespace LocationCode

theorem IsStep.opposite {d : Direction D} {x y : L} (h : IsStep d x y) : IsStep d.opposite y x := by
  refine ⟨h.1.symm, fun i => ?_⟩
  have := h.2 i
  rw [d.get_offset_opposite]
  omega

end LocationCode

namespace Tree

variable [LawfulLocation L] {t : Tree L}

/-- No node is refused its neighbour, and that is the node one step away. -/
theorem Valid.exists_neighbor (ht : t.Valid) (n : t.Node) (d : Direction D) :
    ∃ r, t.neighbor n d = .ok r ∧ ∀ m, r = some m ↔ IsStep d (t.location n) (t.location m) := by
  obtain ⟨target, hshift⟩ := shift_ok (t.location n) d.isUnit
  refine ⟨target.bind t.nodeAt?, ?_, fun m => ?_⟩
  · rw [neighbor, hshift]
    rfl
  · rw [← shift_eq_some_iff_isStep, hshift, Except.ok.injEq, Option.bind_eq_some_iff]
    simp only [ht.nodeAt?_eq_some_iff, exists_eq_right']

/-- A neighbour has the level of the node and its places moved by the direction, and the node is its
neighbour in the opposite direction. Without a neighbour the moved places are outside the root, or
no node of that level has them. -/
theorem Valid.neighbor_opposite (ht : t.Valid) (n : t.Node) (d : Direction D) :
    ∃ r, t.neighbor n d = .ok r ∧
      (∀ m, r = some m → t.level m = t.level n ∧ m ≠ n ∧
        (∀ i, (place (t.location m) i : Int) = movedPlace (t.location n) d.offset i) ∧
        t.neighbor m d.opposite = .ok (some n)) ∧
      (r = none →
        (∃ i, ¬ (0 ≤ movedPlace (t.location n) d.offset i ∧
          movedPlace (t.location n) d.offset i < (2 ^ t.level n : Nat))) ∨
        (∀ i, 0 ≤ movedPlace (t.location n) d.offset i ∧
          movedPlace (t.location n) d.offset i < (2 ^ t.level n : Nat)) ∧
          ∀ m, t.level m = t.level n →
            ∃ i, (place (t.location m) i : Int) ≠ movedPlace (t.location n) d.offset i) := by
  obtain ⟨r, hr, hstep⟩ := ht.exists_neighbor n d
  refine ⟨r, hr, fun m hm => ?_, ?_⟩
  · have hm := (hstep m).1 hm
    obtain ⟨back, hback, hstep'⟩ := ht.exists_neighbor m d.opposite
    refine ⟨hm.1, fun h => hm.ne (congrArg t.location h), hm.2, ?_⟩
    rw [hback, (hstep' n).2 hm.opposite]
  · rintro rfl
    by_cases hin : ∀ i, 0 ≤ movedPlace (t.location n) d.offset i ∧
        movedPlace (t.location n) d.offset i < (2 ^ t.level n : Nat)
    · refine Or.inr ⟨hin, fun m hlevel => ?_⟩
      by_contra hplaces
      have hm : IsStep d (t.location n) (t.location m) :=
        ⟨hlevel, fun i => by_contra fun h => hplaces ⟨i, h⟩⟩
      exact absurd ((hstep m).2 hm) (by simp)
    · exact Or.inl (not_forall.1 hin)

/-- Two leaves that meet in a corner, and a leaf with nothing of its level beside it. -/
theorem neighbor_opposite_sparse : sparse.Valid ∧ ∃ d : Direction 2, d.offset = #v[1, 1] ∧
    ∃ low fine high : sparse.Node, sparse.neighbor low d = .ok (some high) ∧
      sparse.neighbor high d.opposite = .ok (some low) ∧ sparse.level high = 1 ∧
      sparse.neighbor fine d = .ok none ∧ sparse.level fine = 2 ∧
      ∀ m, sparse.level m = 2 →
        ∃ i, (place (sparse.location m) i : Int) ≠ movedPlace (sparse.location fine) d.offset i := by
  have hvalid : sparse.Valid := by decide +kernel
  let d : Direction 2 := ⟨#v[1, 1], by decide, by decide⟩
  have hhigh : sparse.neighbor ⟨1, by decide⟩ d = .ok (some ⟨3, by decide⟩) := by decide +kernel
  have hfine : sparse.neighbor ⟨2, by decide⟩ d = .ok none := by decide +kernel
  obtain ⟨r, hr, hsome, -⟩ := hvalid.neighbor_opposite ⟨1, by decide⟩ d
  obtain ⟨-, -, -, hback⟩ := hsome ⟨3, by decide⟩ (Except.ok.inj (hr.symm.trans hhigh))
  obtain ⟨r', hr', -, hnone⟩ := hvalid.neighbor_opposite ⟨2, by decide⟩ d
  refine ⟨hvalid, d, rfl, _, ⟨2, by decide⟩, _, hhigh, hback, by decide +kernel, hfine,
    by decide +kernel, ?_⟩
  obtain ⟨i, hi⟩ | ⟨-, hplaces⟩ := hnone (Except.ok.inj (hr'.symm.trans hfine))
  · exact absurd (show ∀ i, 0 ≤ movedPlace (sparse.location ⟨2, by decide⟩) d.offset i ∧
      movedPlace (sparse.location ⟨2, by decide⟩) d.offset i <
        (2 ^ sparse.level ⟨2, by decide⟩ : Nat) by decide +kernel) fun h => hi (h i)
  · exact hplaces

end Tree

end AdaptiveMesh
