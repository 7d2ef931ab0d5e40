import AdaptiveMesh.Proofs.Tree.Grown
import AdaptiveMesh.Proofs.Tree.Neighbor

/-!
# Leaves next to a leaf in one direction

The leaves next to a leaf in a direction lie at, above or below the location one step away, and of
these they are the ones that touch the leaf. They are listed as a depth-first walk meets them: the
children of a node are listed in that order, and whatever lies below one of them goes before
whatever lies below the next.
-/

namespace AdaptiveMesh

open LocationCode

variable {D : Nat} {L : Type} [LocationCode D L]

namespace LocationCode

/-- One step from `x` in a direction leads out of the root. -/
def StepsOut (d : Direction D) (x : L) : Prop :=
  ∃ i, ¬ (0 ≤ (place x i : ℤ) + d.offset.get i ∧ (place x i : ℤ) + d.offset.get i < 2 ^ level x)

variable [LawfulLocation L]

/-- A shift finds nothing exactly if the step leads out of the root. -/
theorem shift_eq_none_iff_stepsOut {d : Direction D} {x : L} :
    shift x d.offset = .ok none ↔ StepsOut d x := by
  rw [shift_eq_none_iff d.isUnit]
  push_cast
  rfl

end LocationCode

namespace Tree

variable [LawfulLocation L] {t : Tree L}

namespace Valid

/-! ## The order of the list -/

/-- Whatever lies at or below a child goes before whatever lies at or below a later one. -/
theorem pairwise_children (ht : t.Valid) (n : t.Node) : (t.children n).Pairwise fun m m' =>
    ∀ x y, Covers (t.location m) x → Covers (t.location m') y → compare x y = .lt := by
  unfold children
  split
  · exact List.Pairwise.nil
  · apply List.pairwise_filterMap.2
    apply (List.pairwise_lt_finRange _).imp
    intro p q hpq m hm m' hm' x y hx hy
    obtain ⟨c, hc, hcm⟩ := Option.bind_eq_some_iff.1 hm
    obtain ⟨e, he, hem⟩ := Option.bind_eq_some_iff.1 hm'
    rw [ht.nodeAt?_eq_some_iff.1 hcm] at hx
    rw [ht.nodeAt?_eq_some_iff.1 hem] at hy
    exact compare_of_covers_child? hc he hpq hx hy

/-- The leaves on a side of a node are listed in depth-first order. -/
theorem pairwise_facingLeaves (ht : t.Valid) (d : Direction D) (depth : Nat) (n : t.Node) :
    (t.facingLeaves d depth n).Pairwise fun b c =>
      compare (t.location b) (t.location c) = .lt := by
  induction depth generalizing n with
  | zero => exact List.Pairwise.nil
  | succ depth ih =>
    -- what is listed for a child lies at or below it
    have hbelow {m b : t.Node} (hb : b ∈ if isFacing d (childPosition (t.location m) (t.level m))
        then if t.isLeaf m then [m] else t.facingLeaves d depth m else []) :
        Covers (t.location m) (t.location b) := by
      split at hb
      · split at hb
        · rw [List.mem_singleton.1 hb]
          exact covers_refl _
        · exact covers_iff.2 (Or.inr (ht.mem_facingLeaves_iff.1 hb).2.1)
      · contradiction
    rw [facingLeaves, List.pairwise_flatMap]
    constructor
    · intro m _
      split
      · split
        · exact List.pairwise_singleton _ _
        · exact ih m
      · exact List.Pairwise.nil
    · apply (ht.pairwise_children n).imp
      intro m m' h b hb c hc
      exact h _ _ (hbelow hb) (hbelow hc)

theorem pairwise_leafNeighbors (ht : t.Valid) {a : t.Node} (ha : t.isLeaf a = true)
    {d : Direction D} {ns : List t.Node} (h : t.leafNeighbors a d = .ok ns) :
    ns.Pairwise fun b c => compare (t.location b) (t.location c) = .lt := by
  obtain ⟨-, hns⟩ | ⟨z, -, ⟨-, hns⟩ | ⟨n, -, ⟨-, hns⟩ | ⟨-, hns⟩⟩⟩ := leafNeighbors_cases ha d
  all_goals
    rw [hns] at h
    obtain rfl := Except.ok.inj h
  · exact List.Pairwise.nil
  · cases ((ancestors z).findSome? t.nodeAt?).filter t.isLeaf with
    | none => exact List.Pairwise.nil
    | some b => exact List.pairwise_singleton _ _
  · exact List.pairwise_singleton _ _
  · exact ht.pairwise_facingLeaves d _ n

/-! ## The leaves in the list -/

/-- Around the location one step away, the neighbours are the leaves that touch. -/
theorem isNeighborAlong_iff {a b : t.Node} {d : Direction D} {z : L}
    (hz : IsStep d (t.location a) z) : IsNeighborAlong t a d b ↔ t.isLeaf b = true ∧
      (t.location b = z ∨ isAncestorOf (t.location b) z = true ∨
        isAncestorOf z (t.location b) = true) ∧
      Touches t.maxLevel (t.location a) (t.location b) := by
  rw [touches_iff_adjoins (level_le_maxLevel a) (level_le_maxLevel b),
    isNeighborAlong_iff_of_isStep hz]
  refine and_congr_right fun _ => ?_
  constructor
  · rintro (h | h | ⟨h, hfaces⟩)
    · exact ⟨Or.inl h, h ▸ hz.adjoins⟩
    · exact ⟨Or.inr (Or.inl h), hz.adjoins_of_isAncestorOf h⟩
    · exact ⟨Or.inr (Or.inr h), (hz.adjoins_iff_faces h).2 hfaces⟩
  · rintro ⟨h | h | h, hadj⟩
    · exact Or.inl h
    · exact Or.inr (Or.inl h)
    · exact Or.inr (Or.inr ⟨h, (hz.adjoins_iff_faces h).1 hadj⟩)

/-- In a direction that leads out of the root a leaf has no neighbours. In every other one they are
the leaves at, above or below the location one step away whose closed boxes share a point with the
leaf's, each listed once and in depth-first order. -/
theorem leafNeighbors_touches_along (ht : t.Valid) {a : t.Node} (ha : t.isLeaf a = true)
    (d : Direction D) : ∃ ns, t.leafNeighbors a d = .ok ns ∧
      ns.Pairwise (fun b c => compare (t.location b) (t.location c) = .lt) ∧
      ((shift (t.location a) d.offset = .ok none ∧ StepsOut d (t.location a) ∧ ns = []) ∨
        ∃ z, shift (t.location a) d.offset = .ok (some z) ∧ IsStep d (t.location a) z ∧
          ∀ b, b ∈ ns ↔ t.isLeaf b = true ∧ (t.location b = z ∨
            isAncestorOf (t.location b) z = true ∨ isAncestorOf z (t.location b) = true) ∧
              Touches t.maxLevel (t.location a) (t.location b)) := by
  obtain ⟨ns, hns, hmem⟩ := ht.exists_leafNeighbors ha d
  refine ⟨ns, hns, ht.pairwise_leafNeighbors ha hns, ?_⟩
  obtain ⟨r, hr⟩ := shift_ok (t.location a) d.isUnit
  cases r with
  | none =>
    refine Or.inl ⟨hr, shift_eq_none_iff_stepsOut.1 hr, List.eq_nil_iff_forall_not_mem.2 ?_⟩
    intro b hb
    obtain ⟨-, z, hz, -⟩ := (hmem b).1 hb
    rw [shift_eq_some_iff_isStep.2 hz] at hr
    simp at hr
  | some z =>
    have hz := shift_eq_some_iff_isStep.1 hr
    exact Or.inr ⟨z, hr, hz, fun b => (hmem b).trans (isNeighborAlong_iff hz)⟩

end Valid

/-- Below the last leaf lies a node with one child, and that is the neighbour on this side. -/
theorem leafNeighbors_touches_along_gapped : gapped.Valid ∧ gapped.isLeaf ⟨4, by decide⟩ = true ∧
    ∃ (d : Direction 2) (ns : List gapped.Node), d.offset = #v[0, -1] ∧
      gapped.leafNeighbors ⟨4, by decide⟩ d = .ok ns ∧ ns = [⟨3, by decide⟩] ∧
      ∃ z, shift (gapped.location ⟨4, by decide⟩) d.offset = .ok (some z) ∧
        ∀ b, b ∈ ns ↔ gapped.isLeaf b = true ∧ (gapped.location b = z ∨
          isAncestorOf (gapped.location b) z = true ∨ isAncestorOf z (gapped.location b) = true) ∧
            Touches gapped.maxLevel (gapped.location ⟨4, by decide⟩) (gapped.location b) := by
  have hvalid : gapped.Valid := by decide +kernel
  have hleaf : gapped.isLeaf ⟨4, by decide⟩ = true := by decide +kernel
  let down : Direction 2 := ⟨#v[0, -1], by decide, by decide⟩
  have hlist : gapped.leafNeighbors ⟨4, by decide⟩ down = .ok [⟨3, by decide⟩] := by decide +kernel
  obtain ⟨ns, hns, -, ⟨-, -, hnil⟩ | ⟨z, hz, -, hmem⟩⟩ :=
    hvalid.leafNeighbors_touches_along hleaf down
  · rw [hlist, hnil] at hns
    simp at hns
  · exact ⟨hvalid, hleaf, down, ns, rfl, hns, Except.ok.inj (hns.symm.trans hlist), z, hz, hmem⟩

end Tree

end AdaptiveMesh
