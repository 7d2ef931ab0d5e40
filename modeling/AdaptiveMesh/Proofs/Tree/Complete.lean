import AdaptiveMesh.Proofs.Location.Touch
import AdaptiveMesh.Proofs.Tree.Valid

/-!
# Complete trees

A tree is complete if each of its nodes has all children or none. The leaves of a complete tree
cover the root: every location is a node of the tree or lies below exactly one leaf.
-/

namespace AdaptiveMesh

open LocationCode

variable {D : Nat} {L : Type} [LocationCode D L]

namespace Tree

/-- A node with a descendant has all children. -/
def Complete (t : Tree L) : Prop :=
  ∀ x ∈ t.locations, ∀ y ∈ t.locations, isAncestorOf x y = true →
    ∀ p z, child? x p = some z → z ∈ t.locations

variable [LawfulLocation L] {t : Tree L}

namespace Complete

/-- Going down from the root, the tree holds a location unless a leaf is above it. -/
theorem mem_or_exists_leaf (hc : t.Complete) (ht : t.Valid) (y : L) : y ∈ t.locations ∨
    ∃ b, t.isLeaf b = true ∧ isAncestorOf (t.location b) y = true := by
  have hdown (k : Nat) (hk : k ≤ LocationCode.level y) : above y k ∈ t.locations ∨
      ∃ b, t.isLeaf b = true ∧ isAncestorOf (t.location b) y = true := by
    induction k with
    | zero =>
      left
      rw [eq_root_iff.2 (level_above (Nat.zero_le _))]
      exact ht.root_mem
    | succ k ih =>
      rcases ih (by omega) with hmem | hleaf
      · obtain ⟨n, hn⟩ := mem_locations_iff.1 hmem
        rcases hl : t.isLeaf n with _ | _
        · left
          obtain ⟨m, hm⟩ := ht.exists_below_of_not_isLeaf hl
          have hparent := parent?_above hk
          rw [← hn] at hparent
          exact hc _ (t.location_mem n) _ (t.location_mem m) hm _ _ (child?_childPosition hparent)
        · right
          refine ⟨n, hl, ?_⟩
          rw [hn]
          exact isAncestorOf_above hk
      · exact Or.inr hleaf
  have := hdown (LocationCode.level y) le_rfl
  rwa [above, Nat.sub_self, up] at this

/-- Over a location that is no internal node lies exactly one leaf. -/
theorem exists_leaf_covers (hc : t.Complete) (ht : t.Valid) {y : L}
    (hy : ∀ n, t.location n = y → t.isLeaf n = true) :
    ∃ b, t.isLeaf b = true ∧ Covers (t.location b) y := by
  rcases hc.mem_or_exists_leaf ht y with hmem | ⟨b, hb, hanc⟩
  · obtain ⟨n, hn⟩ := mem_locations_iff.1 hmem
    exact ⟨n, hy n hn, covers_iff.2 (Or.inl hn)⟩
  · exact ⟨b, hb, covers_iff.2 (Or.inr hanc)⟩

/-- A location of the deepest level lies in a leaf. -/
theorem exists_leaf_covers_deepest (hc : t.Complete) (ht : t.Valid) {y : L}
    (hy : LocationCode.level y = LocationCode.maxLevel L) :
    ∃ b, t.isLeaf b = true ∧ Covers (t.location b) y := by
  refine hc.exists_leaf_covers ht fun n hn => ht.isLeaf_iff.2 fun z _ => ?_
  rw [Bool.eq_false_iff, Ne, isAncestorOf_iff, hn, hy]
  have := LawfulLocation.level_le z
  omega

end Complete

/-- An internal node that touches a location has a leaf below it that does. -/
theorem Complete.exists_leaf_adjoins (hc : t.Complete) (ht : t.Valid) {x : L} {n : t.Node}
    (hn : t.isLeaf n = false) (hadj : Adjoins x (t.location n)) :
    ∃ b, t.isLeaf b = true ∧ isAncestorOf (t.location n) (t.location b) = true ∧
      Adjoins x (t.location b) := by
  obtain ⟨y, hy, hcover, hxy⟩ := exists_covers_adjoins (LawfulLocation.level_le _)
    (LawfulLocation.level_le _) le_rfl hadj
  obtain ⟨b, hb, hby⟩ := hc.exists_leaf_covers_deepest ht hy
  refine ⟨b, hb, ?_, hxy.of_covers hby⟩
  rcases Nat.le_total (t.level b) (t.level n) with h | h
  · rw [ht.eq_of_isLeaf_covers hb (hby.of_level_le hcover h), hn] at hb
    contradiction
  · rcases covers_iff.1 (hcover.of_level_le hby h) with heq | hanc
    · rw [← ht.location_injective heq, hn] at hb
      contradiction
    · exact hanc

end Tree

end AdaptiveMesh
