import AdaptiveMesh.Proofs.Tree.Grown
import AdaptiveMesh.Proofs.Tree.Neighbor

/-!
# Leaves over locations

Going up from a location meets at most one leaf of a valid tree, since no leaf is above another. In
a complete tree it meets one unless the location is above a leaf itself, so the leaves cover every
level that is no higher than the deepest leaf, each location once.
-/

namespace AdaptiveMesh

open LocationCode

variable {D : Nat} {L : Type} [LocationCode D L]

namespace Tree

/-- The leaves among a location and its ancestors, nearest first. -/
def leavesOver (t : Tree L) (x : L) : List t.Node :=
  ((x :: ancestors x).filterMap t.nodeAt?).filter t.isLeaf

variable [LawfulLocation L] {t : Tree L}

namespace Valid

theorem mem_leavesOver_iff (ht : t.Valid) {x : L} {b : t.Node} :
    b ∈ t.leavesOver x ↔ t.isLeaf b = true ∧ Covers (t.location b) x := by
  simp only [leavesOver, List.mem_filter, List.mem_filterMap, List.mem_cons, mem_ancestors,
    ht.nodeAt?_eq_some_iff, exists_eq_right', covers_iff]
  exact and_comm

/-- Of two nodes on the way up the second is above the first, so the first cannot be a leaf if the
second is one. -/
theorem length_leavesOver_le (ht : t.Valid) (x : L) : (t.leavesOver x).length ≤ 1 := by
  have hup : (x :: ancestors x).Pairwise fun y z => isAncestorOf z y = true :=
    List.pairwise_cons.2 ⟨fun z hz => mem_ancestors.1 hz, pairwise_ancestorsWithin le_rfl⟩
  have hnodes : ((x :: ancestors x).filterMap t.nodeAt?).Pairwise fun m n =>
      isAncestorOf (t.location n) (t.location m) = true := by
    refine hup.filterMap t.nodeAt? fun y z hzy m hm n hn => ?_
    rwa [ht.nodeAt?_eq_some_iff.1 hm, ht.nodeAt?_eq_some_iff.1 hn]
  have hleaves : (t.leavesOver x).Pairwise fun m n =>
      isAncestorOf (t.location n) (t.location m) = true := hnodes.filter _
  rcases hover : t.leavesOver x with _ | ⟨m, _ | ⟨n, rest⟩⟩
  · exact Nat.zero_le 1
  · exact le_rfl
  · rw [hover] at hleaves
    have hn : t.isLeaf n = true :=
      (ht.mem_leavesOver_iff.1 (hover ▸ List.mem_cons_of_mem m List.mem_cons_self)).1
    have hnm := (List.pairwise_cons.1 hleaves).1 n List.mem_cons_self
    rw [ht.isLeaf_eq_false hnm] at hn
    contradiction

theorem leavesOver_eq_singleton_iff (ht : t.Valid) {x : L} {b : t.Node} :
    t.leavesOver x = [b] ↔ t.isLeaf b = true ∧ Covers (t.location b) x := by
  rw [← ht.mem_leavesOver_iff]
  constructor
  · intro h
    rw [h]
    exact List.mem_singleton_self b
  · intro hb
    obtain ⟨c, hc⟩ := List.length_eq_one_iff.1
      (le_antisymm (ht.length_leavesOver_le x) (List.length_pos_of_mem hb))
    rw [hc] at hb ⊢
    rw [List.mem_singleton.1 hb]

/-- Over a location above a leaf there is no leaf. -/
theorem leavesOver_eq_nil (ht : t.Valid) {x : L} {b : t.Node}
    (hb : isAncestorOf x (t.location b) = true) : t.leavesOver x = [] := by
  refine List.eq_nil_iff_forall_not_mem.2 fun a ha => ?_
  obtain ⟨ha, hcovers⟩ := ht.mem_leavesOver_iff.1 ha
  have habove : isAncestorOf (t.location a) (t.location b) = true := by
    rcases covers_iff.1 hcovers with rfl | hanc
    · exact hb
    · exact isAncestorOf_trans hanc hb
  rw [ht.isLeaf_eq_false habove] at ha
  contradiction

/-- Below an internal node there is a leaf. -/
theorem exists_leaf_below (ht : t.Valid) {n : t.Node} (hn : t.isLeaf n = false) :
    ∃ b, t.isLeaf b = true ∧ isAncestorOf (t.location n) (t.location b) = true := by
  -- of the nodes below, one of the deepest level is a leaf
  let below : Finset t.Node := {m | isAncestorOf (t.location n) (t.location m) = true}
  have hne : below.Nonempty := by
    obtain ⟨m, hm⟩ := ht.exists_below_of_not_isLeaf hn
    exact ⟨m, by simpa [below] using hm⟩
  obtain ⟨b, hb, hdeepest⟩ := below.exists_max_image t.level hne
  have hb : isAncestorOf (t.location n) (t.location b) = true := by simpa [below] using hb
  refine ⟨b, ?_, hb⟩
  by_contra hleaf
  obtain ⟨m, hm⟩ := ht.exists_below_of_not_isLeaf (Bool.eq_false_iff.2 hleaf)
  have hlevel := hdeepest m (by simpa [below] using isAncestorOf_trans hb hm)
  have : t.level b < t.level m := (isAncestorOf_iff.1 hm).1
  omega

end Valid

namespace Complete

/-- An internal node of a complete tree has a child at every position. -/
theorem exists_child (hc : t.Complete) (ht : t.Valid) {n : t.Node} (hn : t.isLeaf n = false)
    (p : ChildPosition D) : ∃ m, (child? (t.location n) p).bind t.nodeAt? = some m := by
  obtain ⟨b, hb⟩ := ht.exists_below_of_not_isLeaf hn
  cases hx : child? (t.location n) p with
  | none => exact absurd (child?_eq_none_iff.1 hx) (ht.level_lt_of_not_isLeaf hn).ne
  | some x =>
    obtain ⟨m, hm⟩ := mem_locations_iff.1
      (hc _ (t.location_mem n) _ (t.location_mem b) hb p x hx)
    exact ⟨m, ht.nodeAt?_eq_some_iff.2 hm⟩

theorem length_children (hc : t.Complete) (ht : t.Valid) {n : t.Node} (hn : t.isLeaf n = false) :
    (t.children n).length = 2 ^ D := by
  have hall : ∀ p ∈ ChildPosition.all D,
      ((child? (t.location n) p).bind t.nodeAt?).isSome = true := fun p _ => by
    obtain ⟨m, hm⟩ := hc.exists_child ht hn p
    rw [hm]
    rfl
  rw [children, hn, if_neg Bool.false_ne_true, List.length_filterMap_eq_countP,
    List.countP_eq_length.2 hall, ChildPosition.all, List.length_finRange]

/-- A location with no leaf below it lies in a leaf. -/
theorem exists_leavesOver_eq_singleton (hc : t.Complete) (ht : t.Valid) {x : L}
    (hx : ∀ b, t.isLeaf b = true → isAncestorOf x (t.location b) = false) :
    ∃ b, t.leavesOver x = [b] := by
  have hleaf : ∀ n, t.location n = x → t.isLeaf n = true := by
    rintro n rfl
    by_contra hn
    obtain ⟨b, hb, hanc⟩ := ht.exists_leaf_below (Bool.eq_false_iff.2 hn)
    rw [hx b hb] at hanc
    contradiction
  obtain ⟨b, hb⟩ := hc.exists_leaf_covers ht hleaf
  exact ⟨b, ht.leavesOver_eq_singleton_iff.2 hb⟩

end Complete

/-- In a tree that was grown every internal node has all children, and every location is above a
leaf or has exactly one leaf among itself and its ancestors, but not both. So the leaves cover each
level from the deepest leaf on, each location once. In any valid tree a location has at most one
leaf among itself and its ancestors. -/
theorem leaves_partition (L : Type) [LocationCode D L] [LawfulLocation L] :
    (∀ t : Tree L, t.Grown →
      (∀ n, t.isLeaf n = false → (t.children n).length = 2 ^ D ∧
        ∀ p, ∃ m ∈ t.children n, child? (t.location n) p = some (t.location m)) ∧
      (∀ x : L, (∃ b, t.isLeaf b = true ∧ isAncestorOf x (t.location b) = true) ∧
          t.leavesOver x = [] ∨
        (∀ b, t.isLeaf b = true → isAncestorOf x (t.location b) = false) ∧
          ∃ b, t.leavesOver x = [b]) ∧
      ∀ x : L, t.maxLevel ≤ LocationCode.level x → ∃ b, t.leavesOver x = [b]) ∧
    ∀ t : Tree L, t.Valid → ∀ x : L, (t.leavesOver x).length ≤ 1 := by
  refine ⟨fun t hgrown => ?_, fun t ht x => ht.length_leavesOver_le x⟩
  obtain ⟨ht, hc⟩ := hgrown.valid_complete
  refine ⟨fun n hn => ⟨hc.length_children ht hn, fun p => ?_⟩, fun x => ?_, fun x hx => ?_⟩
  · obtain ⟨m, hm⟩ := hc.exists_child ht hn p
    obtain ⟨y, hy, hym⟩ := Option.bind_eq_some_iff.1 hm
    have hy : child? (t.location n) p = some (t.location m) := by
      rw [hy, ht.nodeAt?_eq_some_iff.1 hym]
    exact ⟨m, ht.mem_children_iff.2 (parent?_of_child? hy), hy⟩
  · by_cases hbelow : ∃ b, t.isLeaf b = true ∧ isAncestorOf x (t.location b) = true
    · obtain ⟨b, hleaf, hb⟩ := hbelow
      exact Or.inl ⟨⟨b, hleaf, hb⟩, ht.leavesOver_eq_nil hb⟩
    · have hnone : ∀ b, t.isLeaf b = true → isAncestorOf x (t.location b) = false :=
        fun b hb => Bool.eq_false_iff.2 fun hanc => hbelow ⟨b, hb, hanc⟩
      exact Or.inr ⟨hnone, hc.exists_leavesOver_eq_singleton ht hnone⟩
  · refine hc.exists_leavesOver_eq_singleton ht fun b _ => Bool.eq_false_iff.2 fun hanc => ?_
    have := (isAncestorOf_iff.1 hanc).1
    have : t.level b ≤ t.maxLevel := level_le_maxLevel b
    have : t.level b = LocationCode.level (t.location b) := rfl
    omega

/-- A grown tree, and one in which no leaf lies over one of the squares. -/
theorem leaves_partition_graded_sparse : graded.Grown ∧ sparse.Valid ∧
    (∀ n, graded.isLeaf n = false → (graded.children n).length = 4) ∧
    (∀ x : GridLocation 2, 2 ≤ LocationCode.level x → ∃ b, graded.leavesOver x = [b]) ∧
    (∀ x : GridLocation 2, (sparse.leavesOver x).length ≤ 1) ∧
    sparse.leavesOver (.square 2 0 0) = [] := by
  have hvalid : sparse.Valid := by decide +kernel
  obtain ⟨hgrown, hatMost⟩ := leaves_partition (GridLocation 2)
  obtain ⟨hchildren, -, hdeep⟩ := hgrown graded grown_graded
  exact ⟨grown_graded, hvalid, fun n hn => (hchildren n hn).1,
    fun x hx => hdeep x (by rwa [show graded.maxLevel = 2 by decide +kernel]),
    fun x => hatMost sparse hvalid x, by decide +kernel⟩

end Tree

end AdaptiveMesh
