import AdaptiveMesh.Proofs.Tree.Facing

/-!
# Moving about a tree

A lookup finds exactly the locations that a tree holds. From this it follows what moving about a
tree finds: the nodes below a node are those from which climbing by parents leads to it, and they
are the run of entries right behind it (`isBelow_iff_run`); its children are the nodes that have it
as their parent, and it is a leaf if there are none.
-/

namespace AdaptiveMesh

open LocationCode

variable {D : Nat} {L : Type} [LocationCode D L]

/-- Where a property is lost for good, the entries that have it are a run at the front. -/
theorem lt_length_takeWhile_iff {α : Type} {p : α → Bool} {xs : List α}
    (h : xs.Pairwise fun x y => p y = true → p x = true) {i : Nat} (hi : i < xs.length) :
    i < (xs.takeWhile p).length ↔ p xs[i] = true := by
  induction xs generalizing i with
  | nil => contradiction
  | cons x xs ih =>
    obtain ⟨hx, hxs⟩ := List.pairwise_cons.1 h
    rw [List.takeWhile_cons]
    cases hp : p x with
    | false =>
      refine iff_of_false (Nat.not_lt_zero i) fun hget => ?_
      cases i with
      | zero => exact absurd (hp.symm.trans hget) Bool.false_ne_true
      | succ i =>
        have hi : i < xs.length := Nat.lt_of_succ_lt_succ hi
        have hget : p xs[i] = true := hget
        rw [hx _ (List.getElem_mem hi) hget] at hp
        contradiction
    | true =>
      rw [if_pos rfl, List.length_cons]
      cases i with
      | zero => exact iff_of_true (Nat.succ_pos _) hp
      | succ i =>
        rw [Nat.add_lt_add_iff_right]
        exact ih hxs (Nat.lt_of_succ_lt_succ hi)

namespace Tree

/-- Climbing by parents from node `m` leads to node `n`. -/
def IsBelow (t : Tree L) (m n : t.Node) : Prop :=
  Relation.TransGen (fun a b => t.parent? a = some b) m n

variable [LawfulLocation L] {t : Tree L}

namespace Valid

/-! ## Parents and children -/

theorem parent?_eq_iff (ht : t.Valid) {m n : t.Node} :
    t.parent? m = some n ↔ LocationCode.parent? (t.location m) = some (t.location n) := by
  rw [parent?, Option.bind_eq_some_iff]
  constructor
  · rintro ⟨y, hy, hn⟩
    rw [hy, ht.nodeAt?_eq_some_iff.1 hn]
  · intro h
    exact ⟨_, h, ht.nodeAt?_location n⟩

/-- Every node but the root has a parent. -/
theorem isSome_parent?_iff (ht : t.Valid) {n : t.Node} :
    (t.parent? n).isSome = true ↔ t.location n ≠ root := by
  rw [Option.isSome_iff_exists]
  constructor
  · rintro ⟨m, hm⟩ hroot
    have := (parent?_eq_some_iff.1 (ht.parent?_eq_iff.1 hm)).1
    rw [hroot, level_root] at this
    omega
  · intro hne
    obtain ⟨_, hmem, hparent⟩ := ht.exists_parent (t.location_mem n) hne
    obtain ⟨m, rfl⟩ := mem_locations_iff.1 hmem
    exact ⟨m, ht.parent?_eq_iff.2 hparent⟩

/-- The children of a node are listed by index, which is by child position. -/
theorem pairwise_lt_children (ht : t.Valid) (n : t.Node) : (t.children n).Pairwise fun m m' =>
    m < m' ∧ childPosition (t.location m) (t.level m) <
      childPosition (t.location m') (t.level m') := by
  refine (ht.pairwise_children n).imp_of_mem fun {m m'} hm hm' h => ?_
  have hlt := h _ _ (covers_refl _) (covers_refl _)
  have hcompare := compare_of_child? (child?_childPosition (ht.mem_children_iff.1 hm))
    (child?_childPosition (ht.mem_children_iff.1 hm'))
  rw [hlt] at hcompare
  exact ⟨ht.lt_iff.2 hlt, compare_lt_iff_lt.1 hcompare.symm⟩

theorem children_eq_filter (ht : t.Valid) (n : t.Node) :
    t.children n = t.nodes.filter fun m => t.parent? m = some n := by
  have hnodes : (t.nodes.filter fun m => t.parent? m = some n).Pairwise (· < ·) :=
    (List.pairwise_lt_finRange _).filter _
  have hchildren : (t.children n).Pairwise (· < ·) := (ht.pairwise_lt_children n).imp And.left
  refine hchildren.eq_of_mem_iff hnodes fun m => ?_
  rw [ht.mem_children_iff, List.mem_filter, decide_eq_true_eq, ht.parent?_eq_iff]
  exact (and_iff_right (List.mem_finRange m)).symm

/-! ## Below a node -/

/-- A node below another is one of its children or lies below one. -/
theorem exists_parent?_of_isAncestorOf (ht : t.Valid) {m n : t.Node}
    (h : isAncestorOf (t.location n) (t.location m) = true) : ∃ k, t.parent? m = some k ∧
      (k = n ∨ isAncestorOf (t.location n) (t.location k) = true) := by
  have hm : t.location m ≠ root := fun hroot => by
    have := (isAncestorOf_iff.1 h).1
    rw [hroot, level_root] at this
    omega
  obtain ⟨k, hk⟩ := Option.isSome_iff_exists.1 (ht.isSome_parent?_iff.2 hm)
  refine ⟨k, hk, ?_⟩
  exact ((isAncestorOf_iff_parent? (ht.parent?_eq_iff.1 hk)).1 h).imp
    (fun heq => (ht.location_injective heq).symm) id

theorem isBelow_iff (ht : t.Valid) {m n : t.Node} :
    t.IsBelow m n ↔ isAncestorOf (t.location n) (t.location m) = true := by
  have hstep {a b : t.Node} (h : t.parent? a = some b) :
      isAncestorOf (t.location b) (t.location a) = true :=
    isAncestorOf_of_parent? (ht.parent?_eq_iff.1 h)
  constructor
  · intro h
    induction h with
    | single h => exact hstep h
    | tail _ h ih => exact isAncestorOf_trans (hstep h) ih
  · intro h
    induction hl : t.level m generalizing m with
    | zero =>
      have : t.level n < t.level m := (isAncestorOf_iff.1 h).1
      omega
    | succ l ih =>
      obtain ⟨k, hk, rfl | hbelow⟩ := ht.exists_parent?_of_isAncestorOf h
      · exact .single hk
      · have : t.level m = t.level k + 1 :=
          (parent?_eq_some_iff.1 (ht.parent?_eq_iff.1 hk)).1
        exact .head hk (ih hbelow (by omega))

omit [LawfulLocation L] in
theorem length_descendants_le (n : t.Node) : n.val + 1 + (t.descendants n).length ≤ t.size := by
  have hle : (t.descendants n).length ≤ (t.locations.toList.drop (n + 1)).length :=
    (List.takeWhile_sublist _).length_le
  have hsize : t.locations.toList.length = t.size := rfl
  have hn : n.val < t.size := n.isLt
  rw [List.length_drop, hsize] at hle
  omega

/-- The nodes below a node are the entries right behind it, as many as it has descendants. -/
theorem isBelow_iff_run (ht : t.Valid) {m n : t.Node} :
    t.IsBelow m n ↔ n.val + 1 ≤ m.val ∧ m.val < n.val + 1 + (t.descendants n).length := by
  rw [ht.isBelow_iff]
  rcases Nat.lt_or_ge n m with hnm | hmn
  · obtain ⟨i, hi⟩ := Nat.exists_eq_add_of_le (Nat.succ_le_of_lt hnm)
    have hlt : i < (t.locations.toList.drop (n + 1)).length := by
      have : m.val < t.locations.size := m.isLt
      rw [List.length_drop, Array.length_toList]
      omega
    have hget : (t.locations.toList.drop (n + 1))[i] = t.location m := by
      rw [List.getElem_drop, Array.getElem_toList]
      exact getElem_congr_idx hi.symm
    rw [← hget, ← lt_length_takeWhile_iff (ht.pairwise_behind n) hlt, descendants]
    omega
  · refine iff_of_false (fun h => ?_) (by omega)
    exact absurd (ht.lt_iff.2 (compare_of_isAncestorOf h)) (Nat.not_lt.2 hmn)

/-- A leaf is no node's parent, and every other node is. -/
theorem isLeaf_iff_parent? (ht : t.Valid) {n : t.Node} :
    t.isLeaf n = true ↔ ∀ m, t.parent? m ≠ some n := by
  constructor
  · intro hn m hm
    rw [ht.isLeaf_eq_false (isAncestorOf_of_parent? (ht.parent?_eq_iff.1 hm))] at hn
    contradiction
  · intro h
    by_contra hn
    obtain ⟨m, hm⟩ := ht.exists_below_of_not_isLeaf (Bool.eq_false_iff.2 hn)
    obtain ⟨k, -, hk⟩ := Relation.TransGen.tail'_iff.1 (ht.isBelow_iff.2 hm)
    exact h k hk

theorem pairwise_leaves (ht : t.Valid) : t.leaves.Pairwise fun m n =>
    depthFirstCompare (t.location m) (t.location n) = .lt := by
  refine ((List.pairwise_lt_finRange _).filter _).imp fun h => ?_
  rw [← LawfulLocation.compare_eq]
  exact ht.compare_lt h

/-- What moving about a tree finds is what the tree holds. A lookup finds each node at its location
and nothing at a location that is not listed. The nodes below a node, whether found by climbing or
by asking for ancestors, are one run right behind it. The children are the nodes with it as their
parent, by position and by index, and a leaf is the parent of none. Every node but the root has a
parent, and the leaves are listed in depth-first order. -/
theorem navigates (ht : t.Valid) :
    (∀ n, t.nodeAt? (t.location n) = some n) ∧
    (∀ x, x ∉ t.locations → t.nodeAt? x = none) ∧
    (∀ n, n.val + 1 + (t.descendants n).length ≤ t.size ∧ ∀ m,
      (t.IsBelow m n ↔ n.val + 1 ≤ m.val ∧ m.val < n.val + 1 + (t.descendants n).length) ∧
      (t.IsBelow m n ↔ isAncestorOf (t.location n) (t.location m) = true)) ∧
    (∀ n, t.isLeaf n = true ↔ ∀ m, t.parent? m ≠ some n) ∧
    (∀ n, t.children n = (t.nodes.filter fun m => t.parent? m = some n) ∧
      (t.children n).Pairwise fun m m' => m < m' ∧
        childPosition (t.location m) (t.level m) < childPosition (t.location m') (t.level m')) ∧
    (∀ n, (t.parent? n).isSome = true ↔ t.location n ≠ root) ∧
    (∀ n, n ∈ t.leaves ↔ ∀ m, t.parent? m ≠ some n) ∧
    t.leaves.Pairwise fun m n => depthFirstCompare (t.location m) (t.location n) = .lt := by
  refine ⟨ht.nodeAt?_location, fun x hx => ht.nodeAt?_eq_none_iff.2 hx, fun n => ⟨?_, fun m => ?_⟩,
    fun n => ht.isLeaf_iff_parent?, fun n => ⟨ht.children_eq_filter n, ht.pairwise_lt_children n⟩,
    fun n => ht.isSome_parent?_iff, fun n => ?_, ht.pairwise_leaves⟩
  · exact length_descendants_le n
  · exact ⟨ht.isBelow_iff_run, ht.isBelow_iff⟩
  · exact mem_leaves_iff.trans ht.isLeaf_iff_parent?

end Valid

/-- Below the root one child is missing and below the second of the others all but one. -/
theorem navigates_gapped : gapped.Valid ∧
    gapped.nodeAt? (.square 1 0 1) = none ∧
    (∀ m, gapped.IsBelow m ⟨2, by decide⟩ ↔ 3 ≤ m.val ∧ m.val < 4) ∧
    (gapped.nodes.filter fun m => gapped.parent? m = some ⟨0, by decide⟩) =
      [⟨1, by decide⟩, ⟨2, by decide⟩, ⟨4, by decide⟩] := by
  have hvalid : gapped.Valid := by decide +kernel
  obtain ⟨-, hnone, hbelow, -, hchildren, -⟩ := hvalid.navigates
  refine ⟨hvalid, hnone _ (by decide +kernel), fun m => ?_, ?_⟩
  · have hlength : (gapped.descendants ⟨2, by decide⟩).length = 1 := by decide +kernel
    have := ((hbelow ⟨2, by decide⟩).2 m).1
    rwa [hlength] at this
  · rw [← (hchildren ⟨0, by decide⟩).1]
    decide +kernel

end Tree

end AdaptiveMesh
