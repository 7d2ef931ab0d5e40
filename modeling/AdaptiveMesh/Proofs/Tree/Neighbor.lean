import AdaptiveMesh.Proofs.Except
import AdaptiveMesh.Proofs.Location.Grid
import AdaptiveMesh.Proofs.Location.Touch
import AdaptiveMesh.Proofs.Tree.Valid
import AdaptiveMesh.Tree.Neighbor

/-!
# Leaves that touch

In a valid tree the leaves next to a leaf in a direction are those at, above or below the location
one step away that touch it (`exists_leafNeighbors`). Over all directions these are exactly the
leaves that touch the leaf, each listed once, so the relation is symmetric.
-/

namespace AdaptiveMesh

open LocationCode

variable {D : Nat} {L : Type} [LocationCode D L] [LawfulLocation L]

theorem nodup_eraseDups {α : Type} [DecidableEq α] (xs : List α) : xs.eraseDups.Nodup := by
  induction h : xs.length using Nat.strong_induction_on generalizing xs with
  | _ n ih =>
    cases xs with
    | nil => simp
    | cons x xs =>
      have hlen : (xs.filter fun y => !y == x).length < n := by
        rw [← h, List.length_cons]
        exact Nat.lt_succ_of_le (List.length_filter_le _ _)
      rw [List.eraseDups_cons, List.nodup_cons]
      exact ⟨by simp, ih _ hlen _ rfl⟩

namespace Tree

variable {t : Tree L}

omit [LawfulLocation L] in
theorem level_le_maxLevel (n : t.Node) : t.level n ≤ t.maxLevel :=
  (foldl_max_le_iff.1 le_rfl).2 _ (Array.mem_toList_iff.2 (t.location_mem n))

theorem maxLevel_le : t.maxLevel ≤ LocationCode.maxLevel L :=
  foldl_max_le_iff.2 ⟨Nat.zero_le _, fun x _ => LawfulLocation.level_le x⟩

/-- What lies at the end of the step decides which leaves are listed. -/
theorem leafNeighbors_cases {a : t.Node} (ha : t.isLeaf a = true) (d : Direction D) :
    shift (t.location a) d.offset = .ok none ∧ t.leafNeighbors a d = .ok [] ∨
      ∃ z, shift (t.location a) d.offset = .ok (some z) ∧
        (t.nodeAt? z = none ∧ t.leafNeighbors a d =
            .ok (((ancestors z).findSome? t.nodeAt?).filter t.isLeaf).toList ∨
          ∃ n, t.nodeAt? z = some n ∧
            (t.isLeaf n = true ∧ t.leafNeighbors a d = .ok [n] ∨
              t.isLeaf n = false ∧ t.leafNeighbors a d =
                .ok (t.facingLeaves d (LocationCode.maxLevel L - t.level n) n))) := by
  obtain ⟨r, hr⟩ := shift_ok (t.location a) d.isUnit
  unfold leafNeighbors
  rw [if_pos ha, hr, ok_bind]
  rcases r with _ | z
  · exact Or.inl ⟨rfl, rfl⟩
  · refine Or.inr ⟨z, rfl, ?_⟩
    rcases hn : t.nodeAt? z with _ | n
    · simp only [hn]
      exact Or.inl ⟨trivial, rfl⟩
    · simp only [hn]
      refine Or.inr ⟨n, rfl, ?_⟩
      cases t.isLeaf n with
      | true => exact Or.inl ⟨rfl, rfl⟩
      | false => exact Or.inr ⟨rfl, rfl⟩

/-- A leaf is refused its neighbours in no direction, however the nodes are listed. -/
theorem exists_leafNeighbors_eq_ok {a : t.Node} (ha : t.isLeaf a = true) (d : Direction D) :
    ∃ ns, t.leafNeighbors a d = .ok ns := by
  obtain ⟨_, h⟩ | ⟨_, _, ⟨_, h⟩ | ⟨_, _, ⟨_, h⟩ | ⟨_, h⟩⟩⟩ := leafNeighbors_cases ha d
  all_goals exact ⟨_, h⟩

/-! ## Facing leaves -/

theorem isFacing_iff {d : Direction D} {p : ChildPosition D} : isFacing d p = true ↔
    ∀ i : Fin D, d.offset.get i = 0 ∨ p.side i = -d.offset.get i :=
  decide_eq_true_iff

/-- Below a child, exactly the locations face that face below the child's parent. -/
theorem faces_parent_iff {d : Direction D} {x m y : L} (hm : LocationCode.parent? m = some x)
    (hy : Covers m y) :
    Faces d x y ↔ isFacing d (childPosition m (LocationCode.level m)) = true ∧ Faces d m y := by
  have hl := (parent?_eq_some_iff.1 hm).1
  have hle := hy.1
  have habove : above y (LocationCode.level m) = m :=
    (covers_above hle).eq_of_level_eq hy (level_above hle)
  have hpos : childPosition m (LocationCode.level m) = childPosition y (LocationCode.level m) := by
    have := childPosition_above (x := y) (k := LocationCode.level m) hle (by omega) le_rfl
    rwa [habove] at this
  rw [isFacing_iff, hpos]
  constructor
  · intro h
    exact ⟨h _ (by omega) hle, fun l h₁ h₂ => h l (by omega) h₂⟩
  · rintro ⟨h₀, h⟩ l h₁ h₂
    rcases Nat.lt_or_ge (LocationCode.level m) l with hlt | hge
    · exact h l hlt h₂
    · obtain rfl : l = LocationCode.level m := by omega
      exact h₀

omit [LawfulLocation L] in
theorem faces_self (d : Direction D) (x : L) : Faces d x x := fun _ h₁ h₂ =>
  absurd h₁ (Nat.not_lt.2 h₂)

namespace Valid

theorem mem_facingLeaves_iff (ht : t.Valid) {d : Direction D} {depth : Nat} {n b : t.Node} :
    b ∈ t.facingLeaves d depth n ↔ t.isLeaf b = true ∧
      isAncestorOf (t.location n) (t.location b) = true ∧ t.level b ≤ t.level n + depth ∧
      Faces d (t.location n) (t.location b) := by
  induction depth generalizing n with
  | zero =>
    simp only [facingLeaves, List.not_mem_nil, false_iff]
    rintro ⟨-, hanc, hle, -⟩
    have := (isAncestorOf_iff.1 hanc).1
    simp only [level] at hle
    omega
  | succ depth ih =>
    simp only [facingLeaves, List.mem_flatMap]
    constructor
    · rintro ⟨m, hm, hb⟩
      have hparent := ht.mem_children_iff.1 hm
      have hl : t.level m = t.level n + 1 := (parent?_eq_some_iff.1 hparent).1
      have hanc := isAncestorOf_of_parent? hparent
      split at hb
      · next hface =>
        split at hb
        · next hleaf =>
          obtain rfl : b = m := List.mem_singleton.1 hb
          refine ⟨hleaf, hanc, by omega, ?_⟩
          exact (faces_parent_iff hparent (covers_refl _)).2 ⟨hface, faces_self _ _⟩
        · obtain ⟨hleaf, hmb, hle, hfaces⟩ := ih.1 hb
          refine ⟨hleaf, isAncestorOf_trans hanc hmb, by omega, ?_⟩
          exact (faces_parent_iff hparent (covers_iff.2 (Or.inr hmb))).2 ⟨hface, hfaces⟩
      · contradiction
    · rintro ⟨hleaf, hanc, hle, hfaces⟩
      obtain ⟨m, hm, hmb⟩ := ht.exists_child_covers hanc
      have hparent := ht.mem_children_iff.1 hm
      have hl : t.level m = t.level n + 1 := (parent?_eq_some_iff.1 hparent).1
      obtain ⟨hface, hrest⟩ := (faces_parent_iff hparent hmb).1 hfaces
      refine ⟨m, hm, ?_⟩
      rw [level, if_pos hface]
      rcases covers_iff.1 hmb with heq | hmb
      · obtain rfl := ht.location_injective heq
        rw [if_pos hleaf]
        exact List.mem_singleton_self _
      · rw [if_neg (Bool.eq_false_iff.1 (ht.isLeaf_eq_false hmb))]
        exact ih.2 ⟨hleaf, hmb, by omega, hrest⟩

/-! ## The leaf above a location -/

/-- The nearest ancestor that the tree holds is a leaf exactly if some ancestor is. -/
theorem findSome?_ancestors_eq_some_iff (ht : t.Valid) {z : L} {b : t.Node}
    (hb : t.isLeaf b = true) : (ancestors z).findSome? t.nodeAt? = some b ↔
      isAncestorOf (t.location b) z = true := by
  constructor
  · intro h
    obtain ⟨x, hx, hxb⟩ := List.exists_of_findSome?_eq_some h
    rw [ht.nodeAt?_eq_some_iff] at hxb
    rw [hxb]
    exact mem_ancestors.1 hx
  · intro hanc
    have hmem := mem_ancestors.2 hanc
    obtain ⟨m, hm⟩ : ∃ m, (ancestors z).findSome? t.nodeAt? = some m := by
      refine Option.ne_none_iff_exists'.1 fun hnone => ?_
      have := List.findSome?_eq_none_iff.1 hnone _ hmem
      rw [ht.nodeAt?_location] at this
      contradiction
    obtain ⟨xs, x, ys, hsplit, hx, hxs⟩ := List.findSome?_eq_some_iff.1 hm
    have hloc := ht.nodeAt?_eq_some_iff.1 hx
    rw [hsplit, List.mem_append, List.mem_cons] at hmem
    rcases hmem with hmem | hmem | hmem
    · have := hxs _ hmem
      rw [ht.nodeAt?_location] at this
      contradiction
    · rw [hm, ht.location_injective (hloc.trans hmem.symm)]
    · -- a leaf further up would be above the nearest node
      have hpair := pairwise_ancestorsWithin (x := z) le_rfl
      rw [show ancestorsWithin (LocationCode.level z) z = xs ++ x :: ys from hsplit,
        List.pairwise_append] at hpair
      have := (List.pairwise_cons.1 hpair.2.1).1 _ hmem
      rw [← hloc, ht.not_isAncestorOf_of_isLeaf hb] at this
      contradiction

/-! ## Neighbours of a leaf -/

/-- The leaves that `leafNeighbors` lists: those at, above or below the location one step away, and
of the last only those on the near side. -/
def IsNeighborAlong (t : Tree L) (a : t.Node) (d : Direction D) (b : t.Node) : Prop :=
  t.isLeaf b = true ∧ ∃ z, IsStep d (t.location a) z ∧ (t.location b = z ∨
    isAncestorOf (t.location b) z = true ∨
    isAncestorOf z (t.location b) = true ∧ Faces d z (t.location b))

theorem isNeighborAlong_iff_of_isStep {a b : t.Node} {d : Direction D} {z : L}
    (hz : IsStep d (t.location a) z) : IsNeighborAlong t a d b ↔ t.isLeaf b = true ∧
      (t.location b = z ∨ isAncestorOf (t.location b) z = true ∨
        isAncestorOf z (t.location b) = true ∧ Faces d z (t.location b)) := by
  refine and_congr_right fun _ => ⟨?_, fun h => ⟨z, hz, h⟩⟩
  rintro ⟨z', hz', h⟩
  rwa [hz.unique hz'] at h

/-- Where the step leads to no node, the neighbours are the leaves above. -/
theorem isNeighborAlong_of_nodeAt?_eq_none (ht : t.Valid) {a b : t.Node} {d : Direction D} {z : L}
    (hz : IsStep d (t.location a) z) (hn : t.nodeAt? z = none) :
    IsNeighborAlong t a d b ↔ t.isLeaf b = true ∧ isAncestorOf (t.location b) z = true := by
  rw [isNeighborAlong_iff_of_isStep hz]
  rw [ht.nodeAt?_eq_none_iff] at hn
  refine and_congr_right fun _ => ⟨?_, fun h => Or.inr (Or.inl h)⟩
  rintro (h | h | ⟨h, -⟩)
  · exact absurd (h ▸ t.location_mem b) hn
  · exact h
  · exact absurd (ht.mem_of_isAncestorOf (t.location_mem b) h) hn

/-- Where it leads to a node, they are that node or leaves below it. -/
theorem isNeighborAlong_of_location_eq (ht : t.Valid) {a b n : t.Node} {d : Direction D}
    (hz : IsStep d (t.location a) (t.location n)) : IsNeighborAlong t a d b ↔ t.isLeaf b = true ∧
      (b = n ∨ isAncestorOf (t.location n) (t.location b) = true ∧
        Faces d (t.location n) (t.location b)) := by
  rw [isNeighborAlong_iff_of_isStep hz]
  refine and_congr_right fun hb => or_congr ⟨fun h => ht.location_injective h, congrArg _⟩ ?_
  rw [ht.not_isAncestorOf_of_isLeaf hb]
  exact or_iff_right Bool.false_ne_true

theorem exists_leafNeighbors (ht : t.Valid) {a : t.Node} (ha : t.isLeaf a = true)
    (d : Direction D) :
    ∃ ns, t.leafNeighbors a d = .ok ns ∧ ∀ b, b ∈ ns ↔ IsNeighborAlong t a d b := by
  obtain ⟨hr, hns⟩ | ⟨z, hr, h⟩ := leafNeighbors_cases ha d
  · refine ⟨_, hns, fun b => iff_of_false List.not_mem_nil ?_⟩
    rintro ⟨-, z, hz, -⟩
    rw [shift_eq_some_iff_isStep.2 hz] at hr
    simp at hr
  · have hz := shift_eq_some_iff_isStep.1 hr
    rcases h with ⟨hn, hns⟩ | ⟨n, hn, h⟩
    · refine ⟨_, hns, fun b => ?_⟩
      rw [ht.isNeighborAlong_of_nodeAt?_eq_none hz hn, Option.mem_toList,
        Option.filter_eq_some_iff, and_comm]
      exact and_congr_right fun hb => ht.findSome?_ancestors_eq_some_iff hb
    · obtain rfl := ht.nodeAt?_eq_some_iff.1 hn
      rcases h with ⟨hleaf, hns⟩ | ⟨hleaf, hns⟩
      · refine ⟨_, hns, fun b => ?_⟩
        rw [ht.isNeighborAlong_of_location_eq hz, List.mem_singleton,
          ht.not_isAncestorOf_of_isLeaf hleaf]
        constructor
        · rintro rfl
          exact ⟨hleaf, Or.inl rfl⟩
        · rintro ⟨-, h | ⟨h, -⟩⟩
          · exact h
          · contradiction
      · refine ⟨_, hns, fun b => ?_⟩
        rw [ht.isNeighborAlong_of_location_eq hz, ht.mem_facingLeaves_iff]
        have hdepth : t.level b ≤ t.level n + (LocationCode.maxLevel L - t.level n) := by
          have : t.level b ≤ LocationCode.maxLevel L := LawfulLocation.level_le (t.location b)
          omega
        constructor
        · rintro ⟨hb, hanc, -, hfaces⟩
          exact ⟨hb, Or.inr ⟨hanc, hfaces⟩⟩
        · rintro ⟨hb, rfl | ⟨hanc, hfaces⟩⟩
          · rw [hleaf] at hb
            contradiction
          · exact ⟨hb, hanc, hdepth, hfaces⟩

/-- A leaf has another as neighbour in some direction exactly if the two touch. -/
theorem exists_isNeighborAlong_iff (ht : t.Valid) {a b : t.Node} (ha : t.isLeaf a = true) :
    (∃ d, IsNeighborAlong t a d b) ↔
      t.isLeaf b = true ∧ b ≠ a ∧ Adjoins (t.location a) (t.location b) := by
  constructor
  · rintro ⟨d, hb, z, hz, h⟩
    rcases h with h | h | ⟨h, hfaces⟩
    · exact ⟨hb, fun he => hz.ne (by rw [← h, he]), h ▸ hz.adjoins⟩
    · refine ⟨hb, fun he => ?_, hz.adjoins_of_isAncestorOf h⟩
      have h₁ := (isAncestorOf_iff.1 h).1
      have h₂ := hz.1
      rw [he] at h₁
      omega
    · refine ⟨hb, fun he => ?_, (hz.adjoins_iff_faces h).2 hfaces⟩
      have h₁ := (isAncestorOf_iff.1 h).1
      have h₂ := hz.1
      rw [he] at h₁
      omega
  · rintro ⟨hb, hne, hadj⟩
    obtain ⟨d, z, hz, h⟩ := exists_step_of_adjoins hadj
      (fun he => hne (ht.location_injective he)) (ht.not_isAncestorOf_of_isLeaf ha)
      (ht.not_isAncestorOf_of_isLeaf hb)
    refine ⟨d, hb, z, hz, ?_⟩
    rcases h with h | h | h
    · exact Or.inl h
    · exact Or.inr (Or.inl h)
    · exact Or.inr (Or.inr ⟨h, (hz.adjoins_iff_faces h).1 hadj⟩)

theorem exists_allLeafNeighbors [Dimension D] (ht : t.Valid) {a : t.Node}
    (ha : t.isLeaf a = true) : ∃ ns, t.allLeafNeighbors a = .ok ns ∧ ns.Nodup ∧
      ∀ b, b ∈ ns ↔ t.isLeaf b = true ∧ b ≠ a ∧ Adjoins (t.location a) (t.location b) := by
  obtain ⟨found, hfound⟩ := exists_mapM_eq_ok (t.leafNeighbors a) (Direction.all D)
    fun d _ => (ht.exists_leafNeighbors ha d).imp fun _ h => h.1
  refine ⟨found.flatten.eraseDups, ?_, nodup_eraseDups _, fun b => ?_⟩
  · rw [allLeafNeighbors, hfound]
    rfl
  · rw [List.mem_eraseDups, List.mem_flatten, ← ht.exists_isNeighborAlong_iff ha]
    constructor
    · rintro ⟨ns, hns, hb⟩
      obtain ⟨d, -, hd⟩ := (mem_of_mapM_eq_ok hfound).1 hns
      obtain ⟨ns', hns', hiff⟩ := ht.exists_leafNeighbors ha d
      obtain rfl : ns = ns' := Except.ok.inj (hd.symm.trans hns')
      exact ⟨d, (hiff b).1 hb⟩
    · rintro ⟨d, hd⟩
      obtain ⟨ns, hns, hiff⟩ := ht.exists_leafNeighbors ha d
      exact ⟨ns, (mem_of_mapM_eq_ok hfound).2 ⟨d, d.mem_all, hns⟩, (hiff b).2 hd⟩

/-- The leaves next to a leaf are listed once each, and they are the other leaves whose closed boxes
share a point with the leaf's, whatever their levels. So the relation is symmetric. -/
theorem allLeafNeighbors_touches [Dimension D] (ht : t.Valid) {a : t.Node}
    (ha : t.isLeaf a = true) : ∃ ns, t.allLeafNeighbors a = .ok ns ∧ ns.Nodup ∧
      (∀ b, b ∈ ns ↔ t.isLeaf b = true ∧ b ≠ a ∧
        Touches t.maxLevel (t.location a) (t.location b)) ∧
      ∀ b, t.isLeaf b = true → ∃ ms, t.allLeafNeighbors b = .ok ms ∧ (a ∈ ms ↔ b ∈ ns) := by
  obtain ⟨ns, hns, hnodup, hmem⟩ := ht.exists_allLeafNeighbors ha
  refine ⟨ns, hns, hnodup, fun b => ?_, fun b hb => ?_⟩
  · rw [hmem, touches_iff_adjoins (level_le_maxLevel a) (level_le_maxLevel b)]
  · obtain ⟨ms, hms, -, hmem'⟩ := ht.exists_allLeafNeighbors hb
    refine ⟨ms, hms, ?_⟩
    rw [hmem, hmem', adjoins_comm]
    constructor
    · rintro ⟨-, hne, hadj⟩
      exact ⟨hb, hne.symm, hadj⟩
    · rintro ⟨-, hne, hadj⟩
      exact ⟨ha, hne.symm, hadj⟩

end Valid

theorem allLeafNeighbors_touches_sparse :
    sparse.Valid ∧ sparse.isLeaf ⟨2, by decide⟩ = true ∧
      ∃ ns, sparse.allLeafNeighbors ⟨2, by decide⟩ = .ok ns ∧ ns.Nodup ∧
        ∀ b, b ∈ ns ↔ sparse.isLeaf b = true ∧ b ≠ ⟨2, by decide⟩ ∧
          Touches sparse.maxLevel (sparse.location ⟨2, by decide⟩) (sparse.location b) := by
  have hvalid : sparse.Valid := by decide +kernel
  have hleaf : sparse.isLeaf ⟨2, by decide⟩ = true := by decide +kernel
  obtain ⟨ns, hns, hnodup, hmem, -⟩ := hvalid.allLeafNeighbors_touches hleaf
  exact ⟨hvalid, hleaf, ns, hns, hnodup, hmem⟩

end Tree

end AdaptiveMesh
