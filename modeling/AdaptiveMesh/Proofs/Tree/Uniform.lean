import AdaptiveMesh.Location.Morton
import AdaptiveMesh.Proofs.Count
import AdaptiveMesh.Proofs.Tree.Grown

/-!
# All nodes down to a level

The tree of a level exists where its nodes can be counted in a word and their bytes in a signed one.
It has as many nodes as were counted, its leaves are the nodes of the level, and refining them one
by one, in whatever order, leads to the tree of the next level.
-/

namespace AdaptiveMesh

open LocationCode

variable {D : Nat} {L : Type} [LocationCode D L]

namespace Tree

/-- All nodes down to a level can be stored, and there are `n` of them. -/
structure UniformFits (L : Type) [LocationCode D L] (level n : Nat) : Prop where
  level_le : level ≤ LocationCode.maxLevel L
  count : Count.nodesUpToLevel D level = .ok n
  bytes_lt : n * byteSize L < 2 ^ (Word.width - 1)

variable {t u : Tree L} {level n : Nat}

theorem UniformFits.uniform_eq_ok (h : UniformFits L level n) :
    uniform L level = .ok ⟨(subtree level (root : L)).toArray⟩ := by
  rw [uniform, if_pos h.level_le, h.count, ok_bind,
    Word.arraySize_eq_ok_iff.2 ⟨h.bytes_lt, rfl⟩, ok_bind]
  rfl

theorem exists_uniform_iff :
    (∃ t, uniform L level = .ok t) ↔ ∃ n, UniformFits L level n := by
  constructor
  · rintro ⟨t, h⟩
    obtain ⟨hlevel, -⟩ := Tree.uniform_eq_ok h
    rw [uniform, if_pos hlevel] at h
    obtain ⟨n, hcount, h⟩ := bind_eq_ok_iff.1 h
    obtain ⟨_, hbytes, -⟩ := bind_eq_ok_iff.1 h
    exact ⟨n, hlevel, hcount, (Word.arraySize_eq_ok_iff.1 hbytes).1⟩
  · rintro ⟨n, h⟩
    exact ⟨_, h.uniform_eq_ok⟩

/-- On a segment the nodes down to the deepest level of a 64-bit code can be counted, but no array
holds them. -/
theorem uniform_exceeds_memory_segment :
    63 ≤ LocationCode.maxLevel (MortonLocation 1 64) ∧
      Count.nodesUpToLevel 1 63 = .ok (2 ^ 64 - 1) ∧
      uniform (MortonLocation 1 64) 63 = .error .capacity := ⟨by decide, by decide, rfl⟩

/-! ## How many nodes -/

variable [LawfulLocation L]

theorem countP_subtree_succ {depth c : Nat} {x : L} (p : L → Bool)
    (hx : LocationCode.level x < LocationCode.maxLevel L)
    (hc : ∀ y : L, LocationCode.level y = LocationCode.level x + 1 →
      (subtree depth y).countP p = c) :
    (subtree (depth + 1) x).countP p = 2 ^ D * c + (p x).toNat := by
  have hbelow : ∀ q ∈ ChildPosition.all D,
      ((child? x q).elim [] (subtree depth)).countP p = c := by
    intro q _
    obtain ⟨y, hy⟩ := exists_child? hx q
    rw [hy]
    exact hc y (child?_eq_some_iff.1 hy).1
  have hsame : (ChildPosition.all D).map
      (List.countP p ∘ fun q => (child? x q).elim [] (subtree depth)) =
        List.replicate (2 ^ D) c := by
    refine (List.map_congr_left hbelow).trans ?_
    rw [List.map_const', ChildPosition.all, List.length_finRange]
  rw [subtree_succ, List.countP_cons, List.countP_flatMap, hsame, List.sum_replicate, smul_eq_mul]
  cases p x <;> rfl

theorem length_subtree {depth : Nat} {x : L}
    (h : LocationCode.level x + depth ≤ LocationCode.maxLevel L) :
    (subtree depth x).length = ∑ l ∈ Finset.range (depth + 1), (2 ^ D) ^ l := by
  rw [← List.countP_true]
  induction depth generalizing x with
  | zero => simp [subtree]
  | succ depth ih =>
    rw [countP_subtree_succ _ (by omega) fun y hy => ih (by omega)]
    exact geom_sum_succ.symm

theorem countP_level_subtree {depth l : Nat} {x : L} (hl : l = LocationCode.level x + depth)
    (h : l ≤ LocationCode.maxLevel L) :
    (subtree depth x).countP (fun y => LocationCode.level y = l) = (2 ^ D) ^ depth := by
  induction depth generalizing x with
  | zero => simp [subtree, hl]
  | succ depth ih =>
    have hx : decide (LocationCode.level x = l) = false := decide_eq_false (by omega)
    rw [countP_subtree_succ _ (by omega) fun y hy => ih (by omega), hx, pow_succ', Bool.toNat_false,
      Nat.add_zero]

omit [LawfulLocation L] in
theorem map_location_nodes (t : Tree L) : t.nodes.map t.location = t.locations.toList := by
  refine List.ext_getElem (by simp [nodes]) fun i _ _ => ?_
  simp [nodes, location]

theorem not_isAncestorOf_uniform (h : uniform L level = .ok t) {x y : L}
    (hx : LocationCode.level x = level) (hy : y ∈ t.locations) : isAncestorOf x y = false := by
  rw [Bool.eq_false_iff]
  intro hanc
  have := (isAncestorOf_iff.1 hanc).1
  have := (mem_uniform_iff h).1 hy
  omega

/-- Every node above the level has children, and those of the level have none. -/
theorem isLeaf_uniform_iff (h : uniform L level = .ok t) {m : t.Node} :
    t.isLeaf m = true ↔ t.level m = level := by
  have hle : t.level m ≤ level := (mem_uniform_iff h).1 (t.location_mem m)
  rw [(valid_uniform h).isLeaf_iff]
  constructor
  · intro hleaf
    by_contra hne
    have hlevel := (uniform_eq_ok h).1
    have hlt : LocationCode.level (t.location m) < level := lt_of_le_of_ne hle hne
    obtain ⟨y, hy⟩ := exists_child? (hlt.trans_le hlevel) (.ofSides fun _ => false)
    have hmem : y ∈ t.locations := by
      rw [mem_uniform_iff h, (child?_eq_some_iff.1 hy).1]
      exact hlt
    have hnot := hleaf y hmem
    rw [isAncestorOf_of_parent? (parent?_of_child? hy)] at hnot
    contradiction
  · exact fun hm y hy => not_isAncestorOf_uniform h hm hy

theorem mem_map_leaves_uniform_iff (h : uniform L level = .ok t) {x : L} :
    x ∈ t.leaves.map t.location ↔ LocationCode.level x = level := by
  simp only [List.mem_map, Valid.mem_leaves_iff, isLeaf_uniform_iff h]
  constructor
  · rintro ⟨m, hm, rfl⟩
    exact hm
  · intro hx
    obtain ⟨m, rfl⟩ := mem_locations_iff.1 ((mem_uniform_iff h).2 hx.le)
    exact ⟨m, hx, rfl⟩

theorem size_uniform (h : uniform L level = .ok t) :
    t.size = ∑ l ∈ Finset.range (level + 1), (2 ^ D) ^ l := by
  obtain ⟨hlevel, hlist⟩ := uniform_eq_ok h
  have hsize : t.size = t.locations.toList.length := rfl
  rw [hsize, hlist, length_subtree (by rw [LocationCode.level_root]; omega)]

theorem length_leaves_uniform (h : uniform L level = .ok t) :
    t.leaves.length = (2 ^ D) ^ level := by
  obtain ⟨hlevel, hlist⟩ := uniform_eq_ok h
  have hleaf : t.isLeaf = (fun y => decide (LocationCode.level y = level)) ∘ t.location := by
    funext m
    rw [Bool.eq_iff_iff, isLeaf_uniform_iff h, Function.comp_apply, decide_eq_true_eq]
    rfl
  rw [leaves, ← List.countP_eq_length_filter, hleaf, ← List.countP_map, map_location_nodes, hlist]
  exact countP_level_subtree (by rw [LocationCode.level_root, Nat.zero_add]) hlevel

/-! ## Refining leaf after leaf -/

/-- The tree with the node at a location refined. -/
def refineAt? (t : Tree L) (x : L) : Option (Tree L) := (t.nodeAt? x).bind t.refine?

/-- The tree with the nodes at some locations refined, one after the other. -/
def refineEach? (t : Tree L) (xs : List L) : Option (Tree L) := xs.foldlM refineAt? t

/-- A leaf at a location, not at the deepest level. -/
structure Refinable (t : Tree L) (x : L) : Prop where
  mem : x ∈ t.locations
  leaf : ∀ y ∈ t.locations, isAncestorOf x y = false
  level_lt : LocationCode.level x < LocationCode.maxLevel L

namespace Valid

/-- Refining one leaf adds its children, and the other leaves can still be refined. -/
theorem exists_refineAt? (ht : t.Valid) {x : L} (hx : t.Refinable x) :
    ∃ u, t.refineAt? x = some u ∧ u.Valid ∧
      (∀ y, y ∈ u.locations ↔ y ∈ t.locations ∨ LocationCode.parent? y = some x) ∧
      ∀ y, y ≠ x → t.Refinable y → u.Refinable y := by
  obtain ⟨m, rfl⟩ := mem_locations_iff.1 hx.mem
  obtain ⟨u, hu⟩ : ∃ u, t.refine? m = some u := ⟨_, if_pos ⟨ht.isLeaf_iff.2 hx.leaf, hx.level_lt⟩⟩
  have hmem : ∀ y, y ∈ u.locations ↔
      y ∈ t.locations ∨ LocationCode.parent? y = some (t.location m) := fun y => mem_refine?_iff hu
  refine ⟨u, ?_, ht.valid_of_refine? hu, hmem, fun y hne hy => ⟨(hmem y).2 (Or.inl hy.mem), ?_,
    hy.level_lt⟩⟩
  · rw [refineAt?, ht.nodeAt?_location, Option.bind_some, hu]
  · intro z hz
    rcases (hmem z).1 hz with hz | hz
    · exact hy.leaf z hz
    · -- what is above a new node is the refined leaf, or above it
      rw [Bool.eq_false_iff]
      intro hanc
      rcases (isAncestorOf_iff_parent? hz).1 hanc with heq | habove
      · exact hne heq
      · rw [hy.leaf _ hx.mem] at habove
        contradiction

/-- Refining leaves, each of them once, adds all their children. -/
theorem exists_refineEach? (ht : t.Valid) {xs : List L} (hnodup : xs.Nodup)
    (hxs : ∀ x ∈ xs, t.Refinable x) : ∃ u, t.refineEach? xs = some u ∧ u.Valid ∧
      ∀ y, y ∈ u.locations ↔ y ∈ t.locations ∨ ∃ x ∈ xs, LocationCode.parent? y = some x := by
  induction xs generalizing t with
  | nil => exact ⟨t, rfl, ht, by simp⟩
  | cons x xs ih =>
    obtain ⟨hx, hnodup⟩ := List.nodup_cons.1 hnodup
    obtain ⟨s, hs, hvalid, hmem, hothers⟩ := ht.exists_refineAt? (hxs x List.mem_cons_self)
    obtain ⟨u, hu, huvalid, humem⟩ := ih hvalid hnodup fun y hy =>
      hothers y (ne_of_mem_of_not_mem hy hx) (hxs y (List.mem_cons_of_mem x hy))
    refine ⟨u, ?_, huvalid, fun y => ?_⟩
    · rw [refineEach?, List.foldlM_cons, hs]
      exact hu
    · simp only [humem, hmem, List.mem_cons, exists_eq_or_imp, or_assoc]

end Valid

/-- Refining the leaves of the tree of a level makes the tree of the next. -/
theorem refineEach?_uniform (ht : uniform L level = .ok t) (hu : uniform L (level + 1) = .ok u)
    {xs : List L} (hxs : xs.Perm (t.leaves.map t.location)) : t.refineEach? xs = some u := by
  have hvalid := valid_uniform ht
  have hlevel := (uniform_eq_ok hu).1
  have hmem (x : L) : x ∈ xs ↔ LocationCode.level x = level := by
    rw [hxs.mem_iff, mem_map_leaves_uniform_iff ht]
  have hnodup : xs.Nodup := hxs.nodup_iff.2
    (Valid.nodup_leaves.map fun m m' => hvalid.location_injective)
  have hrefinable : ∀ x ∈ xs, t.Refinable x := fun x hx => by
    have hx := (hmem x).1 hx
    exact ⟨(mem_uniform_iff ht).2 hx.le, fun y hy => not_isAncestorOf_uniform ht hx hy, by omega⟩
  obtain ⟨v, hv, hvvalid, hvmem⟩ := hvalid.exists_refineEach? hnodup hrefinable
  rw [hv, hvvalid.eq_of_mem_iff (valid_uniform hu) fun y => ?_]
  rw [hvmem, mem_uniform_iff ht, mem_uniform_iff hu]
  constructor
  · rintro (hy | ⟨x, hx, hyx⟩)
    · omega
    · rw [(parent?_eq_some_iff.1 hyx).1, (hmem x).1 hx]
  · intro hy
    rcases Nat.lt_or_eq_of_le hy with hlt | heq
    · exact Or.inl (Nat.le_of_lt_succ hlt)
    · obtain ⟨x, hyx⟩ := exists_parent? (x := y) (by omega)
      have := (parent?_eq_some_iff.1 hyx).1
      exact Or.inr ⟨x, (hmem x).2 (by omega), hyx⟩

omit [LawfulLocation L] in
theorem UniformFits.count_eq [Dimension D] (h : UniformFits L level n) :
    ∑ l ∈ Finset.range (level + 1), (2 ^ D) ^ l < Word.bound ∧
      n = ∑ l ∈ Finset.range (level + 1), (2 ^ D) ^ l := by
  have hcount := h.count
  rwa [Count.nodesUpToLevel_eq_checked Dimension.lt_width, Word.checked_eq_ok_iff] at hcount

/-- Where all nodes down to a level can be stored, the tree of the level holds exactly them, in
depth-first order, and as many as were counted. Its leaves are the nodes of the level, and refining
each of them once, in any order, makes the tree of the next level, if that can be stored too. -/
theorem UniformFits.exists_uniform_full [Dimension D] (h : UniformFits L level n) :
    ∃ t, uniform L level = .ok t ∧
      (∀ x, x ∈ t.locations ↔ LocationCode.level x ≤ level) ∧
      (t.locations.toList.Pairwise fun x y => depthFirstCompare x y = .lt) ∧
      t.locations.toList.Nodup ∧
      t.size = n ∧ n = (2 ^ (D * (level + 1)) - 1) / (2 ^ D - 1) ∧
      (∀ m, m ∈ t.leaves ↔ t.level m = level) ∧
      Count.nodesAtLevel D level = .ok t.leaves.length ∧
      ∀ k, UniformFits L (level + 1) k → ∃ u, uniform L (level + 1) = .ok u ∧
        ∀ xs, xs.Perm (t.leaves.map t.location) → t.refineEach? xs = some u := by
  obtain ⟨t, ht⟩ : ∃ t, uniform L level = .ok t := exists_uniform_iff.2 ⟨n, h⟩
  obtain ⟨hbound, hn⟩ := h.count_eq
  have hvalid := valid_uniform ht
  have hlevel : (2 ^ D) ^ level < Word.bound :=
    lt_of_le_of_lt (Finset.single_le_sum_of_canonicallyOrdered
      (f := fun l => (2 ^ D) ^ l) (Finset.self_mem_range_succ level)) hbound
  refine ⟨t, ht, fun x => mem_uniform_iff ht, ?_, hvalid.nodup_locations,
    (size_uniform ht).trans hn.symm, hn.trans (Count.sum_levels_eq Dimension.pos level),
    fun m => ?_, ?_, fun k hk => ?_⟩
  · simpa only [LawfulLocation.compare_eq] using hvalid.ascending
  · rw [Valid.mem_leaves_iff, isLeaf_uniform_iff ht]
  · rw [Count.nodesAtLevel_eq_checked Dimension.lt_width, length_leaves_uniform ht,
      Word.checked_of_lt hlevel]
  · obtain ⟨u, hu⟩ : ∃ u, uniform L (level + 1) = .ok u := exists_uniform_iff.2 ⟨k, hk⟩
    exact ⟨u, hu, fun xs hxs => refineEach?_uniform ht hu hxs⟩

/-- A square refined once, and then everywhere, the last child first. -/
theorem exists_uniform_full_quartered :
    UniformFits (GridLocation 2) 1 5 ∧ UniformFits (GridLocation 2) 2 21 ∧
      uniform (GridLocation 2) 1 = .ok quartered ∧ quartered.size = 5 ∧
      ∃ u, uniform (GridLocation 2) 2 = .ok u ∧
        quartered.refineEach? [.square 1 1 1, .square 1 0 1, .square 1 1 0, .square 1 0 0] =
          some u := by
  have hfirst : UniformFits (GridLocation 2) 1 5 := ⟨by decide, by decide, by decide⟩
  have hsecond : UniformFits (GridLocation 2) 2 21 := ⟨by decide, by decide, by decide⟩
  have huniform : uniform (GridLocation 2) 1 = .ok quartered := by decide +kernel
  have hleaves : quartered.leaves.map quartered.location =
      [.square 1 0 0, .square 1 1 0, .square 1 0 1, .square 1 1 1] := by decide +kernel
  obtain ⟨t, ht, -, -, -, hsize, -, -, -, hnext⟩ := hfirst.exists_uniform_full
  obtain rfl := Except.ok.inj (huniform.symm.trans ht)
  obtain ⟨u, hu, hrefined⟩ := hnext 21 hsecond
  refine ⟨hfirst, hsecond, huniform, hsize, u, hu, hrefined _ ?_⟩
  rw [hleaves]
  exact List.reverse_perm [_, _, _, _]

end Tree

end AdaptiveMesh
