import AdaptiveMesh.Proofs.Except
import AdaptiveMesh.Proofs.Location.Grid
import AdaptiveMesh.Proofs.Tree.Complete
import AdaptiveMesh.Tree.Build
import AdaptiveMesh.Tree.Refine

/-!
# Grown trees

The trees that refining and coarsening lead to, from the root alone or from all nodes down to a
level. They are valid and complete.
-/

namespace AdaptiveMesh

open LocationCode

variable {D : Nat} {L : Type} [LocationCode D L]

namespace Tree

/-- Trees made by `single` or `uniform` and then refined and coarsened any number of times. -/
inductive Grown : Tree L → Prop where
  | single : Grown single
  | uniform {level : Nat} {t : Tree L} : uniform L level = .ok t → Grown t
  | refine {t t' : Tree L} {n : t.Node} : Grown t → t.refine? n = some t' → Grown t'
  | coarsen {t : Tree L} (n : t.Node) : Grown t → Grown (t.coarsen n)

variable {t : Tree L}

theorem mem_take_iff {n : t.Node} {x : L} :
    x ∈ t.locations.toList.take (n + 1) ↔ ∃ m : t.Node, m ≤ n ∧ t.location m = x := by
  have hsize : t.size = t.locations.toList.length := rfl
  rw [List.mem_take_iff_getElem]
  constructor
  · rintro ⟨i, hi, h⟩
    exact ⟨⟨i, by omega⟩, Fin.mk_le_of_le_val (by omega), h⟩
  · rintro ⟨m, hm, h⟩
    have hlt := m.isLt
    have hle : m.val ≤ n.val := hm
    exact ⟨m, by omega, h⟩

theorem mem_drop_iff {n : t.Node} {x : L} :
    x ∈ t.locations.toList.drop (n + 1) ↔ ∃ m : t.Node, n < m ∧ t.location m = x := by
  have hsize : t.size = t.locations.toList.length := rfl
  rw [List.mem_drop_iff_getElem]
  constructor
  · rintro ⟨i, hi, h⟩
    exact ⟨⟨n + 1 + i, by omega⟩, Fin.lt_def.2 (by simp only; omega), h⟩
  · rintro ⟨m, hm, h⟩
    have hlt := m.isLt
    obtain ⟨k, hk⟩ : ∃ k, m.val = n.val + 1 + k := ⟨_, (Nat.add_sub_of_le hm).symm⟩
    refine ⟨k, by omega, ?_⟩
    rw [← h]
    simp only [location, Fin.getElem_fin, hk, Array.getElem_toList]

variable [LawfulLocation L]

/-! ## The root alone -/

omit [LawfulLocation L] in
theorem mem_single_iff {x : L} : x ∈ (single : Tree L).locations ↔ x = root := by
  simp [single]

theorem valid_single : (single : Tree L).Valid where
  root_first := rfl
  ascending := List.pairwise_singleton _ _
  closed x hx y hy := by
    rw [mem_single_iff.1 hx] at hy
    have := (parent?_eq_some_iff.1 hy).1
    rw [level_root] at this
    omega

theorem complete_single : (single : Tree L).Complete := by
  intro x hx y hy hanc
  rw [mem_single_iff.1 hx, mem_single_iff.1 hy, isAncestorOf_irrefl] at hanc
  contradiction

/-! ## All nodes down to a level -/

theorem mem_elim_nil_iff {α β : Type} {o : Option α} {f : α → List β} {b : β} :
    b ∈ o.elim [] f ↔ ∃ a, o = some a ∧ b ∈ f a := by
  cases o <;> simp

omit [LawfulLocation L] in
theorem subtree_succ (depth : Nat) (x : L) : subtree (depth + 1) x =
    x :: (ChildPosition.all D).flatMap fun p => (child? x p).elim [] (subtree depth) := by
  rw [subtree]
  congr! 3 with p
  cases child? x p <;> rfl

theorem mem_subtree_iff {depth : Nat} {x y : L}
    (h : LocationCode.level x + depth ≤ LocationCode.maxLevel L) :
    y ∈ subtree depth x ↔ Covers x y ∧ LocationCode.level y ≤ LocationCode.level x + depth := by
  induction depth generalizing x with
  | zero =>
    rw [subtree, List.mem_singleton, covers_iff]
    constructor
    · rintro rfl
      exact ⟨Or.inl rfl, le_rfl⟩
    · rintro ⟨rfl | hanc, hl⟩
      · rfl
      · have := (isAncestorOf_iff.1 hanc).1
        omega
  | succ depth ih =>
    rw [subtree_succ, List.mem_cons, List.mem_flatMap]
    constructor
    · rintro (rfl | ⟨p, -, hy⟩)
      · exact ⟨covers_refl _, by omega⟩
      · obtain ⟨c, hc, hy⟩ := mem_elim_nil_iff.1 hy
        have hl := (child?_eq_some_iff.1 hc).1
        obtain ⟨hcy, hle⟩ := (ih (by omega)).1 hy
        have hxc := covers_iff.2 (Or.inr (isAncestorOf_of_parent? (parent?_of_child? hc)))
        exact ⟨hxc.trans hcy, by omega⟩
    · rintro ⟨hcover, hle⟩
      rcases covers_iff.1 hcover with rfl | hanc
      · exact Or.inl rfl
      · right
        have hlt := (isAncestorOf_iff.1 hanc).1
        -- the child of `x` on the way down to `y`
        have hparent := parent?_above hlt
        rw [← eq_above_of_isAncestorOf hanc] at hparent
        obtain ⟨p, hc⟩ := parent?_eq_some_iff_child?.1 hparent
        refine ⟨p, List.mem_finRange p, ?_⟩
        have hl := (parent?_eq_some_iff.1 hparent).1
        exact mem_elim_nil_iff.2 ⟨_, hc, (ih (by omega)).2 ⟨covers_above hlt, by omega⟩⟩

/-- Everything at or below a child goes before everything at or below a later sibling. -/
theorem compare_of_covers_child? {x y z c e : L} {p q : ChildPosition D} (hc : child? x p = some c)
    (he : child? x q = some e) (hpq : p < q) (hcy : Covers c y) (hez : Covers e z) :
    compare y z = .lt := by
  have hce : compare c e = .lt := by
    rw [compare_of_child? hc he, compare_lt_iff_lt]
    exact hpq
  have hnot : isAncestorOf c e = false := by
    rw [Bool.eq_false_iff, Ne, isAncestorOf_iff, (child?_eq_some_iff.1 hc).1,
      (child?_eq_some_iff.1 he).1]
    omega
  have hye : compare y e = .lt := by
    rcases covers_iff.1 hcy with rfl | hanc
    · exact hce
    · exact compare_of_not_isAncestorOf hanc hce hnot
  rcases covers_iff.1 hez with rfl | hanc
  · exact hye
  · exact Std.TransCmp.lt_trans hye (compare_of_isAncestorOf hanc)

theorem pairwise_subtree {depth : Nat} {x : L}
    (h : LocationCode.level x + depth ≤ LocationCode.maxLevel L) :
    (subtree depth x).Pairwise fun y z => compare y z = .lt := by
  induction depth generalizing x with
  | zero => exact List.pairwise_singleton _ _
  | succ depth ih =>
    have hchild {p : ChildPosition D} {y : L} (hy : y ∈ (child? x p).elim [] (subtree depth)) :
        ∃ c, child? x p = some c ∧ Covers c y := by
      obtain ⟨c, hc, hy⟩ := mem_elim_nil_iff.1 hy
      have := (child?_eq_some_iff.1 hc).1
      exact ⟨c, hc, ((mem_subtree_iff (by omega)).1 hy).1⟩
    rw [subtree_succ, List.pairwise_cons, List.pairwise_flatMap]
    refine ⟨fun y hy => ?_, fun p _ => ?_, ?_⟩
    · obtain ⟨p, -, hy⟩ := List.mem_flatMap.1 hy
      obtain ⟨c, hc, hcy⟩ := hchild hy
      have hxc := isAncestorOf_of_parent? (parent?_of_child? hc)
      rcases covers_iff.1 hcy with rfl | hanc
      · exact compare_of_isAncestorOf hxc
      · exact compare_of_isAncestorOf (isAncestorOf_trans hxc hanc)
    · rcases hc : child? x p with _ | c
      · exact List.Pairwise.nil
      · have := (child?_eq_some_iff.1 hc).1
        exact ih (by omega)
    · refine (List.pairwise_lt_finRange _).imp fun {p q} hpq y hy z hz => ?_
      obtain ⟨c, hc, hcy⟩ := hchild hy
      obtain ⟨e, he, hez⟩ := hchild hz
      exact compare_of_covers_child? hc he hpq hcy hez

omit [LawfulLocation L] in
theorem uniform_eq_ok {level : Nat} (h : uniform L level = .ok t) :
    level ≤ LocationCode.maxLevel L ∧ t.locations.toList = subtree level root := by
  unfold uniform at h
  split at h
  · next hl =>
    obtain ⟨_, -, h⟩ := bind_eq_ok_iff.1 h
    obtain ⟨_, -, h⟩ := bind_eq_ok_iff.1 h
    exact ⟨hl, by rw [← Except.ok.inj h]⟩
  · contradiction

/-- The tree of a level holds every location down to it. -/
theorem mem_uniform_iff {level : Nat} (h : uniform L level = .ok t) {x : L} :
    x ∈ t.locations ↔ LocationCode.level x ≤ level := by
  obtain ⟨hl, ht⟩ := uniform_eq_ok h
  rw [← Array.mem_toList_iff, ht, mem_subtree_iff (by rw [level_root]; omega), level_root,
    Nat.zero_add, and_iff_right_iff_imp]
  intro _
  rw [← eq_root_iff.2 (level_above (Nat.zero_le (LocationCode.level x)))]
  exact covers_above (Nat.zero_le _)

theorem valid_uniform {level : Nat} (h : uniform L level = .ok t) : t.Valid where
  root_first := by
    rw [← Array.getElem?_toList, (uniform_eq_ok h).2]
    cases level <;> rfl
  ascending := by
    obtain ⟨hl, ht⟩ := uniform_eq_ok h
    rw [ht]
    exact pairwise_subtree (by rw [level_root]; omega)
  closed x hx y hy := by
    rw [mem_uniform_iff h] at hx ⊢
    have := (parent?_eq_some_iff.1 hy).1
    omega

theorem complete_uniform {level : Nat} (h : uniform L level = .ok t) : t.Complete := by
  intro x hx y hy hanc p z hz
  rw [mem_uniform_iff h] at hy ⊢
  have := (isAncestorOf_iff.1 hanc).1
  have := (child?_eq_some_iff.1 hz).1
  omega

/-! ## Refining -/

omit [LawfulLocation L] in
theorem refine?_eq_some {t' : Tree L} {n : t.Node} (h : t.refine? n = some t') :
    t.isLeaf n = true ∧ t'.locations.toList = t.locations.toList.take (n + 1) ++
      (ChildPosition.all D).filterMap (child? (t.location n)) ++
        t.locations.toList.drop (n + 1) := by
  unfold refine? at h
  split at h
  · next hn =>
    obtain rfl := Option.some.inj h
    exact ⟨hn.1, rfl⟩
  · contradiction

omit [LawfulLocation L] in
theorem mem_children_of_position {x y : L} :
    y ∈ (ChildPosition.all D).filterMap (child? x) ↔ ∃ p, child? x p = some y := by
  rw [List.mem_filterMap]
  exact ⟨fun ⟨p, _, h⟩ => ⟨p, h⟩, fun ⟨p, h⟩ => ⟨p, List.mem_finRange p, h⟩⟩

/-- Refining a leaf adds its children. -/
theorem mem_refine?_iff {t' : Tree L} {n : t.Node} (h : t.refine? n = some t') {x : L} :
    x ∈ t'.locations ↔ x ∈ t.locations ∨ LocationCode.parent? x = some (t.location n) := by
  rw [← Array.mem_toList_iff, (refine?_eq_some h).2, List.mem_append, List.mem_append,
    mem_children_of_position, parent?_eq_some_iff_child?]
  conv_rhs => rw [← Array.mem_toList_iff, ← List.take_append_drop (n + 1) t.locations.toList,
    List.mem_append]
  tauto

namespace Valid

theorem valid_of_refine? (ht : t.Valid) {t' : Tree L} {n : t.Node} (h : t.refine? n = some t') :
    t'.Valid where
  root_first := by
    rw [← Array.getElem?_toList, (refine?_eq_some h).2, List.append_assoc,
      List.getElem?_append_left, List.getElem?_take_of_lt (Nat.succ_pos _)]
    · simpa using ht.root_first
    · simp
  ascending := by
    obtain ⟨hleaf, hlist⟩ := refine?_eq_some h
    have hbefore {y : L} (hy : LocationCode.parent? y = some (t.location n)) :
        compare (t.location n) y = .lt := compare_of_isAncestorOf (isAncestorOf_of_parent? hy)
    rw [hlist, List.pairwise_append, List.pairwise_append]
    refine ⟨⟨ht.ascending.sublist (List.take_sublist _ _), ?_, fun x hx y hy => ?_⟩,
      ht.ascending.sublist (List.drop_sublist _ _), fun x hx y hy => ?_⟩
    · rw [List.pairwise_filterMap]
      refine (List.pairwise_lt_finRange _).imp fun {p q} hpq y hy z hz => ?_
      rw [compare_of_child? hy hz, compare_lt_iff_lt]
      exact hpq
    · obtain ⟨m, hm, rfl⟩ := mem_take_iff.1 hx
      have hny := hbefore (parent?_eq_some_iff_child?.2 (mem_children_of_position.1 hy))
      rcases Nat.lt_or_eq_of_le hm with hlt | heq
      · exact Std.TransCmp.lt_trans (ht.compare_lt hlt) hny
      · rwa [Fin.ext heq]
    · obtain ⟨m, hm, rfl⟩ := mem_drop_iff.1 hy
      rcases List.mem_append.1 hx with hx | hx
      · obtain ⟨k, hk, rfl⟩ := mem_take_iff.1 hx
        exact ht.compare_lt (Nat.lt_of_le_of_lt hk hm)
      · -- the leaf has no descendants, so what follows it follows its children
        have hparent := parent?_eq_some_iff_child?.2 (mem_children_of_position.1 hx)
        exact compare_of_not_isAncestorOf (isAncestorOf_of_parent? hparent) (ht.compare_lt hm)
          (ht.not_isAncestorOf_of_isLeaf hleaf)
  closed x hx y hy := by
    rw [mem_refine?_iff h] at hx ⊢
    rcases hx with hx | hx
    · exact Or.inl (ht.closed x hx y hy)
    · rw [hy] at hx
      exact Or.inl (Option.some.inj hx ▸ t.location_mem n)

theorem complete_of_refine? (ht : t.Valid) (hc : t.Complete) {t' : Tree L} {n : t.Node}
    (h : t.refine? n = some t') : t'.Complete := by
  obtain ⟨hleaf, -⟩ := refine?_eq_some h
  have hno := ht.isLeaf_iff.1 hleaf
  intro x hx y hy hanc p z hz
  rw [mem_refine?_iff h] at hx hy ⊢
  have hz' := parent?_of_child? hz
  rcases hx with hx | hx
  · rcases hy with hy | hy
    · exact Or.inl (hc x hx y hy hanc p z hz)
    · rcases (isAncestorOf_iff_parent? hy).1 hanc with rfl | hanc
      · exact Or.inr hz'
      · exact Or.inl (hc x hx _ (t.location_mem n) hanc p z hz)
  · have hnx := isAncestorOf_of_parent? hx
    rcases hy with hy | hy
    · have := hno y hy
      rw [isAncestorOf_trans hnx hanc] at this
      contradiction
    · rcases (isAncestorOf_iff_parent? hy).1 hanc with rfl | hanc
      · rw [isAncestorOf_irrefl] at hnx
        contradiction
      · have := isAncestorOf_trans hnx hanc
        rw [isAncestorOf_irrefl] at this
        contradiction

end Valid

/-! ## Coarsening -/

theorem dropWhile_eq_filter {α : Type} {p : α → Bool} {xs : List α}
    (h : xs.Pairwise fun x y => p y = true → p x = true) :
    xs.dropWhile p = xs.filter fun x => !p x := by
  induction xs with
  | nil => rfl
  | cons x xs ih =>
    obtain ⟨hx, hxs⟩ := List.pairwise_cons.1 h
    rcases hp : p x with _ | _
    · have hall : ∀ y ∈ xs, p y = false := fun y hy => by
        by_contra hy'
        have := hx y hy (Bool.not_eq_false _ ▸ hy')
        rw [hp] at this
        contradiction
      rw [List.dropWhile_cons_of_neg (by simp [hp]), List.filter_cons_of_pos (by simp [hp]),
        List.filter_eq_self.2 fun y hy => by simp [hall y hy]]
    · rw [List.dropWhile_cons_of_pos hp, List.filter_cons_of_neg (by simp [hp]), ih hxs]

namespace Valid

/-- The descendants of a node are right behind it, without a gap. -/
theorem pairwise_behind (ht : t.Valid) (n : t.Node) :
    (t.locations.toList.drop (n + 1)).Pairwise fun x y =>
      isAncestorOf (t.location n) y = true → isAncestorOf (t.location n) x = true := by
  refine (ht.ascending.sublist (List.drop_sublist _ _)).imp_of_mem fun {x y} hx _ hxy hy => ?_
  obtain ⟨m, hm, rfl⟩ := mem_drop_iff.1 hx
  exact isAncestorOf_of_between hy (ht.compare_lt hm) (by rw [hxy]; rfl)

/-- Coarsening a node takes out exactly its descendants. -/
theorem toList_coarsen (ht : t.Valid) (n : t.Node) : (t.coarsen n).locations.toList =
    t.locations.toList.filter fun x => !isAncestorOf (t.location n) x := by
  have hbefore : ∀ x ∈ t.locations.toList.take (n + 1),
      isAncestorOf (t.location n) x = false := by
    intro x hx
    obtain ⟨m, hm, rfl⟩ := mem_take_iff.1 hx
    rw [Bool.eq_false_iff]
    intro hanc
    exact absurd (ht.lt_iff.2 (compare_of_isAncestorOf hanc)) (Nat.not_lt.2 hm)
  rw [← List.take_append_drop (n + 1) t.locations.toList, List.filter_append,
    ← dropWhile_eq_filter (ht.pairwise_behind n),
    List.filter_eq_self.2 fun x hx => by rw [hbefore x hx]; rfl]
  simp only [coarsen]

theorem mem_coarsen_iff (ht : t.Valid) {n : t.Node} {x : L} :
    x ∈ (t.coarsen n).locations ↔ x ∈ t.locations ∧ isAncestorOf (t.location n) x = false := by
  rw [← Array.mem_toList_iff, ht.toList_coarsen, List.mem_filter, Array.mem_toList_iff,
    Bool.not_eq_true']

theorem valid_coarsen (ht : t.Valid) (n : t.Node) : (t.coarsen n).Valid where
  root_first := by
    rw [← Array.getElem?_toList]
    unfold coarsen
    rw [List.getElem?_append_left, List.getElem?_take_of_lt (Nat.succ_pos _)]
    · simpa using ht.root_first
    · simp
  ascending := by
    rw [ht.toList_coarsen]
    exact ht.ascending.sublist List.filter_sublist
  closed x hx y hy := by
    rw [ht.mem_coarsen_iff] at hx ⊢
    refine ⟨ht.closed x hx.1 y hy, ?_⟩
    rw [Bool.eq_false_iff]
    intro hanc
    rw [isAncestorOf_trans hanc (isAncestorOf_of_parent? hy)] at hx
    exact absurd hx.2 (by decide)

theorem complete_coarsen (ht : t.Valid) (hc : t.Complete) (n : t.Node) :
    (t.coarsen n).Complete := by
  intro x hx y hy hanc p z hz
  rw [ht.mem_coarsen_iff] at hx hy ⊢
  refine ⟨hc x hx.1 y hy.1 hanc p z hz, ?_⟩
  rw [Bool.eq_false_iff]
  intro hnz
  rcases (isAncestorOf_iff_parent? (parent?_of_child? hz)).1 hnz with heq | hnx
  · rw [← heq, hy.2] at hanc
    contradiction
  · rw [hx.2] at hnx
    contradiction

end Valid

/-! ## Runs -/

namespace Grown

theorem valid_complete (h : Grown t) : t.Valid ∧ t.Complete := by
  induction h with
  | single => exact ⟨valid_single, complete_single⟩
  | uniform h => exact ⟨valid_uniform h, complete_uniform h⟩
  | refine _ h ih => exact ⟨ih.1.valid_of_refine? h, ih.1.complete_of_refine? ih.2 h⟩
  | coarsen n _ ih => exact ⟨ih.1.valid_coarsen n, ih.1.complete_coarsen ih.2 n⟩

theorem valid (h : Grown t) : t.Valid := h.valid_complete.1

theorem complete (h : Grown t) : t.Complete := h.valid_complete.2

end Grown

/-! ## Small trees -/

theorem grown_graded : graded.Grown := by
  have hfirst : (single : Tree (GridLocation 2)).refine? ⟨0, by decide⟩ = some quartered := by
    decide +kernel
  have hsecond : quartered.refine? ⟨1, by decide⟩ = some graded := by decide +kernel
  exact .refine (.refine .single hfirst) hsecond

theorem grown_steep : steep.Grown := by
  have hstep : graded.refine? ⟨5, by decide⟩ = some steep := by decide +kernel
  exact .refine grown_graded hstep

end Tree

end AdaptiveMesh
