import AdaptiveMesh.Proofs.Location.Grid
import AdaptiveMesh.Tree.Basic

/-!
# Valid trees

A location array is a tree if it begins with the root, ascends in depth-first order and holds the
parent of each of its entries but the root; some children of a node may be missing. On such an
array binary search finds every entry, and the next entry tells whether a node is a leaf.
-/

namespace AdaptiveMesh

open LocationCode

variable {D : Nat} {L : Type} [LocationCode D L]

namespace Tree

/-- The array begins with the root, ascends and is closed under parents. -/
structure Valid (t : Tree L) : Prop where
  root_first : t.locations[0]? = some root
  ascending : t.locations.toList.Pairwise fun x y => compare x y = .lt
  closed : ∀ x ∈ t.locations, ∀ y, LocationCode.parent? x = some y → y ∈ t.locations

instance (t : Tree L) : Decidable t.Valid :=
  decidable_of_iff (t.locations[0]? = some root ∧
      (t.locations.toList.Pairwise fun x y => compare x y = .lt) ∧
      ∀ x ∈ t.locations.toList, ∀ y ∈ LocationCode.parent? x, y ∈ t.locations.toList)
    ⟨fun ⟨h₁, h₂, h₃⟩ => ⟨h₁, h₂, fun x hx y hy =>
        Array.mem_toList_iff.1 (h₃ x (Array.mem_toList_iff.2 hx) y hy)⟩,
      fun ⟨h₁, h₂, h₃⟩ => ⟨h₁, h₂, fun x hx y hy =>
        Array.mem_toList_iff.2 (h₃ x (Array.mem_toList_iff.1 hx) y hy)⟩⟩

theorem mem_locations_iff {t : Tree L} {x : L} : x ∈ t.locations ↔ ∃ n : t.Node, t.location n = x := by
  rw [Array.mem_iff_getElem]
  constructor
  · rintro ⟨i, hi, h⟩
    exact ⟨⟨i, hi⟩, h⟩
  · rintro ⟨n, h⟩
    exact ⟨n, n.isLt, h⟩

theorem location_mem (t : Tree L) (n : t.Node) : t.location n ∈ t.locations :=
  mem_locations_iff.2 ⟨n, rfl⟩

variable [LawfulLocation L]

/-! ## Binary search -/

theorem getElem_of_searchBetween {a : Array L} {x : L} {lo hi : Nat} {h : hi ≤ a.size}
    {i : Fin a.size} (hs : searchBetween a x lo hi h = some i) :
    (lo ≤ i ∧ i < hi) ∧ a[i] = x := by
  fun_induction searchBetween a x lo hi h with
  | case1 lo hi h hlt mid hmid hc =>
    obtain rfl : ⟨mid, hmid⟩ = i := Option.some.inj hs
    have : mid = (lo + hi) / 2 := rfl
    exact ⟨⟨by simp only; omega, by simp only; omega⟩, Std.LawfulEqOrd.eq_of_compare hc⟩
  | case2 lo hi h hlt mid hmid hc ih =>
    have : mid = (lo + hi) / 2 := rfl
    obtain ⟨⟨h₁, h₂⟩, h₃⟩ := ih hs
    exact ⟨⟨by omega, h₂⟩, h₃⟩
  | case3 lo hi h hlt mid hmid hc ih =>
    have : mid = (lo + hi) / 2 := rfl
    obtain ⟨⟨h₁, h₂⟩, h₃⟩ := ih hs
    exact ⟨⟨h₁, by omega⟩, h₃⟩
  | case4 => contradiction

theorem searchBetween_isSome {a : Array L} {x : L} {lo hi : Nat} {h : hi ≤ a.size}
    (ha : ∀ i j : Fin a.size, i < j → j < hi → compare a[i] a[j] = .lt) {k : Fin a.size}
    (hlo : lo ≤ k) (hhi : k < hi) (hk : a[k] = x) : (searchBetween a x lo hi h).isSome := by
  fun_induction searchBetween a x lo hi h with
  | case1 => rfl
  | case2 lo hi h hlt mid hmid hc ih =>
    -- the entry in the middle is before `x`, so `x` can only be behind it
    refine ih ha ?_ hhi hk
    refine Nat.lt_of_not_le fun hle => ?_
    rcases Nat.lt_or_eq_of_le hle with hlt' | heq
    · have := ha k ⟨mid, hmid⟩ hlt' (by have : mid = (lo + hi) / 2 := rfl; simp only; omega)
      rw [hk, Std.OrientedOrd.eq_swap] at this
      simp only [Fin.getElem_fin] at this
      rw [hc] at this
      contradiction
    · simp only [Fin.getElem_fin, heq] at hk
      rw [hk, Std.ReflOrd.compare_self] at hc
      contradiction
  | case3 lo hi h hlt mid hmid hc ih =>
    have hmidhi : mid < hi := by have : mid = (lo + hi) / 2 := rfl; omega
    refine ih (fun i j hij hj => ha i j hij (Nat.lt_trans hj hmidhi)) hlo ?_ hk
    refine Nat.lt_of_not_le fun hle => ?_
    rcases Nat.lt_or_eq_of_le hle with hlt' | heq
    · have := ha ⟨mid, hmid⟩ k hlt' hhi
      rw [hk] at this
      simp only [Fin.getElem_fin] at this
      rw [hc] at this
      contradiction
    · simp only [Fin.getElem_fin, ← heq] at hk
      rw [hk, Std.ReflOrd.compare_self] at hc
      contradiction
  | case4 => omega

namespace Valid

variable {t : Tree L}

omit [LawfulLocation L] in
theorem compare_lt (ht : t.Valid) {m n : t.Node} (h : m < n) :
    compare (t.location m) (t.location n) = .lt := by
  have := List.pairwise_iff_getElem.1 ht.ascending m n (by simp) (by simp) h
  simpa [location] using this

/-- Nodes are numbered in depth-first order. -/
theorem lt_iff (ht : t.Valid) {m n : t.Node} :
    m < n ↔ compare (t.location m) (t.location n) = .lt := by
  refine ⟨ht.compare_lt, fun h => ?_⟩
  rcases lt_trichotomy m n with hlt | rfl | hgt
  · exact hlt
  · rw [Std.ReflOrd.compare_self] at h
    contradiction
  · rw [Std.OrientedOrd.eq_swap, ht.compare_lt hgt] at h
    contradiction

theorem location_injective (ht : t.Valid) {m n : t.Node} (h : t.location m = t.location n) :
    m = n := by
  rcases lt_trichotomy m n with hlt | heq | hgt
  · exact absurd h (ne_of_compare_lt (ht.compare_lt hlt))
  · exact heq
  · exact absurd h.symm (ne_of_compare_lt (ht.compare_lt hgt))

theorem nodup_locations (ht : t.Valid) : t.locations.toList.Nodup :=
  ht.ascending.imp ne_of_compare_lt

/-- A tree is told by the locations it holds, since their order is fixed. -/
theorem eq_of_mem_iff {u : Tree L} (ht : t.Valid) (hu : u.Valid)
    (h : ∀ x, x ∈ t.locations ↔ x ∈ u.locations) : t = u := by
  have : Std.Irrefl fun x y : L => compare x y = .lt := ⟨fun x hx => ne_of_compare_lt hx rfl⟩
  have : Std.Antisymm fun x y : L => compare x y = .lt :=
    ⟨fun x y hxy hyx => absurd hyx (Std.OrientedCmp.not_lt_of_lt hxy)⟩
  have hlist : t.locations.toList = u.locations.toList :=
    ht.ascending.eq_of_mem_iff hu.ascending fun x => by
      rw [Array.mem_toList_iff, Array.mem_toList_iff, h]
  obtain ⟨a⟩ := t
  obtain ⟨b⟩ := u
  exact congrArg Tree.mk (Array.toList_inj.1 hlist)

/-- Binary search finds exactly the nodes of the tree. -/
theorem nodeAt?_eq_some_iff (ht : t.Valid) {x : L} {n : t.Node} :
    t.nodeAt? x = some n ↔ t.location n = x := by
  constructor
  · exact fun h => (getElem_of_searchBetween h).2
  · intro h
    have hsome : (t.nodeAt? x).isSome :=
      searchBetween_isSome (fun i j hij _ => ht.compare_lt hij) (Nat.zero_le _) n.isLt h
    obtain ⟨m, hm⟩ := Option.isSome_iff_exists.1 hsome
    rw [hm, ht.location_injective ((getElem_of_searchBetween hm).2.trans h.symm)]

@[simp] theorem nodeAt?_location (ht : t.Valid) (n : t.Node) : t.nodeAt? (t.location n) = some n :=
  ht.nodeAt?_eq_some_iff.2 rfl

theorem nodeAt?_eq_none_iff (ht : t.Valid) {x : L} : t.nodeAt? x = none ↔ x ∉ t.locations := by
  rw [← not_iff_not, ← Ne, Option.ne_none_iff_exists', not_not, mem_locations_iff]
  simp only [ht.nodeAt?_eq_some_iff]

/-! ## Families -/

omit [LawfulLocation L] in
theorem root_mem (ht : t.Valid) : (root : L) ∈ t.locations :=
  Array.mem_of_getElem? ht.root_first

/-- A tree holds the parent of each of its locations but the root. -/
theorem exists_parent (ht : t.Valid) {x : L} (hx : x ∈ t.locations) (hne : x ≠ root) :
    ∃ y ∈ t.locations, LocationCode.parent? x = some y := by
  cases hy : LocationCode.parent? x with
  | none => exact absurd (eq_root_iff.2 (parent?_eq_none_iff.1 hy)) hne
  | some y => exact ⟨y, ht.closed x hx y hy, rfl⟩

/-- A tree holds every ancestor of its nodes. -/
theorem mem_of_isAncestorOf (ht : t.Valid) {x y : L} (hy : y ∈ t.locations)
    (h : isAncestorOf x y = true) : x ∈ t.locations := by
  induction hl : LocationCode.level y generalizing y with
  | zero =>
    have := (isAncestorOf_iff.1 h).1
    omega
  | succ l ih =>
    obtain ⟨p, hp⟩ := exists_parent? (x := y) (by omega)
    have hmem := ht.closed y hy p hp
    rcases (isAncestorOf_iff_parent? hp).1 h with rfl | hx
    · exact hmem
    · refine ih hmem hx ?_
      have := (parent?_eq_some_iff.1 hp).1
      omega

/-- A tree holds what covers one of its nodes. -/
theorem mem_of_covers (ht : t.Valid) {x y : L} (hy : y ∈ t.locations) (h : Covers x y) :
    x ∈ t.locations := by
  rcases covers_iff.1 h with rfl | hanc
  · exact hy
  · exact ht.mem_of_isAncestorOf hy hanc

/-- A node is a leaf exactly if no node is below it, though only the next entry is looked at. -/
theorem isLeaf_iff (ht : t.Valid) {n : t.Node} :
    t.isLeaf n = true ↔ ∀ y ∈ t.locations, isAncestorOf (t.location n) y = false := by
  unfold isLeaf
  split
  · next next hnext =>
    obtain ⟨hlt, hget⟩ := Array.getElem?_eq_some_iff.1 hnext
    have hnext' : t.location ⟨n + 1, hlt⟩ = next := hget
    rw [Bool.not_eq_true']
    constructor
    · intro hno y hy
      obtain ⟨m, rfl⟩ := mem_locations_iff.1 hy
      rw [Bool.eq_false_iff]
      intro hanc
      -- the next entry lies between the node and any descendant
      have hnm : n < m := ht.lt_iff.2 (compare_of_isAncestorOf hanc)
      have hle : (compare next (t.location m)).isLE := by
        rw [← hnext']
        rcases Nat.lt_or_eq_of_le (show n.val + 1 ≤ m.val from hnm) with h | h
        · rw [ht.compare_lt (m := ⟨n + 1, hlt⟩) h]
          rfl
        · have : (⟨n + 1, hlt⟩ : t.Node) = m := Fin.ext h
          rw [this, Std.ReflOrd.compare_self]
          rfl
      have hbefore : compare (t.location n) next = .lt := by
        rw [← hnext']
        exact ht.compare_lt (Nat.lt_succ_self n.val)
      rw [isAncestorOf_of_between hanc hbefore hle] at hno
      contradiction
    · intro h
      exact h next (hnext' ▸ t.location_mem _)
  · next hnone =>
    simp only [true_iff]
    intro y hy
    obtain ⟨m, rfl⟩ := mem_locations_iff.1 hy
    rw [Bool.eq_false_iff]
    intro hanc
    have hnm : n < m := ht.lt_iff.2 (compare_of_isAncestorOf hanc)
    have := Array.getElem?_eq_none_iff.1 hnone
    exact absurd m.isLt (Nat.not_lt.2 (Nat.le_trans this hnm))

/-- The children of a node are the nodes whose parent it is, by child position. -/
theorem mem_children_iff (ht : t.Valid) {m n : t.Node} :
    m ∈ t.children n ↔ LocationCode.parent? (t.location m) = some (t.location n) := by
  have hmem : m ∈ (ChildPosition.all D).filterMap
        (fun p => (child? (t.location n) p).bind t.nodeAt?) ↔
      ∃ p, child? (t.location n) p = some (t.location m) := by
    rw [List.mem_filterMap]
    simp only [Option.bind_eq_some_iff, ht.nodeAt?_eq_some_iff]
    constructor
    · rintro ⟨p, -, x, hx, rfl⟩
      exact ⟨p, hx⟩
    · rintro ⟨p, hp⟩
      exact ⟨p, List.mem_finRange p, _, hp, rfl⟩
  unfold children
  split
  · next hleaf =>
    simp only [List.not_mem_nil, false_iff]
    intro hp
    have := ht.isLeaf_iff.1 hleaf _ (t.location_mem m)
    rw [isAncestorOf_of_parent? hp] at this
    contradiction
  · rw [hmem, parent?_eq_some_iff_child?]

/-- Whatever is below a node is at or below one of its children. -/
theorem exists_child_covers (ht : t.Valid) {n b : t.Node}
    (h : isAncestorOf (t.location n) (t.location b) = true) :
    ∃ m ∈ t.children n, Covers (t.location m) (t.location b) := by
  have hlt : t.level n + 1 ≤ LocationCode.level (t.location b) := (isAncestorOf_iff.1 h).1
  have habove := covers_above (x := t.location b) hlt
  obtain ⟨m, hm⟩ := mem_locations_iff.1 (ht.mem_of_covers (t.location_mem b) habove)
  have hlevel : LocationCode.level (t.location m) = t.level n + 1 := hm ▸ level_above hlt
  rw [← hm] at habove
  have hcovers := (covers_iff.2 (Or.inr h)).of_level_le habove (hlevel ▸ Nat.le_succ _)
  have hnm : isAncestorOf (t.location n) (t.location m) = true :=
    isAncestorOf_iff.2 ⟨hlevel ▸ Nat.lt_succ_self _, hcovers.2⟩
  exact ⟨m, ht.mem_children_iff.2 (parent?_of_isAncestorOf hnm hlevel), habove⟩

omit [LawfulLocation L] in
theorem mem_leaves_iff {n : t.Node} : n ∈ t.leaves ↔ t.isLeaf n = true := by
  simp [leaves, nodes]

omit [LawfulLocation L] in
theorem nodup_leaves : t.leaves.Nodup := (List.nodup_finRange _).filter _

/-- No leaf is above a node. -/
theorem not_isAncestorOf_of_isLeaf (ht : t.Valid) {m n : t.Node} (hm : t.isLeaf m = true) :
    isAncestorOf (t.location m) (t.location n) = false :=
  ht.isLeaf_iff.1 hm _ (t.location_mem n)

theorem isLeaf_eq_false (ht : t.Valid) {m n : t.Node}
    (h : isAncestorOf (t.location m) (t.location n) = true) : t.isLeaf m = false := by
  rw [Bool.eq_false_iff]
  intro hm
  rw [ht.not_isAncestorOf_of_isLeaf hm] at h
  contradiction

/-- A leaf lies over no other node. -/
theorem eq_of_isLeaf_covers (ht : t.Valid) {m n : t.Node} (hm : t.isLeaf m = true)
    (h : Covers (t.location m) (t.location n)) : m = n := by
  rcases covers_iff.1 h with heq | hanc
  · exact ht.location_injective heq
  · rw [ht.not_isAncestorOf_of_isLeaf hm] at hanc
    contradiction

/-- A node is a leaf or has a node below it. -/
theorem exists_below_of_not_isLeaf (ht : t.Valid) {n : t.Node} (hn : t.isLeaf n = false) :
    ∃ m, isAncestorOf (t.location n) (t.location m) = true := by
  by_contra hno
  simp only [not_exists, Bool.not_eq_true] at hno
  have : t.isLeaf n = true := ht.isLeaf_iff.2 fun y hy => by
    obtain ⟨m, rfl⟩ := mem_locations_iff.1 hy
    exact hno m
  rw [hn] at this
  contradiction

theorem level_lt_of_not_isLeaf (ht : t.Valid) {n : t.Node} (hn : t.isLeaf n = false) :
    t.level n < LocationCode.maxLevel L := by
  obtain ⟨m, hm⟩ := ht.exists_below_of_not_isLeaf hn
  exact (isAncestorOf_iff.1 hm).1.trans_le (LawfulLocation.level_le _)

/-- No two leaves lie over one location. -/
theorem eq_of_covers (ht : t.Valid) {m n : t.Node} {x : L} (hm : t.isLeaf m = true)
    (hn : t.isLeaf n = true) (hmx : Covers (t.location m) x) (hnx : Covers (t.location n) x) :
    m = n := by
  have hmn : Covers (t.location m) (t.location n) ∨ Covers (t.location n) (t.location m) :=
    (Nat.le_total _ _).imp (hmx.of_level_le hnx) (hnx.of_level_le hmx)
  rcases hmn with h | h
  · exact ht.eq_of_isLeaf_covers hm h
  · exact (ht.eq_of_isLeaf_covers hn h).symm

end Valid

/-! ## Small trees -/

/-- A leaf has a level and a place along each axis. -/
def IsLeafAt (t : Tree (GridLocation 2)) (n : t.Node) (l : Nat) (p : Vector Nat 2) : Prop :=
  t.isLeaf n = true ∧ t.level n = l ∧ ∀ d, place (t.location n) d = p.get d

/-- The root with its four children. -/
def quartered : Tree (GridLocation 2) where
  locations := #[root, .square 1 0 0, .square 1 1 0, .square 1 0 1, .square 1 1 1]

/-- The root with its four children and the children of the first. -/
def graded : Tree (GridLocation 2) where
  locations := #[root, .square 1 0 0, .square 2 0 0, .square 2 1 0, .square 2 0 1, .square 2 1 1,
    .square 1 1 0, .square 1 0 1, .square 1 1 1]

/-- The same with the children of the child in the middle, which touch leaves of the first level. -/
def steep : Tree (GridLocation 2) where
  locations := #[root, .square 1 0 0, .square 2 0 0, .square 2 1 0, .square 2 0 1, .square 2 1 1,
    .square 3 2 2, .square 3 3 2, .square 3 2 3, .square 3 3 3, .square 1 1 0, .square 1 0 1,
    .square 1 1 1]

/-- The root with two of its children, of which the first has one child. -/
def sparse : Tree (GridLocation 2) where
  locations := #[root, .square 1 0 0, .square 2 1 1, .square 1 1 1]

/-- The root with three of its children, of which the second has one child. That one touches the
third, but not the first. -/
def gapped : Tree (GridLocation 2) where
  locations := #[root, .square 1 0 0, .square 1 1 0, .square 2 3 1, .square 1 1 1]

end Tree

end AdaptiveMesh
