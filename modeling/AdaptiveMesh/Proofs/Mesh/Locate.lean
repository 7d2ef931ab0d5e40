import AdaptiveMesh.Proofs.Mesh.Make
import AdaptiveMesh.Proofs.Mesh.Volume

/-!
# The leaf under a point

A point is looked up in two ways: from the root down by the bits of its place, and in the cells of
a leaf's tile by its distance from the leaf's lowest corner. In exact arithmetic both find the leaf
whose half-open box the point lies in, and the way down ends without a leaf only outside the root
and where a node lacks the child over the point.
-/

namespace AdaptiveMesh

open LocationCode

variable {D : Nat} {L : Type} [LocationCode D L] [Dimension D]

namespace MeshConfig

/-- The point lies in the box of a location, whose upper faces do not belong to it. -/
def NodeLiesOver (config : MeshConfig ℚ) (x : L) (p : Point ℚ) : Prop :=
  ∃ box, config.nodeBox x = .ok box ∧ box.LiesOver p

theorem nodeLiesOver_iff [LawfulLocation L] {config : MeshConfig ℚ} (h : config.validate = .ok ())
    {x : L} {p : Point ℚ} : config.NodeLiesOver x p ↔ config.LiesIn p x := by
  obtain ⟨box, hbox, -⟩ := exists_nodeBox h x
  unfold NodeLiesOver
  simp only [hbox, Except.ok.injEq, exists_eq_left', liesOver_iff_liesIn h hbox]

end MeshConfig

namespace Mesh

/-- The tile of a node answers with an internal cell over the point. -/
def Claims (mesh : Mesh D L ℚ) (n : mesh.tree.Node) (p : Point ℚ) : Prop :=
  ∃ tile c, mesh.tile? n = some tile ∧ tile.internalCellContaining p = .ok (some c)

/-- A node that has children lacks the one over the point. -/
def LacksChildOver (mesh : Mesh D L ℚ) (p : Point ℚ) : Prop :=
  ∃ n part y, mesh.tree.isLeaf n = false ∧ child? (mesh.tree.location n) part = some y ∧
    mesh.config.NodeLiesOver y p ∧ mesh.tree.nodeAt? y = none

variable [LawfulLocation L]

variable {mesh : Mesh D L ℚ} {n : mesh.tree.Node} {tile : Tile D ℚ} {p : Point ℚ}

/-! ## The cells of one tile -/

/-- A tile always answers, with a cell if its node's box lies over the point. -/
theorem exists_internalCellContaining (hb : mesh.Built) (htile : mesh.tile? n = some tile) :
    ∃ r, tile.internalCellContaining p = .ok r ∧
      (r.isSome = true ↔ mesh.config.NodeLiesOver (mesh.tree.location n) p) := by
  have hof := (hb.isLeaf_of_tile htile).2
  refine ⟨_, hof.internalCellContaining_eq hb p, ?_⟩
  rw [MeshConfig.nodeLiesOver_iff hb.validate_eq]
  split <;> simp_all

theorem claims_iff (hb : mesh.Built) : mesh.Claims n p ↔
    mesh.tree.isLeaf n = true ∧ mesh.config.LiesIn p (mesh.tree.location n) := by
  constructor
  · rintro ⟨tile, c, htile, hcell⟩
    obtain ⟨r, hr, hiff⟩ := exists_internalCellContaining (p := p) hb htile
    obtain rfl := Except.ok.inj (hr.symm.trans hcell)
    exact ⟨(hb.isLeaf_of_tile htile).1, (MeshConfig.nodeLiesOver_iff hb.validate_eq).1 (hiff.1 rfl)⟩
  · rintro ⟨hleaf, hlies⟩
    obtain ⟨tile, htile, hof⟩ := hb.exists_tile hleaf
    have hcell := hof.internalCellContaining_eq hb p
    rw [if_pos hlies] at hcell
    exact ⟨tile, _, htile, hcell⟩

/-! ## Points without a leaf -/

/-- Where no leaf lies over a point of the root, the finest node over it lacks a child. -/
theorem lacksChildOver_of_forall_not (ht : mesh.tree.Valid) (hb : mesh.Built)
    (hroot : mesh.config.LiesIn p (root : L)) (hno : ∀ b, mesh.tree.isLeaf b = true →
      ¬ mesh.config.LiesIn p (mesh.tree.location b)) : mesh.LacksChildOver p := by
  obtain ⟨r, hr⟩ := Tree.mem_locations_iff.1 ht.root_mem
  obtain ⟨n, hn, hfinest⟩ := Finset.exists_max_image
    (Finset.univ.filter fun n => mesh.config.LiesIn p (mesh.tree.location n)) mesh.tree.level
    ⟨r, Finset.mem_filter.2 ⟨Finset.mem_univ r, hr ▸ hroot⟩⟩
  have hlies := (Finset.mem_filter.1 hn).2
  have hinternal : mesh.tree.isLeaf n = false := by
    rw [Bool.eq_false_iff]
    exact fun hleaf => hno n hleaf hlies
  have hplace : IsPlace (D := D) mesh.config p (Vector.ofFn fun d =>
      (p.along d - mesh.config.origin.along d) / mesh.config.rootLength) := fun d => by simp
  obtain ⟨y, hy, hylies⟩ := hplace.exists_child hb.internalCells_pos hlies
    (ht.level_lt_of_not_isLeaf hinternal)
  refine ⟨n, _, y, hinternal, hy, (MeshConfig.nodeLiesOver_iff hb.validate_eq).2 hylies, ?_⟩
  -- a node there would be a finer one over the point
  rw [ht.nodeAt?_eq_none_iff, Tree.mem_locations_iff]
  rintro ⟨m, rfl⟩
  have hle := hfinest m (Finset.mem_filter.2 ⟨Finset.mem_univ m, hylies⟩)
  have hlevel : mesh.tree.level m = mesh.tree.level n + 1 := (child?_eq_some_iff.1 hy).1
  omega

/-- No leaf lies over a point where a node lacks the child over it. -/
theorem LacksChildOver.not_liesIn (h : mesh.LacksChildOver p) (ht : mesh.tree.Valid)
    (hb : mesh.Built) {b : mesh.tree.Node} (hleaf : mesh.tree.isLeaf b = true) :
    ¬ mesh.config.LiesIn p (mesh.tree.location b) := by
  obtain ⟨n, part, y, hinternal, hy, hover, hmissing⟩ := h
  have hylies := (MeshConfig.nodeLiesOver_iff hb.validate_eq).1 hover
  have hny := isAncestorOf_of_parent? (parent?_of_child? hy)
  intro hblies
  have hlevel : mesh.tree.level n < mesh.tree.level b :=
    level_lt_of_liesIn ht hinternal hleaf (hylies.of_covers (covers_iff.2 (Or.inr hny))) hblies
  rw [ht.nodeAt?_eq_none_iff] at hmissing
  apply hmissing
  -- the leaf is the child or lies below it, and the tree has whatever lies above its nodes
  rcases covers_iff.1 (hylies.covers hblies ((child?_eq_some_iff.1 hy).1.trans_le hlevel)) with
    rfl | hanc
  · exact mesh.tree.location_mem b
  · exact ht.mem_of_isAncestorOf (mesh.tree.location_mem b) hanc

/-! ## Both ways -/

/-- The leaf under a point is the one whose tile has an internal cell over it, which is the case if
the leaf's half-open box does. No two tiles have one. There is no such leaf exactly outside the
root's half-open box and where a node lacks the child over the point. -/
theorem leafContaining_iff_claims (ht : mesh.tree.Valid) (hb : mesh.Built) (p : Point ℚ) :
    (∀ n, mesh.leafContaining p = some n ↔ mesh.tree.isLeaf n = true ∧ mesh.Claims n p) ∧
    (∀ n tile, mesh.tile? n = some tile → ∃ r, tile.internalCellContaining p = .ok r ∧
      (r.isSome = true ↔ mesh.config.NodeLiesOver (mesh.tree.location n) p)) ∧
    (∀ m n, mesh.Claims m p → mesh.Claims n p → m = n) ∧
    (mesh.leafContaining p = none ↔
      ¬ mesh.config.NodeLiesOver (root : L) p ∨ mesh.LacksChildOver p) := by
  refine ⟨fun n => ?_, fun n tile => exists_internalCellContaining hb, fun m n hm hn => ?_, ?_⟩
  · rw [leafContaining_eq_some_iff ht hb, claims_iff hb]
    exact ⟨fun h => ⟨h.1, h⟩, fun h => h.2⟩
  · rw [claims_iff hb] at hm hn
    exact eq_of_liesIn ht hm.1 hn.1 hm.2 hn.2
  · have hno : mesh.leafContaining p = none ↔ ∀ b, mesh.tree.isLeaf b = true →
        ¬ mesh.config.LiesIn p (mesh.tree.location b) := by
      simp only [Option.eq_none_iff_forall_ne_some, ne_eq, leafContaining_eq_some_iff ht hb, not_and]
    rw [hno, MeshConfig.nodeLiesOver_iff hb.validate_eq]
    constructor
    · intro hno
      by_cases hroot : mesh.config.LiesIn p (root : L)
      · exact Or.inr (lacksChildOver_of_forall_not ht hb hroot hno)
      · exact Or.inl hroot
    · rintro (hout | hlacks) b hleaf
      · intro hlies
        exact hout (MeshConfig.inDomain_iff_liesIn_root.1 hlies.inDomain)
      · exact hlacks.not_liesIn ht hb hleaf

/-- Over the middle of the cube lies the leaf whose lowest corner is there, and over the quarter
that the root lacks there is none. -/
theorem leafContaining_iff_claims_gapped : Tree.gapped.Valid ∧
    ∃ mesh : Mesh 2 (GridLocation 2) ℚ, mesh.tree = Tree.gapped ∧ mesh.config = .unit ∧
      mesh.Built ∧ (∃ n, mesh.leafContaining #v[1 / 2, 1 / 2, 0] = some n ∧
        mesh.tree.IsLeafAt n 1 #v[1, 1] ∧ mesh.Claims n #v[1 / 2, 1 / 2, 0]) ∧
      mesh.LacksChildOver #v[1 / 4, 1 / 2, 0] ∧
      mesh.leafContaining #v[1 / 4, 1 / 2, 0] = none := by
  have hvalid : Tree.gapped.Valid := by decide +kernel
  obtain ⟨⟨tree, config, layout, tiles⟩, htree, hconfig, hb, -⟩ :=
    exists_make_unit (D := 2) Tree.gapped
  change tree = Tree.gapped at htree
  change config = MeshConfig.unit at hconfig
  subst htree hconfig
  refine ⟨hvalid, _, rfl, rfl, hb, ?_⟩
  obtain ⟨hsome, -⟩ := leafContaining_iff_claims hvalid hb #v[1 / 2, 1 / 2, 0]
  obtain ⟨-, -, -, hnone⟩ := leafContaining_iff_claims hvalid hb #v[1 / 4, 1 / 2, 0]
  constructor
  · have hleaf : Tree.gapped.IsLeafAt ⟨4, by decide⟩ 1 #v[1, 1] := by
      unfold Tree.IsLeafAt
      decide +kernel
    have hlies : MeshConfig.unit.LiesIn #v[1 / 2, 1 / 2, 0]
        (Tree.gapped.location ⟨4, by decide⟩) := by decide +kernel
    have hclaims := (claims_iff hb).2 ⟨hleaf.1, hlies⟩
    exact ⟨_, (hsome _).2 ⟨hleaf.1, hclaims⟩, hleaf, hclaims⟩
  · have hlies : MeshConfig.unit.LiesIn #v[1 / 4, 1 / 2, 0] (GridLocation.square 1 0 1) := by
      decide +kernel
    have hmissing : Tree.gapped.isLeaf ⟨0, by decide⟩ = false ∧
        child? (Tree.gapped.location ⟨0, by decide⟩) (⟨2, by decide⟩ : ChildPosition 2) =
          some (GridLocation.square 1 0 1) ∧
        Tree.gapped.nodeAt? (.square 1 0 1) = none := by decide +kernel
    have hlacks : Mesh.LacksChildOver ⟨Tree.gapped, .unit, layout, tiles⟩ #v[1 / 4, 1 / 2, 0] :=
      ⟨_, _, _, hmissing.1, hmissing.2.1, (MeshConfig.nodeLiesOver_iff hb.validate_eq).2 hlies,
        hmissing.2.2⟩
    exact ⟨hlacks, hnone.2 (Or.inr hlacks)⟩

end Mesh

end AdaptiveMesh
