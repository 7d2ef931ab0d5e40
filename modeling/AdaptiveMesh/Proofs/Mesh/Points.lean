import AdaptiveMesh.Proofs.Mesh.Built
import AdaptiveMesh.Proofs.Tile.Lookup
import AdaptiveMesh.Proofs.Tree.Complete

/-!
# Points of built meshes

In exact arithmetic the centre of a cell of a tile is a point of the grid of its level, the cell
over a point is found by its numbers on that grid, and the leaf over a point is the one whose box
the point lies in.
-/

namespace AdaptiveMesh

open LocationCode

variable {D : Nat} {L : Type} [LocationCode D L]

namespace MeshConfig

/-- The number of a cell of a node's tile on the grid of the node's level, along an axis. -/
def cellIndex {S : Type} (config : MeshConfig S) (x : L) (c : Cell D) (d : Fin D) : ℤ :=
  place x d * config.internalCells + c.get d - config.haloLayers

/-- The internal cell over a point, in the tile of the node of a level that the point lies in. -/
def internalCellAt [Dimension D] (config : MeshConfig ℚ) (l : Nat) (p : Point ℚ) : Cell D :=
  Vector.ofFn fun d =>
    (config.gridIndex l p d % config.internalCells).toNat + config.haloLayers

theorem get_internalCellAt [Dimension D] {config : MeshConfig ℚ} (hn : 0 < config.internalCells)
    (l : Nat) (p : Point ℚ) (d : Fin D) : ((config.internalCellAt l p : Cell D).get d : ℤ) =
      config.gridIndex l p d % config.internalCells + config.haloLayers := by
  have := Int.emod_nonneg (config.gridIndex l p d) (Int.natCast_ne_zero.2 hn.ne')
  simp only [internalCellAt, Vector.get_eq_getElem, Vector.getElem_ofFn, Fin.eta]
  omega

/-- The internal cells with given numbers on the grid are those of the node the numbers lie in. -/
theorem forall_gridIndex_eq_iff [Dimension D] {config : MeshConfig ℚ}
    (hn : 0 < config.internalCells) {x : L} {p : Point ℚ} {c : Cell D} :
    (∀ d, config.haloLayers ≤ c.get d ∧ c.get d < config.haloLayers + config.internalCells) ∧
      (∀ d, config.gridIndex (level x) p d = config.cellIndex x c d) ↔
        config.LiesIn p x ∧ config.internalCellAt (level x) p = c := by
  have hn' : (0 : ℤ) < config.internalCells := by exact_mod_cast hn
  constructor
  · rintro ⟨hc, hindex⟩
    have hdiv (d : Fin D) : config.gridIndex (level x) p d / config.internalCells = place x d ∧
        config.gridIndex (level x) p d % config.internalCells =
          (c.get d : ℤ) - config.haloLayers := by
      have := hc d
      rw [Int.ediv_emod_unique hn', hindex d, cellIndex]
      refine ⟨by ring, by omega, by omega⟩
    refine ⟨fun d => (hdiv d).1, Vector.ext fun i hi => ?_⟩
    have := (hdiv ⟨i, hi⟩).2
    have := get_internalCellAt hn (level x) p ⟨i, hi⟩
    simp only [Vector.get_eq_getElem] at *
    omega
  · rintro ⟨hlies, rfl⟩
    have hget := get_internalCellAt (D := D) hn (level x) p
    refine ⟨fun d => ?_, fun d => ?_⟩
    · have := hget d
      have := Int.emod_nonneg (config.gridIndex (level x) p d) hn'.ne'
      have := Int.emod_lt_of_pos (config.gridIndex (level x) p d) hn'
      omega
    · have := Int.ediv_mul_add_emod (config.gridIndex (level x) p d) config.internalCells
      rw [hlies d] at this
      rw [cellIndex, hget]
      omega

end MeshConfig

variable [LawfulLocation L] {mesh : Mesh D L ℚ}

namespace Mesh

/-! ## Cells -/

namespace IsTileOf

variable {n : mesh.tree.Node} {tile : Tile D ℚ}

theorem exists_box (hb : mesh.Built) (ht : mesh.IsTileOf n tile) :
    tile.box.length = mesh.config.spacing (mesh.tree.level n) * mesh.config.internalCells ∧
    tile.box.lower = mesh.config.origin.mapAxes D fun d o => o +
      place (mesh.tree.location n) d * mesh.config.internalCells *
        mesh.config.spacing (mesh.tree.level n) := by
  obtain ⟨box, hbox, hlength, hlower⟩ :=
    MeshConfig.exists_nodeBox hb.validate_eq (mesh.tree.location n)
  obtain rfl := Except.ok.inj (hbox.symm.trans ht.box)
  exact ⟨hlength, hlower⟩

theorem cellLength_eq (hb : mesh.Built) (ht : mesh.IsTileOf n tile) :
    tile.cellLength = mesh.config.spacing (mesh.tree.level n) := by
  have hn : (mesh.config.internalCells : ℚ) ≠ 0 :=
    Nat.cast_ne_zero.2 (MeshConfig.of_validate hb.validate_eq).1.1
  unfold Tile.cellLength
  rw [ht.layout, hb.layout_eq.1, (ht.exists_box hb).1]
  exact mul_div_cancel_right₀ _ hn

variable [Dimension D]

theorem cellCentroid_eq (hb : mesh.Built) (ht : mesh.IsTileOf n tile) {c : Cell D}
    (hc : mesh.layout.Contains c) : tile.cellCentroid c = .ok (mesh.config.gridPoint
      (mesh.tree.level n) (mesh.config.cellIndex (mesh.tree.location n) c)) := by
  rw [ht.hasRoom.cellCentroid_eq (ht.layout ▸ hc), (ht.exists_box hb).2, ht.cellLength_eq hb,
    ht.layout, hb.layout_eq.2, Point.mapAxes_mapAxes]
  refine congrArg Except.ok ?_
  unfold MeshConfig.gridPoint MeshConfig.cellIndex
  congr 1
  funext d o
  change o + _ + ((c.get d : ℚ) - (mesh.config.haloLayers : ℚ) + 1 / 2) * _ = _
  push_cast
  ring

/-- Cells are counted from the lowest one of the tile, and from there on the grid of its level. -/
theorem cellPlace_eq_iff (hb : mesh.Built) (ht : mesh.IsTileOf n tile) {p : Point ℚ} {c : Cell D}
    {d : Fin D} : tile.cellPlace p d = c.get d ↔ mesh.config.gridIndex (mesh.tree.level n) p d =
      mesh.config.cellIndex (mesh.tree.location n) c d := by
  have hs := (MeshConfig.spacing_pos (MeshConfig.rootLength_pos hb.validate_eq)
    (Nat.pos_of_ne_zero (MeshConfig.of_validate hb.validate_eq).1.1) (mesh.tree.level n)).ne'
  have hsteps : tile.cellSteps p d = (p.along d - mesh.config.origin.along d) /
      mesh.config.spacing (mesh.tree.level n) -
        ((place (mesh.tree.location n) d * mesh.config.internalCells : ℕ) : ℤ) +
          ((mesh.config.haloLayers : ℕ) : ℤ) := by
    rw [Tile.cellSteps, (ht.exists_box hb).2, ht.cellLength_eq hb, Point.along_mapAxes, ht.layout,
      hb.layout_eq.2]
    push_cast
    field_simp
    ring
  rw [Tile.cellPlace, hsteps, Int.floor_add_intCast, Int.floor_sub_intCast, MeshConfig.cellIndex,
    ← MeshConfig.gridIndex]
  push_cast
  omega

/-- A tile has an internal cell over the points in the box of its node alone. -/
theorem internalCellContaining_eq (hb : mesh.Built) (ht : mesh.IsTileOf n tile) (p : Point ℚ) :
    tile.internalCellContaining p = .ok (if mesh.config.LiesIn p (mesh.tree.location n)
      then some (mesh.config.internalCellAt (mesh.tree.level n) p) else none) := by
  have hn := Nat.pos_of_ne_zero (MeshConfig.of_validate hb.validate_eq).1.1
  have hinside (c : Cell D) : mesh.layout.Inside c ↔ ∀ d, mesh.config.haloLayers ≤ c.get d ∧
      c.get d < mesh.config.haloLayers + mesh.config.internalCells := by
    rw [TileLayout.Inside, hb.layout_eq.1, hb.layout_eq.2]
  obtain ⟨r, hr, hcell⟩ := Tile.exists_internalCellContaining ht.hasRoom.fits.spans p
  rw [hr]
  refine congrArg Except.ok (Option.ext fun c => ?_)
  have hiff := MeshConfig.forall_gridIndex_eq_iff hn (c := c) (p := p)
    (x := mesh.tree.location n)
  simp only [ht.cellPlace_eq_iff hb, ht.layout, hinside] at hcell
  rw [hcell, Option.ite_none_right_eq_some, Option.some.injEq]
  exact hiff

end IsTileOf

/-! ## Leaves -/

section Leaves

variable [Dimension D] {config : MeshConfig ℚ} {p : Point ℚ}

/-- Place of a point within the root, in units of the root's edge. -/
def IsPlace (config : MeshConfig ℚ) (p : Point ℚ) (v : Vector ℚ D) : Prop :=
  ∀ d, v.get d = (p.along d - config.origin.along d) / config.rootLength

theorem IsPlace.floor_mul {v : Vector ℚ D} (h : IsPlace config p v)
    (hn : 0 < config.internalCells) (l : Nat) (d : Fin D) :
    ⌊v.get d * (2 ^ l : Nat)⌋ = config.gridIndex l p d / config.internalCells := by
  have hn' : (config.internalCells : ℚ) ≠ 0 := Nat.cast_ne_zero.2 hn.ne'
  have hmul : (p.along d - config.origin.along d) / config.spacing l =
      v.get d * (2 ^ l : Nat) * config.internalCells := by
    rw [h d, MeshConfig.spacing]
    push_cast
    rw [div_div_eq_mul_div]
    ring
  rw [MeshConfig.gridIndex, hmul, ← Int.floor_div_natCast, mul_div_cancel_right₀ _ hn']

/-- The child over a point of a node's box has the point in its box. -/
theorem IsPlace.exists_child {v : Vector ℚ D} (h : IsPlace config p v)
    (hn : 0 < config.internalCells) {x : L} (hx : config.LiesIn p x)
    (hl : level x < maxLevel L) :
    ∃ c, child? x (childOver v (level x + 1)) = some c ∧ config.LiesIn p c := by
  obtain ⟨c, hc⟩ : ∃ c, child? x (childOver v (level x + 1)) = some c :=
    ⟨push x _ hl, dif_pos hl⟩
  obtain ⟨hcl, hcp⟩ := child?_eq_some_iff.1 hc
  refine ⟨c, hc, fun d => ?_⟩
  have hhalf := (MeshConfig.liesIn_iff_of_add 1).1 hx d
  have hfloor := h.floor_mul hn (level x + 1) d
  have hbit : (childOver v (level x + 1)).isPositive d =
      (⌊v.get d * (2 ^ (level x + 1) : Nat)⌋.toNat).testBit 0 :=
    ChildPosition.isPositive_ofSides _ _
  rw [hcl, hcp, hbit, hfloor, Nat.testBit_zero]
  rw [pow_one] at hhalf
  generalize config.gridIndex (level x + 1) p d / config.internalCells = q at hhalf
  rcases Nat.mod_two_eq_zero_or_one q.toNat with hq | hq <;> simp [hq] <;> omega

theorem leaf_eq_some_iff {t : Tree L} (ht : t.Valid) {n b : t.Node}
    (hlies : config.LiesIn p (t.location n)) (hn : t.isLeaf n = true) :
    some n = some b ↔ t.isLeaf b = true ∧ config.LiesIn p (t.location b) ∧
      Covers (t.location n) (t.location b) := by
  rw [Option.some.injEq]
  constructor
  · rintro rfl
    exact ⟨hn, hlies, covers_refl _⟩
  · rintro ⟨-, -, hcover⟩
    exact ht.eq_of_isLeaf_covers hn hcover

/-- Of an internal node's children only the one over a point lies over leaves that do so. -/
theorem covers_iff_of_child {t : Tree L} (ht : t.Valid) {n b : t.Node} {c : L}
    (hn : t.isLeaf n = false) (hnc : parent? c = some (t.location n)) (hc : config.LiesIn p c)
    (hb : t.isLeaf b = true) (hbp : config.LiesIn p (t.location b)) :
    Covers (t.location n) (t.location b) ↔ Covers c (t.location b) := by
  refine ⟨fun hnb => ?_, (covers_iff.2 (Or.inr (isAncestorOf_of_parent? hnc))).trans⟩
  rcases covers_iff.1 hnb with heq | hanc
  · rw [ht.location_injective heq, hb] at hn
    contradiction
  · exact hc.covers hbp ((parent?_eq_some_iff.1 hnc).1 ▸ (isAncestorOf_iff.1 hanc).1)

/-- Going down over a point ends at the leaf whose box it lies in. -/
theorem leafBelow_eq_some_iff {t : Tree L} (ht : t.Valid) {v : Vector ℚ D}
    (h : IsPlace config p v) (hn : 0 < config.internalCells) {levels : Nat} {n b : t.Node}
    (hlies : config.LiesIn p (t.location n)) (hlevels : maxLevel L ≤ t.level n + levels) :
    leafBelow t v levels n = some b ↔ t.isLeaf b = true ∧ config.LiesIn p (t.location b) ∧
      Covers (t.location n) (t.location b) := by
  induction levels generalizing n with
  | zero =>
    rw [leafBelow]
    split
    · next hleaf => exact leaf_eq_some_iff ht hlies hleaf
    · next hleaf => exact absurd (ht.level_lt_of_not_isLeaf (Bool.eq_false_iff.2 hleaf)) (by omega)
  | succ levels ih =>
    rw [leafBelow]
    split
    · next hleaf => exact leaf_eq_some_iff ht hlies hleaf
    · next hleaf =>
      rw [Bool.not_eq_true] at hleaf
      obtain ⟨c, hc, hcp⟩ := h.exists_child hn hlies (ht.level_lt_of_not_isLeaf hleaf)
      have hcl := (child?_eq_some_iff.1 hc).1
      have hdown := covers_iff_of_child (b := b) ht hleaf (parent?_of_child? hc) hcp
      simp only [hc, Option.bind_eq_bind, Option.bind_some]
      rcases hm : t.nodeAt? c with _ | m
      · rw [ht.nodeAt?_eq_none_iff] at hm
        simp only [Option.bind_none, reduceCtorEq, false_iff, not_and]
        intro hb hbp hnb
        exact hm (ht.mem_of_covers (t.location_mem b) ((hdown hb hbp).1 hnb))
      · have hloc := ht.nodeAt?_eq_some_iff.1 hm
        have hlevel : t.level m = t.level n + 1 := by rw [Tree.level, hloc, hcl, Tree.level]
        rw [Option.bind_some, ih (by rwa [hloc]) (by omega), hloc]
        refine and_congr_right fun hb => and_congr_right fun hbp => ?_
        exact (hdown hb hbp).symm

/-- The leaf over a point is the one whose box the point lies in. -/
theorem leafContaining_eq_some_iff {mesh : Mesh D L ℚ} (ht : mesh.tree.Valid) (hb : mesh.Built)
    {p : Point ℚ} {b : mesh.tree.Node} : mesh.leafContaining p = some b ↔
      mesh.tree.isLeaf b = true ∧ mesh.config.LiesIn p (mesh.tree.location b) := by
  have hn := Nat.pos_of_ne_zero (MeshConfig.of_validate hb.validate_eq).1.1
  let v : Vector ℚ D := Vector.ofFn fun d =>
    (p.along d - mesh.config.origin.along d) / mesh.config.rootLength
  have hv : IsPlace mesh.config p v := fun d => by simp [v]
  have hall : (v.all fun q => Scalar.le (Scalar.ofNat 0) q && Scalar.lt q (Scalar.ofNat 1)) = true ↔
      mesh.config.LiesIn p (root : L) := by
    rw [vector_all_iff]
    refine forall_congr' fun d => ?_
    have hfloor := hv.floor_mul hn 0 d
    rw [pow_zero, Nat.cast_one, mul_one] at hfloor
    rw [level_root, place_root, ← hfloor, Nat.cast_zero, Int.floor_eq_zero_iff, Set.mem_Ico,
      Bool.and_eq_true]
    exact and_congr decide_eq_true_iff decide_eq_true_iff
  obtain ⟨r, hr⟩ := Tree.mem_locations_iff.1 ht.root_mem
  change (if (v.all fun q => Scalar.le (Scalar.ofNat 0) q && Scalar.lt q (Scalar.ofNat 1)) = true
    then (mesh.tree.nodeAt? root).bind (leafBelow mesh.tree v (maxLevel L)) else none) = some b ↔ _
  rw [Option.ite_none_right_eq_some, hall, ← hr, ht.nodeAt?_location, Option.bind_some]
  constructor
  · rintro ⟨hroot, h⟩
    obtain ⟨hleaf, hlies, -⟩ :=
      (leafBelow_eq_some_iff ht hv hn hroot (Nat.le_add_left _ _)).1 h
    exact ⟨hleaf, hlies⟩
  · rintro ⟨hleaf, hlies⟩
    have hroot : mesh.config.LiesIn p (mesh.tree.location r) := by
      rw [hr, ← MeshConfig.inDomain_iff_liesIn_root]
      exact hlies.inDomain
    have hlevel : level (mesh.tree.location r) = 0 := by rw [hr, level_root]
    exact ⟨hroot, (leafBelow_eq_some_iff ht hv hn hroot (Nat.le_add_left _ _)).2
      ⟨hleaf, hlies, hroot.covers hlies (by omega)⟩⟩

end Leaves

end Mesh

end AdaptiveMesh
