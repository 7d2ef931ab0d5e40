import AdaptiveMesh.Proofs.Mesh.Exchange
import AdaptiveMesh.Proofs.Mesh.Make
import AdaptiveMesh.Proofs.Mesh.Reads

/-!
# Exchanges that cannot fail

In exact arithmetic neither phase is ever refused, whatever the shape of the tree, the configuration
and the values, so long as a word counts the values of all tiles. A leaf found over a point has an
internal cell over it, a projection stays in the coarser tile, and restriction cuts a halo cell no
more often than there are levels below its leaf.
-/

namespace AdaptiveMesh

open LocationCode

variable {D : Nat} {L : Type} [LocationCode D L] [LawfulLocation L] [Dimension D]

namespace Mesh

/-- Nothing that either phase does is refused. -/
structure GoesThrough (mesh : Mesh D L ℚ) : Prop where
  phaseOne : ∃ r, mesh.phaseOne = .ok r
  phaseTwo (limiter : Limiter) : ∃ r, mesh.phaseTwo limiter = .ok r
  exchange (limiter : Limiter) : ∃ r, mesh.exchange limiter = .ok r
  /-- The leaf over a point has a tile, and that an internal cell over the point. -/
  cell {x : Point ℚ} {b : mesh.tree.Node} : mesh.leafContaining x = some b →
    ∃ tile c, mesh.tile? b = some tile ∧ tile.internalCellContaining x = .ok (some c)
  /-- From a cell that a projection starts at, each step along an axis stays in the tile. -/
  step {b : mesh.tree.Node} {tile : Tile D ℚ} {x : Point ℚ} {source : Cell D} :
    mesh.tile? b = some tile → tile.internalCellContaining x = .ok (some source) →
      ∀ (d : Fin D) (steps : Int), steps.natAbs ≤ 1 →
        ∃ c, tile.layout.movedAlong source d steps = .ok c ∧ tile.layout.Contains c
  /-- Restriction around a halo cell needs no more cuts than there are levels below the leaf. -/
  cuts {n : mesh.tree.Node} {tile : Tile D ℚ} {c : Cell D} : mesh.tile? n = some tile →
    tile.layout.IsHaloCell c → ∃ x values, tile.cellCentroid c = .ok x ∧
      mesh.restrictWithin (mesh.tree.maxLevel - mesh.tree.level n) x tile.cellLength = .ok values ∧
        mesh.restrict x tile.cellLength = .ok values

variable {mesh : Mesh D L ℚ}

theorem Built.exists_internalCell (ht : mesh.tree.Valid) (hb : mesh.Built) {x : Point ℚ}
    {b : mesh.tree.Node} (h : mesh.leafContaining x = some b) :
    ∃ tile c, mesh.tile? b = some tile ∧ tile.internalCellContaining x = .ok (some c) := by
  obtain ⟨hleaf, hlies⟩ := (leafContaining_eq_some_iff ht hb).1 h
  obtain ⟨tile, htile, hof⟩ := hb.exists_tile hleaf
  have hcell := hof.internalCellContaining_eq hb x
  rw [if_pos hlies] at hcell
  exact ⟨tile, _, htile, hcell⟩

omit [LawfulLocation L] in
theorem Built.exists_movedAlong (hb : mesh.Built) {b : mesh.tree.Node} {tile : Tile D ℚ}
    {x : Point ℚ} {source : Cell D} (htile : mesh.tile? b = some tile)
    (hsource : tile.internalCellContaining x = .ok (some source)) (d : Fin D) {steps : Int}
    (hsteps : steps.natAbs ≤ 1) :
    ∃ c, tile.layout.movedAlong source d steps = .ok c ∧ tile.layout.Contains c := by
  have hof := (hb.isLeaf_of_tile htile).2
  have hinside := Tile.inside_of_internalCellContaining hsource
  rw [hof.layout] at hinside ⊢
  exact ⟨_, hof.fits.spans.movedAlong hinside d hsteps, hinside.contains_stepped d hsteps⟩

/-- A box around a cell of a leaf is resolved within the levels below the leaf. -/
theorem Built.exists_restrict (ht : mesh.tree.Valid) (hb : mesh.Built) {n : mesh.tree.Node}
    {tile : Tile D ℚ} {c : Cell D} (htile : mesh.tile? n = some tile)
    (hc : tile.layout.Contains c) : ∃ x values, tile.cellCentroid c = .ok x ∧
      mesh.restrictWithin (mesh.tree.maxLevel - mesh.tree.level n) x tile.cellLength = .ok values ∧
        mesh.restrict x tile.cellLength = .ok values := by
  have hof := (hb.isLeaf_of_tile htile).2
  rw [hof.layout] at hc
  have hlevel : mesh.tree.level n ≤ mesh.tree.maxLevel := Tree.level_le_maxLevel n
  have hdeepest (b : mesh.tree.Node) : mesh.tree.level b ≤
      mesh.tree.level n + (mesh.tree.maxLevel - mesh.tree.level n) := by
    rw [Nat.add_sub_of_le hlevel]
    exact Tree.level_le_maxLevel b
  obtain ⟨values, hvalues, -⟩ := exists_restrictWithin ht hb hb.keptByMeans_size
    (fun b _ => hdeepest b) (mesh.config.cellIndex (mesh.tree.location n) c)
  rw [hof.cellCentroid_eq hb hc, hof.cellLength_eq hb]
  refine ⟨_, values, rfl, hvalues, ?_⟩
  -- the bound that every tree keeps to is no smaller
  have hmax : mesh.tree.maxLevel - mesh.tree.level n ≤ mostHalvings ℚ :=
    (Nat.sub_le _ _).trans (Tree.maxLevel_le.trans maxLevel_le_mostHalvings)
  obtain ⟨k, hk⟩ := Nat.exists_eq_add_of_le hmax
  rw [restrict, hk]
  exact (endAlike_restrictWithin k).eq_ok hvalues

theorem Built.goesThrough (ht : mesh.tree.Valid) (hb : mesh.Built) (hfit : mesh.ValuesFit) :
    mesh.GoesThrough where
  phaseOne := exists_phaseOne_of_valuesFit ht hb hfit
  phaseTwo := exists_phaseTwo_of_valuesFit ht hb hfit
  exchange := exists_exchange_of_valuesFit ht hb hfit
  cell := hb.exists_internalCell ht
  step htile hsource d _ := hb.exists_movedAlong htile hsource d
  cuts htile hc := hb.exists_restrict ht htile hc.1

/-- On every valid tree and configuration such that a word counts the values of all tiles, a mesh
can be made if a tile can be stored, and on every mesh made, whatever its values, exchanges go
through. -/
theorem exchange_goesThrough {t : Tree L} (ht : t.Valid) {config : MeshConfig ℚ}
    (hvalid : config.validate = .ok ())
    (hcount : t.leaves.length * ((config.internalCells + 2 * config.haloLayers) ^ D *
      config.variableCount) < Word.bound) :
    ((config.internalCells + 2 * config.haloLayers) ^ D * config.variableCount *
        StateBuffer.valueBytes < 2 ^ (Word.width - 1) →
          ∃ mesh : Mesh D L ℚ, make t config = .ok mesh) ∧
      ∀ mesh : Mesh D L ℚ, mesh.tree = t → mesh.config = config → mesh.Built →
        mesh.GoesThrough := by
  refine ⟨exists_make t hvalid, ?_⟩
  rintro mesh rfl rfl hb
  refine hb.goesThrough ht ?_
  rw [ValuesFit, TileLayout.extent, hb.layout_eq.1, hb.layout_eq.2]
  exact hcount

theorem exchange_goesThrough_sparse : Tree.sparse.Valid ∧
    ∃ mesh : Mesh 2 (GridLocation 2) ℚ, make Tree.sparse .unit = .ok mesh ∧
      mesh.GoesThrough := by
  have ht : Tree.sparse.Valid := by decide +kernel
  have hvalid : (MeshConfig.unit : MeshConfig ℚ).validate = .ok () := by rfl
  obtain ⟨hmake, hthrough⟩ := exchange_goesThrough ht hvalid (by decide +kernel)
  obtain ⟨mesh, hmesh⟩ := hmake (by decide)
  obtain ⟨htree, hconfig, hb⟩ := built_of_make hmesh
  exact ⟨ht, mesh, hmesh, hthrough mesh htree hconfig hb⟩

end Mesh

end AdaptiveMesh
