import AdaptiveMesh.Proofs.Mesh.Project
import AdaptiveMesh.Proofs.Mesh.Restrict

/-!
# Sources of halo cells

Which leaf a halo cell is set from. The leaf over the cell's centre touches the cell's own leaf
unless it is finer, since a halo is no deeper than a tile. So in the tiles next to a leaf the search
for a source finds the leaf over the centre if that one has the level searched for, and nothing
otherwise.
-/

namespace AdaptiveMesh

open LocationCode

variable {D : Nat} {L : Type} [LocationCode D L] [Dimension D]

namespace Mesh

variable {mesh : Mesh D L ℚ} {n b : mesh.tree.Node} {c : Cell D} {p : Point ℚ} {tile : Tile D ℚ}
  {tiles : List (Tile D ℚ)}

/-! ## Centres of cells -/

/-- The centre of a cell of the tile of a leaf. -/
def centre (mesh : Mesh D L ℚ) (n : mesh.tree.Node) (c : Cell D) : Point ℚ :=
  mesh.config.gridPoint (mesh.tree.level n) (mesh.config.cellIndex (mesh.tree.location n) c)

theorem along_centre (n : mesh.tree.Node) (c : Cell D) (d : Fin D) :
    (mesh.centre n c).along d = mesh.config.origin.along d +
      (mesh.config.cellIndex (mesh.tree.location n) c d + 1 / 2) *
        mesh.config.spacing (mesh.tree.level n) :=
  Point.along_mapAxes _ _ _

theorem Built.gridIndex_centre (hb : mesh.Built) (n : mesh.tree.Node) (c : Cell D) (d : Fin D) :
    mesh.config.gridIndex (mesh.tree.level n) (mesh.centre n c) d =
      mesh.config.cellIndex (mesh.tree.location n) c d :=
  MeshConfig.gridIndex_gridPoint (hb.spacing_pos _) _ d

theorem Built.liesIn_centre_iff (hb : mesh.Built) {y : L} (hl : level y ≤ mesh.tree.level n) :
    mesh.config.LiesIn (mesh.centre n c) y ↔ ∀ d, mesh.config.cellIndex (mesh.tree.location n) c d /
      mesh.config.internalCells / 2 ^ (mesh.tree.level n - level y) = place y d := by
  rw [MeshConfig.liesIn_iff_of_add (mesh.tree.level n - level y), Nat.add_sub_of_le hl]
  simp only [hb.gridIndex_centre]

omit [Dimension D] in
/-- The node of a leaf's level around a cell of its tile is at most one step away, since the halo is
no deeper than a tile. -/
theorem Built.abs_sub_place_le (hb : mesh.Built) (hc : mesh.layout.Contains c) (d : Fin D) :
    |mesh.config.cellIndex (mesh.tree.location n) c d / mesh.config.internalCells -
      place (mesh.tree.location n) d| ≤ 1 := by
  have hn : (0 : ℤ) < mesh.config.internalCells := Int.natCast_pos.2 hb.internalCells_pos
  have hhalo := (MeshConfig.of_validate hb.validate_eq).2.1.2
  have hcell := hc d
  unfold TileLayout.extent at hcell
  rw [hb.layout_eq.1, hb.layout_eq.2] at hcell
  have hindex : mesh.config.cellIndex (mesh.tree.location n) c d =
      (c.get d - mesh.config.haloLayers : ℤ) +
        place (mesh.tree.location n) d * mesh.config.internalCells := by
    unfold MeshConfig.cellIndex
    ring
  rw [hindex, Int.add_mul_ediv_right _ _ hn.ne', add_sub_cancel_right, abs_le]
  constructor
  · exact Int.le_ediv_of_mul_le hn (by omega)
  · exact Int.lt_add_one_iff.1 (Int.ediv_lt_of_lt_mul hn (by omega))

/-- A node that is no finer than a leaf and lies over a cell of its tile touches the leaf. -/
theorem Built.adjoins_of_liesIn (hb : mesh.Built) (hc : mesh.layout.Contains c) {y : L}
    (hl : level y ≤ mesh.tree.level n) (hy : mesh.config.LiesIn (mesh.centre n c) y) :
    Adjoins (mesh.tree.location n) y := by
  obtain ⟨k, hk⟩ := Nat.exists_eq_add_of_le hl
  rw [hb.liesIn_centre_iff hl, hk, Nat.add_sub_cancel_left] at hy
  refine ((adjoins_iff_of_level hk).2 fun d => ?_).symm
  have hstep := abs_le.1 (hb.abs_sub_place_le (n := n) hc d)
  have hpow : (0 : ℤ) < 2 ^ k := by positivity
  obtain ⟨hlow, hup⟩ := (Int.ediv_eq_iff_of_pos hpow).1 (hy d)
  zify
  constructor
  · linarith
  · linarith

/-- The centre of a halo cell is outside the leaf. -/
theorem Built.not_liesIn_centre (hb : mesh.Built) (hc : mesh.layout.IsHaloCell c) :
    ¬ mesh.config.LiesIn (mesh.centre n c) (mesh.tree.location n) := by
  intro hlies
  have hn : (0 : ℤ) < mesh.config.internalCells := Int.natCast_pos.2 hb.internalCells_pos
  refine hc.2 fun d => ?_
  have hplace := hlies d
  change mesh.config.gridIndex (mesh.tree.level n) _ d / _ = _ at hplace
  rw [hb.gridIndex_centre, Int.ediv_eq_iff_of_pos hn, MeshConfig.cellIndex] at hplace
  rw [hb.layout_eq.1, hb.layout_eq.2]
  omega

/-! ## The first source -/

omit [LocationCode D L] in
theorem firstSource_cons {S : Type} [Scalar S] {tile : Tile D S} {tiles : List (Tile D S)}
    {x : Point S} {r : Option (Cell D)} (h : tile.internalCellContaining x = .ok r) :
    firstSource (tile :: tiles) x =
      r.elim (firstSource tiles x) fun source => .ok (some (tile, source)) := by
  unfold firstSource
  rw [List.findSomeM?_cons]
  simp only [h, ok_bind]
  cases r <;> rfl

variable [LawfulLocation L]

/-- The source is in the one tile of the list that is over the point. -/
theorem exists_firstSource (ht : mesh.tree.Valid) (hb : mesh.Built)
    (htiles : ∀ tile ∈ tiles, ∃ b, mesh.tile? b = some tile) (p : Point ℚ) :
    ∃ r, firstSource tiles p = .ok r ∧ ∀ tile source, r = some (tile, source) ↔ tile ∈ tiles ∧
      ∃ b, mesh.tile? b = some tile ∧ mesh.config.LiesIn p (mesh.tree.location b) ∧
        source = mesh.config.internalCellAt (mesh.tree.level b) p := by
  induction tiles with
  | nil => exact ⟨none, rfl, fun tile source => by simp⟩
  | cons first tiles ih =>
    obtain ⟨r, hr, hiff⟩ := ih fun tile htile => htiles tile (List.mem_cons_of_mem first htile)
    obtain ⟨a, ha⟩ := htiles first List.mem_cons_self
    obtain ⟨haleaf, hof⟩ := hb.isLeaf_of_tile ha
    rw [firstSource_cons (hof.internalCellContaining_eq hb p)]
    by_cases hap : mesh.config.LiesIn p (mesh.tree.location a)
    · rw [if_pos hap]
      refine ⟨_, rfl, fun tile source => ?_⟩
      rw [Option.some.injEq, Prod.mk.injEq]
      constructor
      · rintro ⟨rfl, rfl⟩
        exact ⟨List.mem_cons_self, a, ha, hap, rfl⟩
      · rintro ⟨-, b, hb', hbp, rfl⟩
        obtain rfl := eq_of_liesIn ht haleaf (hb.isLeaf_of_tile hb').1 hap hbp
        exact ⟨Option.some.inj (ha.symm.trans hb'), rfl⟩
    · rw [if_neg hap]
      refine ⟨r, hr, fun tile source => ?_⟩
      rw [hiff, List.mem_cons]
      constructor
      · rintro ⟨hmem, hsource⟩
        exact ⟨Or.inr hmem, hsource⟩
      · rintro ⟨rfl | hmem, b, hb', hbp, rfl⟩
        · rw [hb.eq_of_tile hb' ha] at hbp
          contradiction
        · exact ⟨hmem, b, hb', hbp, rfl⟩

/-- Among the tiles next to a leaf, of certain levels that are no finer, the source of a halo cell is
in the tile over its centre. -/
theorem exists_firstSource_filter (ht : mesh.tree.Valid) (hb : mesh.Built)
    (hn : mesh.tree.isLeaf n = true) (hc : mesh.layout.IsHaloCell c) {absent : Nat}
    (hns : mesh.neighborTiles n = .ok (tiles, absent)) {q : Nat → Bool}
    (hq : ∀ m, q m = true → m ≤ mesh.tree.level n) :
    ∃ r, firstSource (tiles.filter fun tile => q tile.level) (mesh.centre n c) = .ok r ∧
      ∀ tile source, r = some (tile, source) ↔ ∃ b, mesh.tile? b = some tile ∧
        mesh.config.LiesIn (mesh.centre n c) (mesh.tree.location b) ∧
          q (mesh.tree.level b) = true ∧
            source = mesh.config.internalCellAt (mesh.tree.level b) (mesh.centre n c) := by
  obtain ⟨tiles', absent', hns', hmem⟩ := mesh.exists_neighborTiles ht hn
  obtain ⟨rfl, rfl⟩ := Prod.mk.inj (Except.ok.inj (hns.symm.trans hns'))
  have htiles : ∀ tile ∈ tiles.filter fun tile => q tile.level, ∃ b, mesh.tile? b = some tile := by
    intro tile htile
    obtain ⟨b, -, hb'⟩ := (hmem tile).1 (List.mem_filter.1 htile).1
    exact ⟨b, hb'⟩
  obtain ⟨r, hr, hiff⟩ := exists_firstSource ht hb htiles (mesh.centre n c)
  refine ⟨r, hr, fun tile source => ?_⟩
  rw [hiff, List.mem_filter, hmem]
  constructor
  · rintro ⟨⟨-, hlevel⟩, b, hb', hlies, rfl⟩
    rw [(hb.isLeaf_of_tile hb').2.level] at hlevel
    exact ⟨b, hb', hlies, hlevel, rfl⟩
  · rintro ⟨b, hb', hlies, hlevel, rfl⟩
    obtain ⟨hbleaf, hof⟩ := hb.isLeaf_of_tile hb'
    refine ⟨⟨⟨b, ⟨hbleaf, ?_, hb.adjoins_of_liesIn hc.1 (hq _ hlevel) hlies⟩, hb'⟩, ?_⟩, b, hb',
      hlies, rfl⟩
    · rintro rfl
      exact hb.not_liesIn_centre hc hlies
    · rw [hof.level]
      exact hlevel

/-! ## Phase one -/

/-- A finer tile is next to a leaf exactly if a finer leaf touches it. -/
theorem any_finer_iff (ht : mesh.tree.Valid) (hb : mesh.Built) (hn : mesh.tree.isLeaf n = true)
    {absent : Nat} (hns : mesh.neighborTiles n = .ok (tiles, absent)) :
    (tiles.any fun tile => mesh.tree.level n < tile.level) = true ↔
      ∃ b, mesh.tree.isLeaf b = true ∧ Adjoins (mesh.tree.location n) (mesh.tree.location b) ∧
        mesh.tree.level n < mesh.tree.level b := by
  obtain ⟨tiles', absent', hns', hmem⟩ := mesh.exists_neighborTiles ht hn
  obtain ⟨rfl, rfl⟩ := Prod.mk.inj (Except.ok.inj (hns.symm.trans hns'))
  rw [List.any_eq_true]
  simp only [hmem, decide_eq_true_eq]
  constructor
  · rintro ⟨tile, ⟨b, ⟨hbleaf, -, hadj⟩, hb'⟩, hlt⟩
    rw [(hb.isLeaf_of_tile hb').2.level] at hlt
    exact ⟨b, hbleaf, hadj, hlt⟩
  · rintro ⟨b, hbleaf, hadj, hlt⟩
    obtain ⟨tile, htile, hof⟩ := hb.exists_tile hbleaf
    refine ⟨tile, ⟨b, ⟨hbleaf, ?_, hadj⟩, htile⟩, hof.level.symm ▸ hlt⟩
    rintro rfl
    exact lt_irrefl _ hlt

/-- Phase one copies from the leaf of the same level over the centre, if there is one, and otherwise
looks for finer leaves there if any touches the halo cell's leaf. -/
theorem exists_phaseOneAt_eq (ht : mesh.tree.Valid) (hb : mesh.Built)
    (hn : mesh.tree.isLeaf n = true) (hc : mesh.layout.IsHaloCell c) :
    ∃ (r : Option (Tile D ℚ × Cell D)) (hasFiner : Bool),
      (∀ tile source, r = some (tile, source) ↔ ∃ b, mesh.tile? b = some tile ∧
        mesh.config.LiesIn (mesh.centre n c) (mesh.tree.location b) ∧
          mesh.tree.level b = mesh.tree.level n ∧
            source = mesh.config.internalCellAt (mesh.tree.level b) (mesh.centre n c)) ∧
      (hasFiner = true ↔ ∃ b, mesh.tree.isLeaf b = true ∧
        Adjoins (mesh.tree.location n) (mesh.tree.location b) ∧
          mesh.tree.level n < mesh.tree.level b) ∧
      mesh.phaseOneAt n c = r.elim
        (if hasFiner then (mesh.leafContaining (mesh.centre n c)).elim (.ok none) fun covering =>
            if mesh.tree.level covering ≤ mesh.tree.level n then .ok none
            else Option.map (fun values => ⟨mesh.layout.offset c, values, .restricted⟩) <$>
              mesh.restrict (mesh.centre n c) (mesh.config.spacing (mesh.tree.level n))
          else .ok none)
        fun (neighbor, source) =>
          (fun values => some ⟨mesh.layout.offset c, values, .copied⟩) <$> neighbor.get source := by
  obtain ⟨tile, htile, hof⟩ := hb.exists_tile hn
  obtain ⟨tiles, absent, hns, -⟩ := mesh.exists_neighborTiles ht hn
  obtain ⟨r, hr, hiff⟩ := exists_firstSource_filter ht hb hn hc hns
    (q := fun m => decide (m = mesh.tree.level n)) fun m hm => (of_decide_eq_true hm).le
  refine ⟨r, tiles.any fun tile' => mesh.tree.level n < tile'.level, ?_,
    any_finer_iff ht hb hn hns, ?_⟩
  · simpa only [decide_eq_true_eq] using hiff
  · have hcentroid : tile.cellCentroid c = .ok (mesh.centre n c) := hof.cellCentroid_eq hb hc.1
    unfold phaseOneAt phaseOneUpdate
    simp only [htile, hns, ok_bind, hcentroid, hof.layout, hof.fits.index hc.1, hof.level,
      hof.cellLength_eq hb, hr]
    rcases r with _ | ⟨neighbor, source⟩
    · rcases tiles.any fun tile' => mesh.tree.level n < tile'.level with _ | _
      · rfl
      · rcases mesh.leafContaining (mesh.centre n c) with _ | covering
        · rfl
        · simp only [Bool.not_true, Bool.false_eq_true, if_false, Option.elim_none,
            Option.elim_some, if_true]
          split
          · rfl
          · rcases mesh.restrict (mesh.centre n c) (mesh.config.spacing (mesh.tree.level n)) with
              _ | values
            · rfl
            · cases values <;> rfl
    · rfl

/-- Over a leaf of the same level the cell is copied from that leaf. -/
theorem exists_phaseOneAt_copied (ht : mesh.tree.Valid) (hb : mesh.Built)
    (hn : mesh.tree.isLeaf n = true) (hc : mesh.layout.IsHaloCell c)
    (hbleaf : mesh.tree.isLeaf b = true) (hlevel : mesh.tree.level b = mesh.tree.level n)
    (hlies : mesh.config.LiesIn (mesh.centre n c) (mesh.tree.location b)) :
    ∃ tile values, mesh.tile? b = some tile ∧
      tile.get (mesh.config.internalCellAt (mesh.tree.level n) (mesh.centre n c)) = .ok values ∧
        values.size = mesh.config.variableCount ∧
          mesh.phaseOneAt n c = .ok (some ⟨mesh.layout.offset c, values, .copied⟩) := by
  obtain ⟨r, hasFiner, hr, -, heq⟩ := exists_phaseOneAt_eq ht hb hn hc
  obtain ⟨tile, htile, hof⟩ := hb.exists_tile hbleaf
  obtain ⟨values, hvalues, hsize⟩ := hof.exists_get
    (hb.inside_internalCellAt (mesh.tree.level n) (mesh.centre n c)).contains
  refine ⟨tile, values, htile, hvalues, hsize, ?_⟩
  rw [heq, (hr _ _).2 ⟨b, htile, hlies, hlevel, by rw [hlevel]⟩]
  simp only [Option.elim_some, hvalues]
  rfl

/-- Over an internal node of a complete tree the cell is set by restriction. -/
theorem exists_phaseOneAt_restricted (ht : mesh.tree.Valid) (hcomplete : mesh.tree.Complete)
    (hb : mesh.Built) (hn : mesh.tree.isLeaf n = true) (hc : mesh.layout.IsHaloCell c)
    (hinternal : mesh.tree.isLeaf b = false) (hlevel : mesh.tree.level b = mesh.tree.level n)
    (hlies : mesh.config.LiesIn (mesh.centre n c) (mesh.tree.location b)) :
    ∃ values, mesh.restrict (mesh.centre n c) (mesh.config.spacing (mesh.tree.level n)) =
        .ok (some values) ∧ values.size = mesh.config.variableCount ∧
      mesh.IsMean (mesh.tree.level n) (mesh.config.cellIndex (mesh.tree.location n) c) values ∧
        mesh.phaseOneAt n c = .ok (some ⟨mesh.layout.offset c, values, .restricted⟩) := by
  obtain ⟨r, hasFiner, hr, hfiner, heq⟩ := exists_phaseOneAt_eq ht hb hn hc
  obtain ⟨values, hvalues, hsize, hmean⟩ := exists_restrictWithin_isMean
    (n := mostHalvings ℚ) (m := b) (g := mesh.config.cellIndex (mesh.tree.location n) c) ht
    hcomplete hb (le_add_left maxLevel_le_mostHalvings) (by rw [hlevel]; exact hlies)
  rw [hlevel] at hvalues hmean
  have hrestrict : mesh.restrict (mesh.centre n c) (mesh.config.spacing (mesh.tree.level n)) =
      .ok (some values) := hvalues
  refine ⟨values, hrestrict, hsize, hmean, ?_⟩
  -- the leaf over the centre and a leaf next to the cell's leaf lie below the internal node
  obtain ⟨a, haleaf, halies⟩ :=
    exists_leaf_liesIn ht hcomplete hb.internalCells_pos hlies.inDomain
  have halevel := level_lt_of_liesIn ht hinternal haleaf hlies halies
  obtain ⟨e, heleaf, hbelow, hadj⟩ := hcomplete.exists_leaf_adjoins ht hinternal
    (hb.adjoins_of_liesIn hc.1 hlevel.le hlies)
  have hfinertrue : hasFiner = true :=
    hfiner.2 ⟨e, heleaf, hadj, hlevel ▸ (isAncestorOf_iff.1 hbelow).1⟩
  have hnone : r = none := by
    rcases r with _ | ⟨tile, source⟩
    · rfl
    · obtain ⟨b', hb', hlies', hlevel', -⟩ := (hr tile source).1 rfl
      obtain rfl := eq_of_liesIn ht haleaf (hb.isLeaf_of_tile hb').1 halies hlies'
      omega
  rw [heq, hnone, Option.elim_none, if_pos hfinertrue,
    (leafContaining_eq_some_iff ht hb).2 ⟨haleaf, halies⟩, Option.elim_some, if_neg (by omega),
    hrestrict]
  rfl

/-- Without a leaf of the same or a finer level over it, phase one leaves the cell alone. -/
theorem phaseOneAt_eq_none (ht : mesh.tree.Valid) (hb : mesh.Built)
    (hn : mesh.tree.isLeaf n = true) (hc : mesh.layout.IsHaloCell c)
    (hcoarser : ∀ b, mesh.tree.isLeaf b = true →
      mesh.config.LiesIn (mesh.centre n c) (mesh.tree.location b) →
        mesh.tree.level b < mesh.tree.level n) : mesh.phaseOneAt n c = .ok none := by
  obtain ⟨r, hasFiner, hr, -, heq⟩ := exists_phaseOneAt_eq ht hb hn hc
  have hnone : r = none := by
    rcases r with _ | ⟨tile, source⟩
    · rfl
    · obtain ⟨b, hb', hlies, hlevel, -⟩ := (hr tile source).1 rfl
      have := hcoarser b (hb.isLeaf_of_tile hb').1 hlies
      omega
  rw [heq, hnone, Option.elim_none]
  rcases hasFiner with _ | _
  · rfl
  · rcases hleaf : mesh.leafContaining (mesh.centre n c) with _ | b
    · rfl
    · obtain ⟨hbleaf, hlies⟩ := (leafContaining_eq_some_iff ht hb).1 hleaf
      rw [if_pos rfl, Option.elim_some, if_pos (hcoarser b hbleaf hlies).le]

/-- Phase one is refused for no halo cell, and what it writes has what the internal cells have, if
means keep it. -/
theorem exists_phaseOneAt (ht : mesh.tree.Valid) (hb : mesh.Built) {P : Array ℚ → Prop}
    (hP : mesh.KeptByMeans P) (hn : mesh.tree.isLeaf n = true) (hc : mesh.layout.IsHaloCell c) :
    ∃ r, mesh.phaseOneAt n c = .ok r ∧ ∀ w, r = some w → P w.values := by
  obtain ⟨r, hasFiner, hr, -, heq⟩ := exists_phaseOneAt_eq ht hb hn hc
  rw [heq]
  rcases r with _ | ⟨tile, source⟩
  · rw [Option.elim_none]
    rcases hasFiner with _ | _
    · exact ⟨none, rfl, fun _ hw => by contradiction⟩
    · rcases mesh.leafContaining (mesh.centre n c) with _ | b
      · exact ⟨none, rfl, fun _ hw => by contradiction⟩
      · rw [if_pos rfl, Option.elim_some]
        split
        · exact ⟨none, rfl, fun _ hw => by contradiction⟩
        · obtain ⟨values, hvalues, hkept⟩ := exists_restrictWithin
            (n := mostHalvings ℚ) (l := mesh.tree.level n) ht hb hP
            (fun b _ => le_add_left ((LawfulLocation.level_le _).trans maxLevel_le_mostHalvings))
            (mesh.config.cellIndex (mesh.tree.location n) c)
          have hrestrict : mesh.restrict (mesh.centre n c)
              (mesh.config.spacing (mesh.tree.level n)) = .ok values := hvalues
          rw [hrestrict]
          refine ⟨_, rfl, fun w hw => ?_⟩
          obtain ⟨vs, hvs, rfl⟩ := Option.map_eq_some_iff.1 hw
          exact hkept vs hvs
  · obtain ⟨b, htile, -, -, rfl⟩ := (hr _ _).1 rfl
    have hinside := hb.inside_internalCellAt (mesh.tree.level b) (mesh.centre n c)
    obtain ⟨values, hvalues, -⟩ := (hb.isLeaf_of_tile htile).2.exists_get hinside.contains
    simp only [Option.elim_some, hvalues]
    exact ⟨_, rfl, fun w hw => Option.some.inj hw ▸ hP.cell htile hinside hvalues⟩

/-! ## Phase two -/

/-- A halo cell has a source of projection if a coarser leaf lies over its centre. -/
theorem exists_projectionSource (ht : mesh.tree.Valid) (hb : mesh.Built)
    (hn : mesh.tree.isLeaf n = true) (hc : mesh.layout.IsHaloCell c) :
    ∃ r, mesh.projectionSource n c = .ok r ∧ ∀ tile source, r = some (tile, source) ↔
      ∃ b, mesh.tile? b = some tile ∧
        mesh.config.LiesIn (mesh.centre n c) (mesh.tree.location b) ∧
          mesh.tree.level b < mesh.tree.level n ∧
            source = mesh.config.internalCellAt (mesh.tree.level b) (mesh.centre n c) := by
  obtain ⟨tile, htile, hof⟩ := hb.exists_tile hn
  obtain ⟨tiles, absent, hns, -⟩ := mesh.exists_neighborTiles ht hn
  obtain ⟨r, hr, hiff⟩ := exists_firstSource_filter ht hb hn hc hns
    (q := fun m => decide (m < mesh.tree.level n)) fun m hm => (of_decide_eq_true hm).le
  have hcentroid : tile.cellCentroid c = .ok (mesh.centre n c) := hof.cellCentroid_eq hb hc.1
  refine ⟨r, ?_, ?_⟩
  · unfold projectionSource
    simp only [htile, hns, ok_bind, hcentroid, hof.level, hr]
  · simpa only [decide_eq_true_eq] using hiff

/-- Over a coarser leaf the cell is projected from that leaf. -/
theorem exists_phaseTwoAt_projected (ht : mesh.tree.Valid) (hb : mesh.Built) (limiter : Limiter)
    (hn : mesh.tree.isLeaf n = true) (hc : mesh.layout.IsHaloCell c)
    (hbleaf : mesh.tree.isLeaf b = true) (hlevel : mesh.tree.level b < mesh.tree.level n)
    (hlies : mesh.config.LiesIn (mesh.centre n c) (mesh.tree.location b)) :
    ∃ tile values, mesh.tile? b = some tile ∧
      project tile (mesh.config.internalCellAt (mesh.tree.level b) (mesh.centre n c))
        (mesh.centre n c) limiter = .ok values ∧
          mesh.phaseTwoAt limiter n c =
            .ok (some ⟨mesh.layout.offset c, values, .projected⟩) := by
  obtain ⟨tile, htile, hof⟩ := hb.exists_tile hn
  obtain ⟨coarse, hcoarse, hof'⟩ := hb.exists_tile hbleaf
  obtain ⟨r, hr, hiff⟩ := exists_projectionSource ht hb hn hc
  obtain ⟨values, hvalues, -⟩ := hof'.exists_project
    (hb.inside_internalCellAt (mesh.tree.level b) (mesh.centre n c)) (mesh.centre n c) limiter
  refine ⟨coarse, values, hcoarse, hvalues, ?_⟩
  rw [phaseTwoAt_eq ht hn htile hof hc.1 (hof.cellCentroid_eq hb hc.1) hr,
    (hiff _ _).2 ⟨b, hcoarse, hlies, hlevel, rfl⟩]
  change _ <$> project _ _ (mesh.centre n c) limiter = _
  rw [hvalues]
  rfl

/-- Without a coarser leaf over it, phase two leaves the cell alone. -/
theorem phaseTwoAt_eq_none (ht : mesh.tree.Valid) (hb : mesh.Built) (limiter : Limiter)
    (hn : mesh.tree.isLeaf n = true) (hc : mesh.layout.IsHaloCell c)
    (hfiner : ∀ b, mesh.tree.isLeaf b = true →
      mesh.config.LiesIn (mesh.centre n c) (mesh.tree.location b) →
        mesh.tree.level n ≤ mesh.tree.level b) : mesh.phaseTwoAt limiter n c = .ok none := by
  obtain ⟨tile, htile, hof⟩ := hb.exists_tile hn
  obtain ⟨r, hr, hiff⟩ := exists_projectionSource ht hb hn hc
  rw [phaseTwoAt_eq ht hn htile hof hc.1 (hof.cellCentroid_eq hb hc.1) hr]
  rcases r with _ | ⟨coarse, source⟩
  · rfl
  · obtain ⟨b, hb', hlies, hlevel, -⟩ := (hiff coarse source).1 rfl
    have := hfiner b (hb.isLeaf_of_tile hb').1 hlies
    omega

/-- Phase two is refused for no halo cell. -/
theorem exists_phaseTwoAt (ht : mesh.tree.Valid) (hb : mesh.Built) (limiter : Limiter)
    (hn : mesh.tree.isLeaf n = true) (hc : mesh.layout.IsHaloCell c) :
    ∃ r, mesh.phaseTwoAt limiter n c = .ok r ∧
      ∀ w, r = some w → w.values.size = mesh.config.variableCount := by
  obtain ⟨tile, htile, hof⟩ := hb.exists_tile hn
  obtain ⟨r, hr, hiff⟩ := exists_projectionSource ht hb hn hc
  rw [phaseTwoAt_eq ht hn htile hof hc.1 (hof.cellCentroid_eq hb hc.1) hr]
  rcases r with _ | ⟨coarse, source⟩
  · exact ⟨none, rfl, fun _ hw => by contradiction⟩
  · obtain ⟨b, hb', -, -, rfl⟩ := (hiff _ _).1 rfl
    obtain ⟨values, hvalues, hsize⟩ := (hb.isLeaf_of_tile hb').2.exists_project
      (hb.inside_internalCellAt (mesh.tree.level b) (mesh.centre n c)) (mesh.centre n c) limiter
    rw [Option.elim_some]
    change ∃ r, _ <$> project _ _ (mesh.centre n c) limiter = _ ∧ _
    rw [hvalues]
    exact ⟨_, rfl, fun w hw => Option.some.inj hw ▸ hsize⟩

end Mesh

end AdaptiveMesh
