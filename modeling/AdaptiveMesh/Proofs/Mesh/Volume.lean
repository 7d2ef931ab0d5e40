import AdaptiveMesh.Proofs.Mesh.Sources

/-!
# Averages by volume

In exact arithmetic the boxes of cells and leaves are put together from cells of a grid. What
restriction finds for a cell is the average over the leaf cells in it, each weighed with its share
of the volume.
-/

namespace AdaptiveMesh

open LocationCode

variable {D : Nat} {L : Type} [LocationCode D L] [Dimension D]

/-! ## Boxes of cells -/

/-- The point lies in a cell of the tile. -/
def Tile.CellLiesOver (tile : Tile D ℚ) (c : Cell D) (p : Point ℚ) : Prop :=
  ∃ x, tile.cellCentroid c = .ok x ∧ (⟨x, tile.cellLength⟩ : Box D ℚ).LiesOver p

/-- What a cell of a tile holds, if the tile has the cell. -/
def Tile.held (tile : Tile D ℚ) (c : Cell D) : Array ℚ := (tile.get c).toOption.getD #[]

omit [Dimension D] in
theorem Tile.held_of_get {tile : Tile D ℚ} {c : Cell D} {values : Array ℚ}
    (h : tile.get c = .ok values) : tile.held c = values := by
  unfold held
  rw [h]
  rfl

namespace MeshConfig

variable {config : MeshConfig ℚ} {l m : Nat} {g e : Fin D → ℤ} {p q : Point ℚ}

theorem liesOver_iff_inBox (hs : 0 < config.spacing l) :
    (⟨config.gridPoint l g, config.spacing l⟩ : Box D ℚ).LiesOver p ↔ config.InBox l g p := by
  refine forall_congr' fun d => ?_
  have hcentre : (config.gridPoint l g).along d =
      config.origin.along d + (g d + 1 / 2) * config.spacing l := Point.along_mapAxes _ _ _
  rw [Box.along_upper, Box.along_lower, hcentre, gridIndex, Int.floor_eq_iff, le_div_iff₀ hs,
    div_lt_iff₀ hs]
  constructor
  · rintro ⟨hlow, hup⟩
    constructor <;> linarith
  · rintro ⟨hlow, hup⟩
    constructor <;> linarith

/-- The box of a node lies over the points whose cells the node covers. -/
theorem liesOver_iff_liesIn [LawfulLocation L] (h : config.validate = .ok ()) {x : L}
    {box : Box D ℚ} (hbox : config.nodeBox x = .ok box) :
    box.LiesOver p ↔ config.LiesIn p x := by
  obtain ⟨box', hbox', hlength, hlower⟩ := exists_nodeBox h x
  obtain rfl := Except.ok.inj (hbox'.symm.trans hbox)
  have hpos : 0 < config.internalCells := Nat.pos_of_ne_zero (of_validate h).1.1
  have hs := spacing_pos (rootLength_pos h) hpos (level x)
  have hn : (0 : ℤ) < config.internalCells := Int.natCast_pos.2 hpos
  refine forall_congr' fun d => ?_
  rw [Box.along_upper, hlength, hlower, Point.along_mapAxes, gridIndex,
    Int.ediv_eq_iff_of_pos hn, Int.le_floor, Int.floor_lt, le_div_iff₀ hs, div_lt_iff₀ hs]
  push_cast
  constructor
  · rintro ⟨hlow, hup⟩
    constructor <;> linarith
  · rintro ⟨hlow, hup⟩
    constructor <;> linarith

omit [LocationCode D L] in
/-- Two points of a cell lie in the same cells of no finer levels. -/
theorem InBox.inBox_iff (hp : config.InBox m e p) (hq : config.InBox m e q) (hl : l ≤ m) :
    config.InBox l g p ↔ config.InBox l g q := by
  obtain ⟨k, rfl⟩ := Nat.exists_eq_add_of_le hl
  refine forall_congr' fun d => ?_
  rw [config.gridIndex_of_add l k, config.gridIndex_of_add l k, hp d, hq d]

/-- A cell of a coarser level is in no cell. -/
theorem level_le_of_forall_inBox (hs : ∀ k, 0 < config.spacing k)
    (h : ∀ p, config.InBox m e p → config.InBox l g p) : l ≤ m := by
  by_contra hlt
  obtain ⟨k, rfl⟩ : ∃ k, l = m + (k + 1) := ⟨l - m - 1, by omega⟩
  have hpow : (2 : ℤ) ≤ 2 ^ (k + 1) := by
    rw [pow_succ']
    exact le_mul_of_one_le_right (by decide) (one_le_pow₀ (by decide))
  -- two points of the cell with different numbers on the finer grid
  have hin (i : ℤ) (hi : 0 ≤ i ∧ i < 2) (d : Fin D) : e d * 2 ^ (k + 1) + i = g d := by
    have hbox : config.InBox m e
        (config.gridPoint (m + (k + 1)) fun d => e d * 2 ^ (k + 1) + i) := by
      intro d
      rw [config.gridIndex_of_add m (k + 1), gridIndex_gridPoint (hs _),
        Int.add_comm, Int.add_mul_ediv_right _ _ (by omega), Int.ediv_eq_zero_of_lt hi.1 (by omega),
        zero_add]
    rw [← h _ hbox d, gridIndex_gridPoint (hs _)]
  have hzero := hin 0 (by decide) ⟨0, Dimension.pos⟩
  have hone := hin 1 (by decide) ⟨0, Dimension.pos⟩
  omega

/-- A cell is in another one if its level is no coarser and its centre lies in the other. -/
theorem forall_inBox_iff (hs : ∀ k, 0 < config.spacing k) :
    (∀ p, config.InBox m e p → config.InBox l g p) ↔
      l ≤ m ∧ config.InBox l g (config.gridPoint m e) := by
  have hcentre : config.InBox m e (config.gridPoint m e) := gridIndex_gridPoint (hs m) e
  constructor
  · exact fun h => ⟨level_le_of_forall_inBox hs h, h _ hcentre⟩
  · exact fun ⟨hl, h⟩ p hp => (hp.inBox_iff hcentre hl).2 h

omit [Dimension D] in
theorem partIndex_injective (g : Fin D → ℤ) : Function.Injective (partIndex g) := by
  intro part part' h
  refine ChildPosition.ext_isPositive fun d => ?_
  have hd := congrFun h d
  unfold partIndex at hd
  cases hpart : part.isPositive d <;> cases hpart' : part'.isPositive d <;> simp_all

end MeshConfig

namespace Mesh

variable {mesh : Mesh D L ℚ} {n : mesh.tree.Node} {tile : Tile D ℚ} {c : Cell D} {p : Point ℚ}
  {l : Nat} {g : Fin D → ℤ} {values : Array ℚ}

variable [LawfulLocation L]

namespace IsTileOf

omit [LawfulLocation L] in
theorem get_eq_held (hof : mesh.IsTileOf n tile) (hc : mesh.layout.Contains c) :
    tile.get c = .ok (tile.held c) := by
  obtain ⟨values, hvalues, -⟩ := hof.exists_get hc
  rw [Tile.held_of_get hvalues, hvalues]

theorem cellLiesOver_iff (hb : mesh.Built) (hof : mesh.IsTileOf n tile)
    (hc : mesh.layout.Contains c) : tile.CellLiesOver c p ↔ mesh.config.InBox (mesh.tree.level n)
      (mesh.config.cellIndex (mesh.tree.location n) c) p := by
  rw [← MeshConfig.liesOver_iff_inBox (hb.spacing_pos _), ← hof.cellLength_eq hb]
  unfold Tile.CellLiesOver
  simp only [hof.cellCentroid_eq hb hc, Except.ok.injEq, exists_eq_left']

theorem liesOver_iff (hb : mesh.Built) (hof : mesh.IsTileOf n tile) :
    tile.box.LiesOver p ↔ mesh.config.LiesIn p (mesh.tree.location n) :=
  MeshConfig.liesOver_iff_liesIn hb.validate_eq hof.box

end IsTileOf

/-! ## Leaf cells in a cell -/

/-- The cell is an internal one of a leaf's tile and is in a cell of the grid of a level. -/
def LeafCellIn (mesh : Mesh D L ℚ) (l : Nat) (g : Fin D → ℤ) (q : Tile D ℚ × Cell D) : Prop :=
  (∃ b, mesh.tile? b = some q.1) ∧ mesh.layout.Inside q.2 ∧
    ∀ p, q.1.CellLiesOver q.2 p → mesh.config.InBox l g p

theorem leafCellIn_iff (hb : mesh.Built) (htile : mesh.tile? n = some tile)
    (hc : mesh.layout.Inside c) : mesh.LeafCellIn l g (tile, c) ↔
      l ≤ mesh.tree.level n ∧ mesh.config.InBox l g (mesh.centre n c) := by
  have hof := (hb.isLeaf_of_tile htile).2
  unfold LeafCellIn
  simp only [hof.cellLiesOver_iff hb hc.contains, MeshConfig.forall_inBox_iff hb.spacing_pos]
  exact ⟨fun h => h.2.2, fun h => ⟨⟨n, htile⟩, hc, h⟩⟩

omit [LawfulLocation L] in
/-- The points in an internal cell are those of the node's box that have it for their cell. -/
theorem inBox_cellIndex_iff (hb : mesh.Built) (hc : mesh.layout.Inside c) :
    mesh.config.InBox (mesh.tree.level n) (mesh.config.cellIndex (mesh.tree.location n) c) p ↔
      mesh.config.LiesIn p (mesh.tree.location n) ∧
        mesh.config.internalCellAt (mesh.tree.level n) p = c := by
  have hin (d : Fin D) : mesh.config.haloLayers ≤ c.get d ∧
      c.get d < mesh.config.haloLayers + mesh.config.internalCells := by
    rw [← hb.layout_eq.1, ← hb.layout_eq.2]
    exact hc d
  rw [Tree.level, ← MeshConfig.forall_gridIndex_eq_iff hb.internalCells_pos]
  exact (and_iff_right hin).symm

/-- At most one leaf cell lies over a point. -/
theorem eq_of_inBox (ht : mesh.tree.Valid) (hb : mesh.Built) {n' : mesh.tree.Node}
    {tile' : Tile D ℚ} {c' : Cell D} (htile : mesh.tile? n = some tile)
    (htile' : mesh.tile? n' = some tile') (hc : mesh.layout.Inside c) (hc' : mesh.layout.Inside c')
    (hp : mesh.config.InBox (mesh.tree.level n) (mesh.config.cellIndex (mesh.tree.location n) c) p)
    (hp' : mesh.config.InBox (mesh.tree.level n')
      (mesh.config.cellIndex (mesh.tree.location n') c') p) : (tile, c) = (tile', c') := by
  obtain ⟨hlies, hcell⟩ := (inBox_cellIndex_iff hb hc).1 hp
  obtain ⟨hlies', hcell'⟩ := (inBox_cellIndex_iff hb hc').1 hp'
  obtain rfl :=
    eq_of_liesIn ht (hb.isLeaf_of_tile htile).1 (hb.isLeaf_of_tile htile').1 hlies hlies'
  exact Prod.ext (Option.some.inj (htile.symm.trans htile')) (hcell.symm.trans hcell')

/-- The only leaf cell in a leaf cell is that cell. -/
theorem leafCellIn_cell_iff (ht : mesh.tree.Valid) (hb : mesh.Built)
    (htile : mesh.tile? n = some tile) (hc : mesh.layout.Inside c) {q : Tile D ℚ × Cell D} :
    mesh.LeafCellIn (mesh.tree.level n) (mesh.config.cellIndex (mesh.tree.location n) c) q ↔
      q = (tile, c) := by
  constructor
  · rintro ⟨⟨b, hb'⟩, hq, hbox⟩
    have hof := (hb.isLeaf_of_tile hb').2
    have hcentre := hb.inBox_gridPoint (mesh.tree.level b)
      (mesh.config.cellIndex (mesh.tree.location b) q.2)
    exact eq_of_inBox ht hb hb' htile hq hc hcentre
      (hbox _ ((hof.cellLiesOver_iff hb hq.contains).2 hcentre))
  · rintro rfl
    exact (leafCellIn_iff hb htile hc).2 ⟨le_rfl, hb.inBox_gridPoint _ _⟩

/-- A cell with a leaf cell in one of its parts has no leaf cells but those in its parts. -/
theorem leafCellIn_iff_exists_part (ht : mesh.tree.Valid) (hb : mesh.Built)
    {first : ChildPosition D} {q₀ : Tile D ℚ × Cell D}
    (h₀ : mesh.LeafCellIn (l + 1) (MeshConfig.partIndex g first) q₀) {q : Tile D ℚ × Cell D} :
    mesh.LeafCellIn l g q ↔ ∃ part, mesh.LeafCellIn (l + 1) (MeshConfig.partIndex g part) q := by
  have hparts {part : ChildPosition D} {q : Tile D ℚ × Cell D}
      (h : mesh.LeafCellIn (l + 1) (MeshConfig.partIndex g part) q) : mesh.LeafCellIn l g q :=
    ⟨h.1, h.2.1, fun p hp => MeshConfig.inBox_iff_exists_part.2 ⟨part, h.2.2 p hp⟩⟩
  refine ⟨fun h => ?_, fun ⟨part, h⟩ => hparts h⟩
  obtain ⟨tile, c⟩ := q
  obtain ⟨⟨b, hb'⟩, hc, -⟩ := id h
  obtain ⟨hle, hcentre⟩ := (leafCellIn_iff hb hb' hc).1 h
  rcases hle.eq_or_lt with rfl | hlt
  · -- a leaf cell as large as the cell would be the leaf cell in the part
    obtain rfl : mesh.config.cellIndex (mesh.tree.location b) c = g :=
      funext fun d => (hb.gridIndex_centre b c d).symm.trans (hcentre d)
    obtain rfl := (leafCellIn_cell_iff ht hb hb' hc).1 (hparts h₀)
    have := ((leafCellIn_iff hb hb' hc).1 h₀).1
    omega
  · obtain ⟨part, hpart⟩ := MeshConfig.inBox_iff_exists_part.1 hcentre
    exact ⟨part, (leafCellIn_iff hb hb' hc).2 ⟨hlt, hpart⟩⟩

/-- No leaf cell is in two parts of a cell. -/
theorem LeafCellIn.part_eq (hb : mesh.Built) {part part' : ChildPosition D}
    {q : Tile D ℚ × Cell D} (h : mesh.LeafCellIn (l + 1) (MeshConfig.partIndex g part) q)
    (h' : mesh.LeafCellIn (l + 1) (MeshConfig.partIndex g part') q) : part = part' := by
  obtain ⟨tile, c⟩ := q
  obtain ⟨⟨b, hb'⟩, hc, -⟩ := id h
  have hcentre := ((leafCellIn_iff hb hb' hc).1 h).2
  have hcentre' := ((leafCellIn_iff hb hb' hc).1 h').2
  exact MeshConfig.partIndex_injective g (funext fun d => (hcentre d).symm.trans (hcentre' d))

/-! ## Weighed means -/

/-- The share that a cell of a tile has in the volume of a cell of the grid of a level. -/
def share (mesh : Mesh D L ℚ) (l : Nat) (q : Tile D ℚ × Cell D) : ℚ :=
  (q.1.cellLength / mesh.config.spacing l) ^ D

omit [LocationCode D L] [LawfulLocation L] [Dimension D] in
theorem share_succ (mesh : Mesh D L ℚ) (l : Nat) (q : Tile D ℚ × Cell D) :
    mesh.share l q = mesh.share (l + 1) q / 2 ^ D := by
  unfold share
  rw [mesh.config.spacing_succ, ← div_pow]
  congr 1
  field_simp

/-- The cells are the leaf cells in a cell of the grid of a level and fill it, and the values are
their average. -/
structure AveragesTo (mesh : Mesh D L ℚ) (l : Nat) (g : Fin D → ℤ)
    (cells : Finset (Tile D ℚ × Cell D)) (values : Array ℚ) : Prop where
  mem_iff : ∀ q, q ∈ cells ↔ mesh.LeafCellIn l g q
  sum_share : ∑ q ∈ cells, mesh.share l q = 1
  eq_ofFn : values = Array.ofFn fun v : Fin mesh.config.variableCount =>
    ∑ q ∈ cells, mesh.share l q * (q.1.held q.2).getD v 0

theorem averagesTo_cell (ht : mesh.tree.Valid) (hb : mesh.Built) (htile : mesh.tile? n = some tile)
    (hc : mesh.layout.Inside c) (hvalues : tile.get c = .ok values) :
    mesh.AveragesTo (mesh.tree.level n) (mesh.config.cellIndex (mesh.tree.location n) c)
      {(tile, c)} values := by
  have hof := (hb.isLeaf_of_tile htile).2
  have hshare : mesh.share (mesh.tree.level n) (tile, c) = 1 := by
    unfold share
    rw [hof.cellLength_eq hb, div_self (hb.spacing_pos _).ne', one_pow]
  have hsize : values.size = mesh.config.variableCount := by
    obtain ⟨held, hheld, hsize⟩ := hof.exists_get hc.contains
    rwa [Except.ok.inj (hvalues.symm.trans hheld)]
  refine ⟨fun q => ?_, ?_, ?_⟩
  · rw [Finset.mem_singleton, leafCellIn_cell_iff ht hb htile hc]
  · rw [Finset.sum_singleton, hshare]
  · have hheld := Tile.held_of_get hvalues
    refine Array.ext (by simpa using hsize) fun v h₁ h₂ => ?_
    simp [hshare, hheld, Array.getD, h₁]

theorem averagesTo_parts [DecidableEq (Tile D ℚ × Cell D)] (ht : mesh.tree.Valid) (hb : mesh.Built)
    {cells : ChildPosition D → Finset (Tile D ℚ × Cell D)} {parts : ChildPosition D → Array ℚ}
    (h : ∀ part, mesh.AveragesTo (l + 1) (MeshConfig.partIndex g part) (cells part) (parts part)) :
    mesh.AveragesTo l g (Finset.univ.biUnion cells)
      (Array.ofFn fun v : Fin mesh.config.variableCount =>
        (∑ part, (parts part).getD v 0) / 2 ^ D) := by
  have hsum (f : Tile D ℚ × Cell D → ℚ) : ∑ q ∈ Finset.univ.biUnion cells, mesh.share l q * f q =
      (∑ part, ∑ q ∈ cells part, mesh.share (l + 1) q * f q) / 2 ^ D := by
    rw [Finset.sum_biUnion, Finset.sum_div]
    · simp only [Finset.sum_div, mesh.share_succ l, div_mul_eq_mul_div]
    · intro part _ part' _ hne
      refine Finset.disjoint_left.2 fun q hq hq' => hne ?_
      exact (((h part).mem_iff q).1 hq).part_eq hb (((h part').mem_iff q).1 hq')
  refine ⟨fun q => ?_, ?_, ?_⟩
  · have hfirst := (h ⟨0, by positivity⟩).sum_share
    obtain ⟨q₀, hq₀⟩ := Finset.nonempty_of_sum_ne_zero (hfirst.trans_ne one_ne_zero)
    rw [leafCellIn_iff_exists_part ht hb (((h _).mem_iff q₀).1 hq₀), Finset.mem_biUnion]
    simp only [Finset.mem_univ, true_and, (h _).mem_iff]
  · have hone := hsum fun _ => 1
    simp only [mul_one, (h _).sum_share] at hone
    rw [hone]
    simp
  · refine congrArg Array.ofFn (funext fun v => ?_)
    rw [hsum]
    refine congrArg (· / 2 ^ D) (Finset.sum_congr rfl fun part _ => ?_)
    rw [(h part).eq_ofFn]
    simp [Array.getD]

/-- A mean over the leaf cells in a cell weighs each with its share of the volume. -/
theorem IsMean.exists_averagesTo (ht : mesh.tree.Valid) (hb : mesh.Built)
    (h : mesh.IsMean l g values) : ∃ cells, mesh.AveragesTo l g cells values := by
  classical
  induction h with
  | cell htile hc hvalues => exact ⟨_, averagesTo_cell ht hb htile hc hvalues⟩
  | parts _ ih =>
    choose cells hcells using ih
    exact ⟨_, averagesTo_parts ht hb hcells⟩

/-- The values are the average over the leaf cells in a cell of a tile, each weighed with its share
of the volume. The leaf cells fill the cell. -/
def IsVolumeMean (mesh : Mesh D L ℚ) (tile : Tile D ℚ) (c : Cell D) (values : Array ℚ) : Prop :=
  ∃ (cells : Finset (Tile D ℚ × Cell D)) (held : Tile D ℚ × Cell D → Array ℚ),
    (∀ q, q ∈ cells ↔ (∃ b, mesh.tile? b = some q.1) ∧ mesh.layout.Inside q.2 ∧
      ∀ p, q.1.CellLiesOver q.2 p → tile.CellLiesOver c p) ∧
    (∀ q ∈ cells, q.1.get q.2 = .ok (held q)) ∧
    ∑ q ∈ cells, (q.1.cellLength / tile.cellLength) ^ D = 1 ∧
    values = Array.ofFn fun v : Fin mesh.config.variableCount =>
      ∑ q ∈ cells, (q.1.cellLength / tile.cellLength) ^ D * (held q).getD v 0

theorem IsTileOf.isVolumeMean (ht : mesh.tree.Valid) (hb : mesh.Built) (hof : mesh.IsTileOf n tile)
    (hc : mesh.layout.Contains c) (h : mesh.IsMean (mesh.tree.level n)
      (mesh.config.cellIndex (mesh.tree.location n) c) values) :
    mesh.IsVolumeMean tile c values := by
  obtain ⟨cells, hmem, hshare, hvalues⟩ := h.exists_averagesTo ht hb
  unfold IsVolumeMean
  simp only [hof.cellLength_eq hb, hof.cellLiesOver_iff hb hc]
  refine ⟨cells, fun q => q.1.held q.2, hmem, fun q hq => ?_, hshare, hvalues⟩
  obtain ⟨⟨b, hb'⟩, hq, -⟩ := (hmem q).1 hq
  exact (hb.isLeaf_of_tile hb').2.get_eq_held hq.contains

end Mesh

end AdaptiveMesh
