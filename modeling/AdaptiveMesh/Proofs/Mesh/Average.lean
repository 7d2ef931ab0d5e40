import AdaptiveMesh.Proofs.Mesh.Locate
import AdaptiveMesh.Proofs.Mesh.Reads
import AdaptiveMesh.Proofs.Tree.Grown

/-!
# Restriction of any cell of a grid

In exact arithmetic the restriction of a cell of any level's grid is the average, by volume, over
the leaf cells that meet it. Either a leaf cell contains the cell and is the only one, or the cell
contains them all.
-/

namespace AdaptiveMesh

open LocationCode

variable {D : Nat} {L : Type} [LocationCode D L] [Dimension D]

/-! ## Points alike along the axes -/

theorem Box.liesOver_congr {x y : Point ℚ} (h : ∀ d : Fin D, x.along d = y.along d) (length : ℚ)
    (p : Point ℚ) : (⟨x, length⟩ : Box D ℚ).LiesOver p ↔ (⟨y, length⟩ : Box D ℚ).LiesOver p := by
  unfold LiesOver
  simp only [along_upper, along_lower, h]

section Congr

variable {S : Type} [Scalar S] {x y : Point S}

theorem Tile.internalCellContaining_congr (tile : Tile D S)
    (h : ∀ d : Fin D, x.along d = y.along d) :
    tile.internalCellContaining x = tile.internalCellContaining y := by
  unfold internalCellContaining cellContaining
  simp only [h]

namespace Mesh

variable (mesh : Mesh D L S)

theorem leafContaining_congr (h : ∀ d : Fin D, x.along d = y.along d) :
    mesh.leafContaining x = mesh.leafContaining y := by
  unfold leafContaining
  simp only [h]

/-- Restriction looks at the components of a point along the axes alone. -/
theorem restrictWithin_congr (n : Nat) (h : ∀ d : Fin D, x.along d = y.along d) (length : S) :
    mesh.restrictWithin n x length = mesh.restrictWithin n y length := by
  induction n generalizing x y length with
  | zero =>
    unfold restrictWithin
    simp only [mesh.leafContaining_congr h, Tile.internalCellContaining_congr _ h]
  | succ n ih =>
    have hpart (part : ChildPosition D) (quarter : S) := ih
      (x := x.mapAxes D fun d p => if part.isPositive d then p + quarter else p - quarter)
      (y := y.mapAxes D fun d p => if part.isPositive d then p + quarter else p - quarter)
      (fun d => by simp only [Point.along_mapAxes, h])
    unfold restrictWithin
    simp only [mesh.leafContaining_congr h, Tile.internalCellContaining_congr _ h, hpart]

end Mesh

end Congr

namespace MeshConfig

variable {config : MeshConfig ℚ} {l : Nat}

theorem along_eq_gridPoint {g : Fin D → ℤ} {x : Point ℚ}
    (hx : ∀ d, x.along d = config.origin.along d + (g d + 1 / 2) * config.spacing l) (d : Fin D) :
    x.along d = (config.gridPoint l g).along d := by
  rw [hx, gridPoint, Point.along_mapAxes]

/-- A cell of a grid, around any point with the components of its centre along the axes. -/
theorem liesOver_iff_inBox_of_along (hs : 0 < config.spacing l) {g : Fin D → ℤ} {x p : Point ℚ}
    (hx : ∀ d, x.along d = config.origin.along d + (g d + 1 / 2) * config.spacing l) :
    (⟨x, config.spacing l⟩ : Box D ℚ).LiesOver p ↔ config.InBox l g p := by
  rw [Box.liesOver_congr (along_eq_gridPoint hx), liesOver_iff_inBox hs]

theorem cellLength_eq_ok (hl : l < Word.width) : config.cellLength l = .ok (config.spacing l) := by
  unfold cellLength
  rw [nodeLength_eq_ok hl]
  refine congrArg Except.ok ?_
  exact div_div _ _ _

end MeshConfig

namespace Mesh

/-! ## Leaf cells that meet a box -/

/-- An internal cell of a leaf's tile has a point in common with a box. -/
def LeafCellMeets (mesh : Mesh D L ℚ) (box : Box D ℚ) (q : Tile D ℚ × Cell D) : Prop :=
  (∃ b, mesh.tile? b = some q.1) ∧ mesh.layout.Inside q.2 ∧
    ∃ p, q.1.CellLiesOver q.2 p ∧ box.LiesOver p

/-- The values are the average, by volume, over the leaf cells that meet a box. One of these
contains the box and is the only one, or the box contains them and they fill it. -/
def IsAverageOver (mesh : Mesh D L ℚ) (box : Box D ℚ) (values : Array ℚ) : Prop :=
  ∃ (cells : Finset (Tile D ℚ × Cell D)) (held : Tile D ℚ × Cell D → Array ℚ),
    (∀ q, q ∈ cells ↔ mesh.LeafCellMeets box q) ∧
    (∀ q ∈ cells, q.1.get q.2 = .ok (held q)) ∧
    ((∃ q, cells = {q} ∧ ∀ p, box.LiesOver p → q.1.CellLiesOver q.2 p) ∨
      (∀ q ∈ cells, ∀ p, q.1.CellLiesOver q.2 p → box.LiesOver p) ∧
        ∑ q ∈ cells, q.1.cellLength ^ D = box.length ^ D) ∧
    values = Array.ofFn fun v : Fin mesh.config.variableCount =>
      (∑ q ∈ cells, q.1.cellLength ^ D * (held q).getD v 0) / ∑ q ∈ cells, q.1.cellLength ^ D

variable [LawfulLocation L] {mesh : Mesh D L ℚ} {b : mesh.tree.Node} {l n : Nat} {g : Fin D → ℤ}
  {box : Box D ℚ}

section Grid

variable (hbox : ∀ p, box.LiesOver p ↔ mesh.config.InBox l g p)

include hbox

/-- Around a cell of a grid that lies in a leaf cell there is no other leaf cell. -/
theorem leafCellMeets_iff_of_level_le (ht : mesh.tree.Valid) (hb : mesh.Built) {tile : Tile D ℚ}
    {c : Cell D} (htile : mesh.tile? b = some tile) (hc : mesh.layout.Inside c)
    (hin : ∀ p, mesh.config.InBox l g p → mesh.config.InBox (mesh.tree.level b)
      (mesh.config.cellIndex (mesh.tree.location b) c) p) {q : Tile D ℚ × Cell D} :
    mesh.LeafCellMeets box q ↔ q = (tile, c) := by
  constructor
  · rintro ⟨⟨e, he⟩, hq, p, hpq, hp⟩
    rw [(hb.isLeaf_of_tile he).2.cellLiesOver_iff hb hq.contains] at hpq
    exact eq_of_inBox ht hb he htile hq hc hpq (hin p ((hbox p).1 hp))
  · rintro rfl
    have hcentre := hb.inBox_gridPoint l g
    refine ⟨⟨b, htile⟩, hc, mesh.config.gridPoint l g, ?_, (hbox _).2 hcentre⟩
    exact ((hb.isLeaf_of_tile htile).2.cellLiesOver_iff hb hc.contains).2 (hin _ hcentre)

/-- Where no coarser leaf lies over the centre of a cell of a grid, the leaf cells that meet the cell
are those in it. -/
theorem leafCellMeets_iff_leafCellIn (hb : mesh.Built)
    (hfine : ∀ b, mesh.tree.isLeaf b = true →
      mesh.config.LiesIn (mesh.config.gridPoint l g) (mesh.tree.location b) →
        l ≤ mesh.tree.level b) {q : Tile D ℚ × Cell D} :
    mesh.LeafCellMeets box q ↔ mesh.LeafCellIn l g q := by
  obtain ⟨tile, c⟩ := q
  constructor
  · rintro ⟨⟨b, htile⟩, hc, p, hpc, hp⟩
    obtain ⟨hleaf, hof⟩ := hb.isLeaf_of_tile htile
    rw [hof.cellLiesOver_iff hb hc.contains] at hpc
    rw [hbox] at hp
    have hlevel : l ≤ mesh.tree.level b := by
      by_contra hlt
      have hlies := ((inBox_cellIndex_iff hb hc).1 hpc).1
      apply hlt
      apply hfine b hleaf
      exact (hp.liesIn_iff (hb.inBox_gridPoint l g) (not_le.1 hlt).le).1 hlies
    refine (leafCellIn_iff hb htile hc).2 ⟨hlevel, ?_⟩
    exact (hpc.inBox_iff (hb.inBox_gridPoint _ _) hlevel).1 hp
  · intro h
    obtain ⟨⟨b, htile⟩, hc, hin⟩ := h
    have hcentre := ((hb.isLeaf_of_tile htile).2.cellLiesOver_iff hb hc.contains).2
      (hb.inBox_gridPoint (mesh.tree.level b) (mesh.config.cellIndex (mesh.tree.location b) c))
    exact ⟨⟨b, htile⟩, hc, _, hcentre, (hbox _).2 (hin _ hcentre)⟩

/-- Where a leaf of the cell's level or a coarser one lies over the centre of a cell of a grid, the
average is what the leaf cell there holds. -/
theorem isAverageOver_of_level_le (ht : mesh.tree.Valid) (hb : mesh.Built) {tile : Tile D ℚ}
    (htile : mesh.tile? b = some tile)
    (hlies : mesh.config.LiesIn (mesh.config.gridPoint l g) (mesh.tree.location b))
    (hlevel : mesh.tree.level b ≤ l) : ∃ values,
      tile.get (mesh.config.internalCellAt (mesh.tree.level b) (mesh.config.gridPoint l g)) =
        .ok values ∧ mesh.IsAverageOver box values := by
  obtain ⟨-, hof⟩ := hb.isLeaf_of_tile htile
  generalize hc :
    (mesh.config.internalCellAt (mesh.tree.level b) (mesh.config.gridPoint l g) : Cell D) = c
  have hinside : mesh.layout.Inside c := hc ▸ hb.inside_internalCellAt _ _
  have hin := (MeshConfig.forall_inBox_iff hb.spacing_pos).2
    ⟨hlevel, (inBox_cellIndex_iff hb hinside).2 ⟨hlies, hc⟩⟩
  obtain ⟨values, hvalues, hsize⟩ := hof.exists_get hinside.contains
  have hpos : tile.cellLength ^ D ≠ 0 := by
    rw [hof.cellLength_eq hb]
    exact pow_ne_zero _ (hb.spacing_pos _).ne'
  refine ⟨values, hvalues, {(tile, c)}, fun _ => values, fun q => ?_, fun q hq => ?_, Or.inl ?_, ?_⟩
  · rw [Finset.mem_singleton, leafCellMeets_iff_of_level_le hbox ht hb htile hinside hin]
  · rwa [Finset.mem_singleton.1 hq]
  · refine ⟨(tile, c), rfl, fun p hp => ?_⟩
    exact (hof.cellLiesOver_iff hb hinside.contains).2 (hin p ((hbox p).1 hp))
  · refine Array.ext (by simpa using hsize) fun v h₁ h₂ => ?_
    simp [Array.getD, h₁, mul_div_cancel_left₀ _ hpos]

/-- Where no coarser leaf does, the mean of the leaf cells in the cell is their average. -/
theorem isAverageOver_of_isMean (ht : mesh.tree.Valid) (hb : mesh.Built)
    (hlength : box.length = mesh.config.spacing l) (hfine : ∀ b, mesh.tree.isLeaf b = true →
      mesh.config.LiesIn (mesh.config.gridPoint l g) (mesh.tree.location b) →
        l ≤ mesh.tree.level b) {values : Array ℚ} (h : mesh.IsMean l g values) :
    mesh.IsAverageOver box values := by
  obtain ⟨cells, hmem, hshare, hvalues⟩ := h.exists_averagesTo ht hb
  have hmeets (q : Tile D ℚ × Cell D) : q ∈ cells ↔ mesh.LeafCellMeets box q := by
    rw [hmem, leafCellMeets_iff_leafCellIn hbox hb hfine]
  have hpos : mesh.config.spacing l ^ D ≠ 0 := pow_ne_zero _ (hb.spacing_pos l).ne'
  have hvolume (q : Tile D ℚ × Cell D) :
      q.1.cellLength ^ D = mesh.share l q * mesh.config.spacing l ^ D := by
    rw [share, div_pow, div_mul_cancel₀ _ hpos]
  have hfill : ∑ q ∈ cells, q.1.cellLength ^ D = mesh.config.spacing l ^ D := by
    simp only [hvolume]
    rw [← Finset.sum_mul, hshare, one_mul]
  refine ⟨cells, fun q => q.1.held q.2, hmeets, fun q hq => ?_,
    Or.inr ⟨fun q hq p hp => ?_, ?_⟩, ?_⟩
  · obtain ⟨⟨b, htile⟩, hc, -⟩ := (hmem q).1 hq
    exact (hb.isLeaf_of_tile htile).2.get_eq_held hc.contains
  · exact (hbox p).2 (((hmem q).1 hq).2.2 p hp)
  · rw [hfill, hlength]
  · rw [hvalues, hfill]
    refine congrArg Array.ofFn (funext fun v => ?_)
    rw [eq_div_iff hpos, Finset.sum_mul]
    refine Finset.sum_congr rfl fun q _ => ?_
    rw [hvolume]
    ring

/-- Restriction of a cell of a grid finds something exactly if leaves cover the cell, and then the
average over the leaf cells that meet it. -/
theorem exists_restrictWithin_isAverageOver (ht : mesh.tree.Valid) (hb : mesh.Built)
    (hlength : box.length = mesh.config.spacing l) (hn : maxLevel L ≤ l + n) : ∃ r,
      mesh.restrictWithin n (mesh.config.gridPoint l g) (mesh.config.spacing l) = .ok r ∧
        (r.isSome = true ↔ mesh.IsCovered l g) ∧
          ∀ values, r = some values → mesh.IsAverageOver box values := by
  by_cases hfine : ∀ b, mesh.tree.isLeaf b = true →
      mesh.config.LiesIn (mesh.config.gridPoint l g) (mesh.tree.location b) → l ≤ mesh.tree.level b
  · obtain ⟨r, hr, hcovered, hmean⟩ := restrictsCell ht hb hn hfine
    exact ⟨r, hr, hcovered, fun values hv =>
      isAverageOver_of_isMean hbox ht hb hlength hfine (hmean values hv).2⟩
  · -- a coarser leaf over the centre lies over the whole cell
    simp only [not_forall, not_le] at hfine
    obtain ⟨b, hleaf, hlies, hlevel⟩ := hfine
    obtain ⟨tile, htile, hof⟩ := hb.exists_tile hleaf
    obtain ⟨values, hvalues, haverage⟩ :=
      isAverageOver_of_level_le hbox ht hb htile hlies hlevel.le
    refine ⟨some values, ?_, iff_of_true rfl fun p hp => ⟨b, hleaf, ?_⟩,
      fun _ hv => Option.some.inj hv ▸ haverage⟩
    · rw [restrictWithin_of_level_le hb hof htile
        ((leafContaining_eq_some_iff ht hb).2 ⟨hleaf, hlies⟩) hlies hlevel.le, hvalues]
      rfl
    · exact ((hb.inBox_gridPoint l g).liesIn_iff hp hlevel.le).1 hlies

end Grid

/-- Restriction of a cell of the grid of a level, wherever in space the cell lies, is not refused.
It finds something exactly if each point of the cell lies in the box of a leaf, and then the average
by volume over the leaf cells that meet the cell. It does not depend on any halo cell. -/
theorem restrict_isAverageOver (ht : mesh.tree.Valid) (hb : mesh.Built) (hl : l < Word.width)
    (g : Fin D → ℤ) : ∃ length, mesh.config.cellLength l = .ok length ∧
      ∀ x : Point ℚ,
        (∀ d, x.along d = mesh.config.origin.along d + (g d + 1 / 2) * length) →
      ∃ r, mesh.restrict x length = .ok r ∧
        (r.isSome = true ↔ ∀ p, (⟨x, length⟩ : Box D ℚ).LiesOver p → ∃ b,
          mesh.tree.isLeaf b = true ∧ mesh.config.NodeLiesOver (mesh.tree.location b) p) ∧
        (∀ values, r = some values → mesh.IsAverageOver ⟨x, length⟩ values) ∧
        ∀ tiles, mesh.SameInsides tiles → (mesh.withTiles tiles).restrict x length = .ok r := by
  refine ⟨_, MeshConfig.cellLength_eq_ok hl, fun x hx => ?_⟩
  have hbox (p : Point ℚ) := MeshConfig.liesOver_iff_inBox_of_along (hb.spacing_pos l) hx (p := p)
  obtain ⟨r, hr, hcovered, haverage⟩ := exists_restrictWithin_isAverageOver (l := l) (g := g)
    (n := mostHalvings ℚ) hbox ht hb rfl (le_add_left maxLevel_le_mostHalvings)
  have hrestrict : mesh.restrict x (mesh.config.spacing l) = .ok r := by
    unfold restrict
    rw [mesh.restrictWithin_congr _ (MeshConfig.along_eq_gridPoint hx), hr]
  refine ⟨r, hrestrict, ?_, haverage, fun tiles hinsides => ?_⟩
  · rw [hcovered]
    unfold IsCovered
    simp only [hbox, MeshConfig.nodeLiesOver_iff hb.validate_eq]
  · obtain ⟨f, hf, htiles⟩ := hb.exists_map_sameInside hinsides
    rw [← hrestrict]
    unfold restrict
    rw [restrictWithin_map hf htiles]

/-- With two internal cells along each axis, a cell of the root is as large as a node of the first
level. The one at the origin is averaged over leaf cells of the second and the third level. -/
theorem restrict_isAverageOver_steep : Tree.steep.Valid ∧ 0 < Word.width ∧
    ∃ mesh : Mesh 2 (GridLocation 2) ℚ, mesh.tree = Tree.steep ∧ mesh.Built ∧
      mesh.config.cellLength 0 = .ok (1 / 2) ∧
      ∃ values, mesh.restrict #v[1 / 4, 1 / 4, 0] (1 / 2) = .ok (some values) ∧
        mesh.IsAverageOver ⟨#v[1 / 4, 1 / 4, 0], 1 / 2⟩ values := by
  have hvalid : Tree.steep.Valid := Tree.grown_steep.valid
  have hwidth : 0 < Word.width := by decide
  have hconfig : ({ MeshConfig.unit with internalCells := 2 } : MeshConfig ℚ).validate = .ok () := by
    rfl
  obtain ⟨mesh, htree, hmesh, hb, -⟩ :=
    exists_make_built (D := 2) Tree.steep hconfig (by decide +kernel)
  have ht : mesh.tree.Valid := htree ▸ hvalid
  have hspacing : mesh.config.spacing 0 = 1 / 2 := by
    rw [hmesh]
    change (1 : ℚ) / (2 ^ 0 * (2 : Nat)) = 1 / 2
    norm_num
  obtain ⟨length, hlength, hrestrict⟩ := restrict_isAverageOver ht hb hwidth fun _ => 0
  have hlength' := hlength
  rw [MeshConfig.cellLength_eq_ok hwidth, hspacing] at hlength'
  obtain rfl := Except.ok.inj hlength'
  have hpoint (d : Fin 2) : Point.along (#v[1 / 4, 1 / 4, 0] : Point ℚ) d =
      mesh.config.origin.along d + (((0 : ℤ) : ℚ) + 1 / 2) * mesh.config.spacing 0 := by
    rw [hspacing, hmesh]
    revert d
    decide +kernel
  obtain ⟨r, hr, hcovered, haverage, -⟩ := hrestrict #v[1 / 4, 1 / 4, 0] (hspacing ▸ hpoint)
  obtain ⟨values, rfl⟩ := Option.isSome_iff_exists.1 <| hcovered.2 fun p hp => by
    rw [← hspacing, MeshConfig.liesOver_iff_inBox_of_along (hb.spacing_pos 0) hpoint] at hp
    obtain ⟨b, hleaf, hlies⟩ := exists_leaf_liesIn ht (htree ▸ Tree.grown_steep.complete)
      hb.internalCells_pos fun d : Fin 2 => by rw [hp d, Int.zero_ediv]
    exact ⟨b, hleaf, (MeshConfig.nodeLiesOver_iff hb.validate_eq).2 hlies⟩
  exact ⟨hvalid, hwidth, mesh, htree, hb, hlength, values, hr, haverage values rfl⟩

end Mesh

end AdaptiveMesh
