import AdaptiveMesh.Proofs.Mesh.Affine
import AdaptiveMesh.Proofs.Mesh.Balanced

/-!
# Exactness for affine fields

A copy, a mean over the parts of a cell and a projection with a limited slope are exact for functions
that are affine in the position. In a balanced tree each value that an exchange reads is one of an
internal cell, of a cell outside the root or of one that phase one has set, so an exchange is exact
as a whole.
-/

namespace AdaptiveMesh

open LocationCode

variable {D : Nat}

/-! ## Slopes -/

/-- Where both differences are the same, they are the slope. -/
theorem Limiter.slope_self (limiter : Limiter) (a : ℚ) : limiter.slope a a = a := by
  cases limiter with
  | unlimited =>
    change 1 / 2 * (a + a) = a
    ring
  | minmod =>
    change (if decide (0 < a * a) = true then
      if decide (0 < a) = true then if decide (a ≤ a) = true then a else a
        else if decide (a ≤ a) = true then a else a
      else 0) = a
    by_cases h : 0 < a * a
    · simp [h]
    · have : a = 0 := by
        by_contra hne
        exact h (mul_self_pos.2 hne)
      simp [this]

/-! ## Fields on a mesh -/

/-- The point lies in the box of the root or on its boundary. -/
def MeshConfig.InRoot (D : Nat) [Dimension D] (config : MeshConfig ℚ) (p : Point ℚ) : Prop :=
  ∀ d : Fin D, config.origin.along d ≤ p.along d ∧
    p.along d ≤ config.origin.along d + config.rootLength

/-- The values of the variables of a field at a point. -/
def fieldAt (k : Nat) (f : Nat → Point ℚ → ℚ) (p : Point ℚ) : Array ℚ :=
  Array.ofFn fun v : Fin k => f v p

theorem getD_fieldAt {k v : Nat} (hv : v < k) (f : Nat → Point ℚ → ℚ) (p : Point ℚ) :
    (fieldAt k f p).getD v 0 = f v p := by
  simp [fieldAt, Array.getD, hv]

theorem eq_fieldAt_iff {k : Nat} {f : Nat → Point ℚ → ℚ} {p : Point ℚ} {values : Array ℚ} :
    values = fieldAt k f p ↔ values.size = k ∧ ∀ v < k, values.getD v 0 = f v p := by
  constructor
  · rintro rfl
    exact ⟨Array.size_ofFn, fun v hv => getD_fieldAt hv f p⟩
  · rintro ⟨hsize, hvalues⟩
    refine Array.ext (by simpa [fieldAt] using hsize) fun v h₁ h₂ => ?_
    have := hvalues v (hsize ▸ h₁)
    simpa [fieldAt, Array.getD, h₁] using this

variable {L : Type} [LocationCode D L] [Dimension D]

namespace Mesh

variable {mesh : Mesh D L ℚ} {n b : mesh.tree.Node} {c source : Cell D} {tile : Tile D ℚ}
  {f : Nat → Point ℚ → ℚ} {limiter : Limiter}

/-- The leaf cells hold a field in the mean if all internal cells hold it. -/
theorem IsMean.eq_fieldAt (hf : ∀ v < mesh.config.variableCount, IsAffine (f v))
    (hcell : ∀ n tile c, mesh.tile? n = some tile → mesh.layout.Inside c →
      tile.get c = .ok (fieldAt mesh.config.variableCount f (mesh.centre n c)))
    {l : Nat} {g : Fin D → ℤ} {values : Array ℚ} (h : mesh.IsMean l g values) :
    values = fieldAt mesh.config.variableCount f (mesh.config.gridPoint l g) := by
  induction h with
  | cell htile hc hvalues => exact Except.ok.inj (hvalues.symm.trans (hcell _ _ _ htile hc))
  | @parts l g parts _ ih =>
    refine eq_fieldAt_iff.2 ⟨Array.size_ofFn, fun v hv => ?_⟩
    have hpart (part : ChildPosition D) : (parts part).getD v 0 =
        f v (mesh.config.gridPoint (l + 1) (MeshConfig.partIndex g part)) := by
      rw [ih part, getD_fieldAt hv]
    simp only [Array.getD_eq_getD_getElem?, Array.getElem?_ofFn, hv, dite_true, Option.getD_some]
    simp only [← Array.getD_eq_getD_getElem?, hpart]
    rw [(hf v hv).sum_parts, mul_div_cancel_left₀ _ (by positivity)]

omit [Dimension D] in
/-- A step along an axis adds the slope along it times the spacing. -/
theorem apply_centre_stepped {f : Point ℚ → ℚ} {slope : Fin D → ℚ}
    (hslope : ∀ l g, f (mesh.config.gridPoint l g) =
      f mesh.config.origin + ∑ d, slope d * ((g d + 1 / 2) * mesh.config.spacing l))
    (hs : mesh.layout.Inside source) (d : Fin D) {steps : ℤ} (hsteps : steps = 1 ∨ steps = -1) :
    f (mesh.centre b (TileLayout.stepped source d steps)) = f (mesh.centre b source) +
      slope d * (steps * mesh.config.spacing (mesh.tree.level b)) := by
  have hterm (i : Fin D) : slope i * ((mesh.config.cellIndex (mesh.tree.location b)
      (TileLayout.stepped source d steps) i + 1 / 2) * mesh.config.spacing (mesh.tree.level b)) =
      slope i * ((mesh.config.cellIndex (mesh.tree.location b) source i + 1 / 2) *
        mesh.config.spacing (mesh.tree.level b)) +
      if i = d then slope d * (steps * mesh.config.spacing (mesh.tree.level b)) else 0 := by
    rw [cellIndex_stepped hs hsteps]
    split
    · next hid =>
      rw [hid]
      push_cast
      ring
    · rw [add_zero, add_zero]
  unfold centre
  rw [hslope, hslope, add_assoc]
  simp only [hterm, Finset.sum_add_distrib, Finset.sum_ite_eq', Finset.mem_univ, if_true]

variable [LawfulLocation L]

/-- A projection is exact where the source and its neighbours hold an affine field. -/
theorem IsTileOf.project_fieldAt (hof : mesh.IsTileOf b tile) (hb : mesh.Built) (limiter : Limiter)
    (hf : ∀ v < mesh.config.variableCount, IsAffine (f v)) (hs : mesh.layout.Inside source)
    (hcenter : tile.get source =
      .ok (fieldAt mesh.config.variableCount f (mesh.centre b source)))
    (hstep : ∀ d steps, steps = 1 ∨ steps = -1 → tile.get (TileLayout.stepped source d steps) =
      .ok (fieldAt mesh.config.variableCount f
        (mesh.centre b (TileLayout.stepped source d steps)))) (n : mesh.tree.Node) (c : Cell D) :
    project tile source (mesh.centre n c) limiter =
      .ok (fieldAt mesh.config.variableCount f (mesh.centre n c)) := by
  have hsize (p : Point ℚ) : (fieldAt mesh.config.variableCount f p).size =
      mesh.config.variableCount := Array.size_ofFn
  rw [hof.project_eq hs (hof.cellCentroid_eq hb hs.contains) hcenter
    (fun d => hstep d (-1) (Or.inr rfl)) (fun d => hstep d 1 (Or.inl rfl)), hof.cellLength_eq hb]
  refine congrArg Except.ok (eq_fieldAt_iff.2 ⟨size_plane (hsize _) (fun d => hsize _)
    (fun d => hsize _), fun v hv => ?_⟩)
  rw [getD_plane hv (hsize _) (fun d => hsize _) (fun d => hsize _)]
  simp only [getD_fieldAt hv]
  obtain ⟨slope, hslope⟩ := (hf v hv).exists_gridPoint_eq (D := D) mesh.config
  have hspacing := (hb.spacing_pos (mesh.tree.level b)).ne'
  have hslopes (d : Fin D) : limiter.slope
      (f v (mesh.centre b source) - f v (mesh.centre b (TileLayout.stepped source d (-1))))
      (f v (mesh.centre b (TileLayout.stepped source d 1)) - f v (mesh.centre b source)) =
        slope d * mesh.config.spacing (mesh.tree.level b) := by
    -- both differences along the axis are the same
    rw [apply_centre_stepped hslope hs d (Or.inr rfl), apply_centre_stepped hslope hs d (Or.inl rfl)]
    push_cast
    rw [one_mul, neg_one_mul, mul_neg, add_sub_cancel_left, sub_add_cancel_left, neg_neg,
      Limiter.slope_self]
  have hway (d : Fin D) : slope d * mesh.config.spacing (mesh.tree.level b) *
      (((mesh.centre n c).along d - (mesh.centre b source).along d) /
        mesh.config.spacing (mesh.tree.level b)) =
      slope d * ((mesh.config.cellIndex (mesh.tree.location n) c d + 1 / 2) *
        mesh.config.spacing (mesh.tree.level n)) -
      slope d * ((mesh.config.cellIndex (mesh.tree.location b) source d + 1 / 2) *
        mesh.config.spacing (mesh.tree.level b)) := by
    rw [along_centre, along_centre]
    field_simp
    ring
  change f v (mesh.centre b source) + ∑ d, limiter.slope _ _ *
    (((mesh.centre n c).along d - (mesh.centre b source).along d) /
      mesh.config.spacing (mesh.tree.level b)) = _
  simp only [hslopes, hway, Finset.sum_sub_distrib]
  unfold centre
  rw [hslope, hslope]
  ring

/-! ## Fields in an exchange -/

omit [LawfulLocation L] in
/-- Cells of one level with the same numbers have the same centre. -/
theorem Built.centre_internalCellAt (hb : mesh.Built) (hlevel : mesh.tree.level b = mesh.tree.level n)
    (hlies : mesh.config.LiesIn (mesh.centre n c) (mesh.tree.location b)) :
    mesh.centre b (mesh.config.internalCellAt (mesh.tree.level n) (mesh.centre n c)) =
      mesh.centre n c := by
  have hindex := hb.cellIndex_internalCellAt_of_level_eq hlevel hlies
  rw [hlevel] at hindex
  unfold centre at hindex ⊢
  rw [hlevel, hindex]

/-- Internal cells and cells outside the root hold an affine field. -/
structure HoldsOutside (mesh : Mesh D L ℚ) (f : Nat → Point ℚ → ℚ) : Prop where
  affine (v : Nat) : v < mesh.config.variableCount → IsAffine (f v)
  inside (n : mesh.tree.Node) (tile : Tile D ℚ) (c : Cell D) : mesh.tile? n = some tile →
    mesh.layout.Inside c →
      tile.get c = .ok (fieldAt mesh.config.variableCount f (mesh.centre n c))
  outside (n : mesh.tree.Node) (tile : Tile D ℚ) (c : Cell D) : mesh.tile? n = some tile →
    mesh.layout.IsHaloCell c → ¬ mesh.OnGrid n c →
      tile.get c = .ok (fieldAt mesh.config.variableCount f (mesh.centre n c))

namespace HoldsOutside

variable {one two : ExchangeStats} {tiles tiles' : Vector (Option (Tile D ℚ)) mesh.tree.size}

/-- After phase one all cells hold the field but halo cells over coarser leaves. -/
theorem get_first (hf : mesh.HoldsOutside f) (hb : mesh.Built) (ht : mesh.tree.Valid)
    (hcomplete : mesh.tree.Complete) (h : mesh.ExchangeResult limiter one two tiles tiles')
    (htile : tiles.get n = some tile) (hc : mesh.layout.Contains c)
    (hfiner : mesh.layout.IsHaloCell c → ∀ b, mesh.tree.isLeaf b = true →
      mesh.config.LiesIn (mesh.centre n c) (mesh.tree.location b) →
        mesh.tree.level n ≤ mesh.tree.level b) :
    tile.get c = .ok (fieldAt mesh.config.variableCount f (mesh.centre n c)) := by
  obtain ⟨before, hbefore, -⟩ := h.first.frames.symm.exists_of_tile htile
  have hn := (hb.isLeaf_of_tile hbefore).1
  by_cases hin : mesh.layout.Inside c
  · rw [h.first.inside hbefore htile c hin]
    exact hf.inside n before c hbefore hin
  · have hhalo : mesh.layout.IsHaloCell c := ⟨hc, hin⟩
    obtain ⟨r, hr, hget⟩ := h.first.halo hbefore htile c hhalo
    rw [hget]
    by_cases hgrid : mesh.OnGrid n c
    · obtain ⟨y, hover, ⟨s, rfl⟩ | ⟨b, hbleaf, hby⟩⟩ := hb.exists_isOver ht hcomplete hgrid
      · obtain ⟨hlevel, hlies⟩ := hb.isOver_iff.1 hover
        rcases hs : mesh.tree.isLeaf s with _ | _
        · -- the mean over finer leaves
          obtain ⟨⟨values, -, hmean, heq⟩, -⟩ :=
            phases_of_not_isLeaf hb ht hcomplete limiter hn hhalo hover hs
          obtain rfl := Except.ok.inj (hr.symm.trans heq)
          exact congrArg Except.ok (hmean.eq_fieldAt hf.affine hf.inside)
        · -- the value in a leaf of the same level
          obtain ⟨⟨source, values, hsource, hvalues, heq⟩, -⟩ :=
            phases_of_isLeaf hb ht limiter hn hhalo hover hs
          obtain rfl := Except.ok.inj (hr.symm.trans heq)
          rw [hf.inside s source _ hsource (hb.inside_internalCellAt _ _),
            hb.centre_internalCellAt hlevel hlies] at hvalues
          exact hvalues.symm
      · obtain ⟨hlevel, hlies⟩ := hb.isOver_iff.1 hover
        have hlt := (isAncestorOf_iff.1 hby).1
        have := hfiner hhalo b hbleaf (hlies.of_covers (covers_iff.2 (Or.inr hby)))
        unfold Tree.level at *
        omega
    · obtain rfl := Except.ok.inj
        (hr.symm.trans (phases_of_not_onGrid hb ht limiter hn hhalo hgrid).1)
      exact hf.outside n before c hbefore hhalo hgrid

/-- After phase two all cells hold the field. -/
theorem get_second (hf : mesh.HoldsOutside f) (hb : mesh.Built) (ht : mesh.tree.Valid)
    (hcomplete : mesh.tree.Complete) (hbal : mesh.tree.Balanced)
    (h : mesh.ExchangeResult limiter one two tiles tiles')
    (htile : tiles'.get n = some tile) (hc : mesh.layout.Contains c) :
    tile.get c = .ok (fieldAt mesh.config.variableCount f (mesh.centre n c)) := by
  have ht' : (mesh.withTiles tiles).tree.Valid := ht
  obtain ⟨before, hbefore, -⟩ := h.second.frames.symm.exists_of_tile htile
  have hn : mesh.tree.isLeaf n = true := (h.built.isLeaf_of_tile hbefore).1
  by_cases hin : mesh.layout.Inside c
  · rw [h.second.inside hbefore htile c hin]
    exact hf.get_first hb ht hcomplete h hbefore hc fun hhalo => absurd hin hhalo.2
  · have hhalo : mesh.layout.IsHaloCell c := ⟨hc, hin⟩
    obtain ⟨r, hr, hget⟩ := h.second.halo hbefore htile c hhalo
    rw [hget]
    by_cases hcoarser : ∃ b, mesh.tree.isLeaf b = true ∧
        mesh.config.LiesIn (mesh.centre n c) (mesh.tree.location b) ∧
          mesh.tree.level b < mesh.tree.level n
    · obtain ⟨b, hbleaf, hlies, hlevel⟩ := hcoarser
      obtain ⟨coarse, values, hcoarse, hvalues, heq⟩ :=
        exists_phaseTwoAt_projected ht' h.built limiter hn hhalo hbleaf hlevel hlies
      obtain rfl := Except.ok.inj (hr.symm.trans heq)
      have hof := (h.built.isLeaf_of_tile hcoarse).2
      have hs := hb.inside_internalCellAt (mesh.tree.level b) (mesh.centre n c)
      have hproject := hof.project_fieldAt h.built limiter hf.affine hs
        (hf.get_first hb ht hcomplete h hcoarse hs.contains fun hhalo => absurd hs hhalo.2)
        (fun d steps hsteps => hf.get_first hb ht hcomplete h hcoarse
          (hs.contains_stepped d (by omega)) fun hstepped m hm hmlies =>
            level_le_of_stepped hb ht hcomplete hbal hn hhalo hbleaf hlevel hlies hsteps hstepped hm
              hmlies) n c
      exact hvalues.symm.trans hproject
    · have hfiner : ∀ b, mesh.tree.isLeaf b = true →
          mesh.config.LiesIn (mesh.centre n c) (mesh.tree.location b) →
            mesh.tree.level n ≤ mesh.tree.level b := fun b hbleaf hlies =>
        not_lt.1 fun hlt => hcoarser ⟨b, hbleaf, hlies, hlt⟩
      obtain rfl := Except.ok.inj
        (hr.symm.trans (phaseTwoAt_eq_none ht' h.built limiter hn hhalo hfiner))
      exact hf.get_first hb ht hcomplete h hbefore hc fun _ => hfiner

end HoldsOutside

omit [LawfulLocation L] in
/-- No centre of a cell is on the boundary of the root. -/
theorem Built.inRoot_centre_iff (hb : mesh.Built) :
    mesh.config.InRoot D (mesh.centre n c) ↔ mesh.OnGrid n c := by
  have hspacing := hb.spacing_pos (mesh.tree.level n)
  have hcells : (mesh.config.internalCells : ℚ) ≠ 0 := Nat.cast_ne_zero.2 hb.internalCells_pos.ne'
  have hlength : mesh.config.rootLength = ((mesh.config.internalCells * 2 ^ mesh.tree.level n : ℤ) : ℚ) *
      mesh.config.spacing (mesh.tree.level n) := by
    unfold MeshConfig.spacing
    push_cast
    field_simp
  refine forall_congr' fun d => ?_
  rw [along_centre, hlength]
  generalize mesh.config.cellIndex (mesh.tree.location n) c d = g
  generalize (mesh.config.internalCells * 2 ^ mesh.tree.level n : ℤ) = cells
  rw [le_add_iff_nonneg_right, add_le_add_iff_left, mul_le_mul_iff_left₀ hspacing,
    mul_nonneg_iff_of_pos_right hspacing]
  constructor
  · rintro ⟨hlow, hup⟩
    constructor
    · by_contra h
      have : (g : ℚ) ≤ -1 := by exact_mod_cast (show g ≤ -1 by omega)
      linarith
    · by_contra h
      have : (cells : ℚ) ≤ g := by exact_mod_cast not_lt.1 h
      linarith
  · rintro ⟨hlow, hup⟩
    have hlow : (0 : ℚ) ≤ g := by exact_mod_cast hlow
    have hup : (g : ℚ) + 1 ≤ cells := by exact_mod_cast hup
    constructor <;> linarith

/-- A cell of a tile holds the values of a field at its centre. -/
def HoldsField (mesh : Mesh D L ℚ) (f : Nat → Point ℚ → ℚ) (tile : Tile D ℚ) (c : Cell D) : Prop :=
  ∃ p, tile.cellCentroid c = .ok p ∧ tile.get c = .ok (fieldAt mesh.config.variableCount f p)

/-- The centre of a cell of a tile is outside the root. -/
def IsOutsideRoot (mesh : Mesh D L ℚ) (tile : Tile D ℚ) (c : Cell D) : Prop :=
  ∃ p, tile.cellCentroid c = .ok p ∧ ¬ mesh.config.InRoot D p

theorem IsTileOf.holdsField_iff (hof : mesh.IsTileOf n tile) (hb : mesh.Built)
    (hc : mesh.layout.Contains c) : mesh.HoldsField f tile c ↔
      tile.get c = .ok (fieldAt mesh.config.variableCount f (mesh.centre n c)) := by
  have hcentroid : tile.cellCentroid c = .ok (mesh.centre n c) := hof.cellCentroid_eq hb hc
  constructor
  · rintro ⟨p, hp, hget⟩
    obtain rfl := Except.ok.inj (hcentroid.symm.trans hp)
    exact hget
  · exact fun hget => ⟨_, hcentroid, hget⟩

theorem IsTileOf.isOutsideRoot_iff (hof : mesh.IsTileOf n tile) (hb : mesh.Built)
    (hc : mesh.layout.Contains c) : mesh.IsOutsideRoot tile c ↔ ¬ mesh.OnGrid n c := by
  have hcentroid : tile.cellCentroid c = .ok (mesh.centre n c) := hof.cellCentroid_eq hb hc
  rw [← hb.inRoot_centre_iff]
  constructor
  · rintro ⟨p, hp, hroot⟩
    obtain rfl := Except.ok.inj (hcentroid.symm.trans hp)
    exact hroot
  · exact fun hroot => ⟨_, hcentroid, hroot⟩

/-- On a balanced tree that was grown an exchange is exact for fields that are affine in the position:
if the internal cells hold one and the halo cells outside the root do, then afterwards all cells
do. -/
theorem exchange_exact (hg : mesh.tree.Grown) (hbal : mesh.tree.Balanced) (hb : mesh.Built)
    (limiter : Limiter) (hf : ∀ v < mesh.config.variableCount, IsAffine (f v))
    (hinside : ∀ n tile, mesh.tile? n = some tile → ∀ c, mesh.layout.Inside c →
      mesh.HoldsField f tile c)
    (houtside : ∀ n tile, mesh.tile? n = some tile → ∀ c, mesh.layout.IsHaloCell c →
      mesh.IsOutsideRoot tile c → mesh.HoldsField f tile c) :
    (mesh.Addressable → ∃ r, mesh.exchange limiter = .ok r) ∧
    ∀ stats after, mesh.exchange limiter = .ok (stats, after) → ∀ n tile,
      after.tile? n = some tile → ∀ c, after.layout.Contains c → after.HoldsField f tile c := by
  obtain ⟨ht, hcomplete⟩ := hg.valid_complete
  refine ⟨fun haddr => exists_exchange ht hb haddr limiter, fun stats after h => ?_⟩
  obtain ⟨one, two, tiles, tiles', hr, rfl, -⟩ := exchange_eq_ok hb h
  have hholds : mesh.HoldsOutside f := {
    affine := hf
    inside := fun n tile c htile hc =>
      ((hb.isLeaf_of_tile htile).2.holdsField_iff hb hc.contains).1 (hinside n tile htile c hc)
    outside := fun n tile c htile hc hgrid =>
      have hof := (hb.isLeaf_of_tile htile).2
      (hof.holdsField_iff hb hc.1).1
        (houtside n tile htile c hc ((hof.isOutsideRoot_iff hb hc.1).2 hgrid)) }
  intro n tile htile c hc
  refine ((hr.built'.isLeaf_of_tile htile).2.holdsField_iff hr.built' hc).2 ?_
  exact hholds.get_second hb ht hcomplete hbal hr htile hc

/-- A field with a different slope along each axis. -/
def slanted (_ : Nat) (p : Point ℚ) : ℚ := 1 + (2 * p.get 0 - 3 * p.get 1 + 1 / 2 * p.get 2)

theorem isAffine_slanted (v : Nat) : IsAffine (slanted v) := by
  refine ⟨1, #v[2, -3, 1 / 2], fun p => ?_⟩
  rw [Fin.sum_univ_three]
  change _ = 1 + (2 * p.get 0 + -3 * p.get 1 + 1 / 2 * p.get 2)
  unfold slanted
  ring

/-- The other halo cells hold zeros before the exchange. -/
theorem exchange_exact_graded : ∃ mesh : Mesh 2 (GridLocation 2) ℚ,
    mesh.tree = Tree.graded ∧ mesh.tree.Balanced ∧ mesh.Built ∧
      (∀ n tile, mesh.tile? n = some tile → ∀ c, mesh.layout.IsHaloCell c →
        ¬ mesh.IsOutsideRoot tile c → tile.get c = .ok (Array.replicate 1 0)) ∧
      ∀ limiter, ∃ stats after, mesh.exchange limiter = .ok (stats, after) ∧
        ∀ n tile, after.tile? n = some tile → ∀ c, after.layout.Contains c →
          after.HoldsField slanted tile c := by
  classical
  obtain ⟨zeros, htree, hconfig, hzeros, haddr⟩ := exists_make_unit (D := 2) Tree.graded
  have haddr := haddr (by decide +kernel)
  have hg : zeros.tree.Grown := htree ▸ Tree.grown_graded
  have hbal : zeros.tree.Balanced := htree ▸ Tree.balanced_graded
  have hcount : zeros.config.variableCount = 1 := congrArg MeshConfig.variableCount hconfig
  let values (n : zeros.tree.Node) (c : Cell 2) : Array ℚ :=
    if zeros.layout.Inside c ∨ ¬ zeros.OnGrid n c then
      fieldAt zeros.config.variableCount slanted (zeros.centre n c)
    else Array.replicate 1 0
  have hsize (n : zeros.tree.Node) (c : Cell 2) :
      (values n c).size = zeros.config.variableCount := by
    unfold values
    split
    · exact Array.size_ofFn
    · rw [Array.size_replicate, hcount]
  obtain ⟨tiles, hframes, hget⟩ := hzeros.exists_values hsize
  have hb := hzeros.withTiles hframes
  have hg : (zeros.withTiles tiles).tree.Grown := hg
  have hbal : (zeros.withTiles tiles).tree.Balanced := hbal
  have hvalues {n : zeros.tree.Node} {tile : Tile 2 ℚ}
      (htile : (zeros.withTiles tiles).tile? n = some tile) {c : Cell 2}
      (hc : zeros.layout.Contains c) (hholds : zeros.layout.Inside c ∨ ¬ zeros.OnGrid n c) :
      (zeros.withTiles tiles).HoldsField slanted tile c := by
    refine ((hb.isLeaf_of_tile htile).2.holdsField_iff hb hc).2 ((hget n tile htile c hc).trans ?_)
    exact congrArg Except.ok (if_pos hholds)
  have houtside {n : zeros.tree.Node} {tile : Tile 2 ℚ}
      (htile : (zeros.withTiles tiles).tile? n = some tile) {c : Cell 2}
      (hc : zeros.layout.Contains c) :
      (zeros.withTiles tiles).IsOutsideRoot tile c ↔ ¬ zeros.OnGrid n c :=
    (hb.isLeaf_of_tile htile).2.isOutsideRoot_iff hb hc
  refine ⟨zeros.withTiles tiles, htree, hbal, hb, fun n tile htile c hc hroot => ?_,
    fun limiter => ?_⟩
  · rw [hget n tile htile c hc.1]
    refine congrArg Except.ok (if_neg ?_)
    rintro (h | h)
    · exact hc.2 h
    · exact hroot ((houtside htile hc.1).2 h)
  · obtain ⟨hok, hexact⟩ := exchange_exact hg hbal hb limiter (fun v _ => isAffine_slanted v)
      (fun n tile htile c hc => hvalues htile hc.contains (Or.inl hc))
      fun n tile htile c hc hroot => hvalues htile hc.1 (Or.inr ((houtside htile hc.1).1 hroot))
    obtain ⟨⟨stats, after⟩, h⟩ := hok haddr
    exact ⟨stats, after, h, hexact stats after h⟩

end Mesh

end AdaptiveMesh
