import AdaptiveMesh.Proofs.Mesh.Exact
import AdaptiveMesh.Proofs.Mesh.Frame
import AdaptiveMesh.Proofs.Mesh.Gaps
import AdaptiveMesh.Proofs.Mesh.Stale

/-!
# Projections with the minmod limiter

A minmod slope is no steeper than either difference that it is made from. Along each axis one of the
cells next to a source is an internal one, so whatever the halo cells hold, a projection stays as
near to the source as the internal cells around it. If all internal cells of a mesh hold the same
values, an exchange writes nothing else, on balanced trees and on others.
-/

namespace AdaptiveMesh

open LocationCode

/-! ## Slopes -/

theorem Limiter.slope_minmod (a b : ℚ) : minmod.slope a b =
    if 0 < a * b then if 0 < a then min a b else max a b else 0 := by
  unfold slope
  simp only [Scalar.lt, Scalar.ofNat, Scalar.min, Scalar.max, Scalar.le, decide_eq_true_eq,
    Nat.cast_zero]
  rfl

/-- The slope is no steeper than either difference. -/
theorem Limiter.abs_slope_minmod_le (a b : ℚ) :
    |minmod.slope a b| ≤ |a| ∧ |minmod.slope a b| ≤ |b| := by
  rw [slope_minmod]
  split
  · next hab =>
    split
    · next ha =>
      have hb : 0 < b := (pos_iff_pos_of_mul_pos hab).1 ha
      rw [abs_of_pos (lt_min ha hb), abs_of_pos ha, abs_of_pos hb]
      exact ⟨min_le_left a b, min_le_right a b⟩
    · next ha =>
      have ha : a < 0 := (not_lt.1 ha).lt_of_ne (left_ne_zero_of_mul hab.ne')
      have hb : b < 0 := (neg_iff_neg_of_mul_pos hab).1 ha
      rw [abs_of_neg (max_lt ha hb), abs_of_neg ha, abs_of_neg hb]
      exact ⟨neg_le_neg (le_max_left a b), neg_le_neg (le_max_right a b)⟩
  · rw [abs_zero]
    exact ⟨abs_nonneg a, abs_nonneg b⟩

variable {D : Nat} {L : Type} [LocationCode D L] [Dimension D]

/-- No point of a box is further than half its edge from its centre along an axis. -/
theorem Box.LiesOver.abs_sub_le {b : Box D ℚ} {p : Point ℚ} (h : b.LiesOver p) (d : Fin D) :
    |p.along d - b.centroid.along d| ≤ 1 / 2 * b.length := by
  have hd := h d
  rw [Box.along_upper, Box.along_lower] at hd
  rw [abs_le]
  constructor <;> linarith

/-! ## Internal cells next to a cell -/

/-- One step along an axis leads from a cell to an internal one. -/
def TileLayout.IsInternalNeighbor (t : TileLayout D) (source : Cell D) (d : Fin D) (c : Cell D) :
    Prop :=
  t.Inside c ∧ (t.movedAlong source d (-1) = .ok c ∨ t.movedAlong source d 1 = .ok c)

/-- How far a variable of a cell is from that of the internal cells next to it along an axis. -/
def Tile.internalDifferences (tile : Tile D ℚ) (source : Cell D) (v : Nat) (d : Fin D) : Set ℚ :=
  {δ | ∃ c center values, tile.layout.IsInternalNeighbor source d c ∧
    tile.get source = .ok center ∧ tile.get c = .ok values ∧
      δ = |values.getD v 0 - center.getD v 0|}

namespace Mesh

/-- Each variable differs from that of a cell by at most half the sum, over the axes, of the least
difference to an internal cell next to it. -/
def StaysNear (mesh : Mesh D L ℚ) (tile : Tile D ℚ) (source : Cell D) (values : Array ℚ) : Prop :=
  values.size = mesh.config.variableCount ∧ ∃ center, tile.get source = .ok center ∧
    ∀ v < mesh.config.variableCount, ∃ least : Fin D → ℚ,
      (∀ d, IsLeast (tile.internalDifferences source v d) (least d)) ∧
        |values.getD v 0 - center.getD v 0| ≤ 1 / 2 * ∑ d, least d

variable {mesh : Mesh D L ℚ} {n b : mesh.tree.Node} {tile : Tile D ℚ} {source c : Cell D}
  {center values state : Array ℚ} {lower upper : Fin D → Array ℚ} {v : Nat} {d : Fin D}

theorem IsTileOf.mem_internalDifferences_iff (hof : mesh.IsTileOf b tile)
    (hs : mesh.layout.Inside source) (hcenter : tile.get source = .ok center)
    (hlower : ∀ d, tile.get (TileLayout.stepped source d (-1)) = .ok (lower d))
    (hupper : ∀ d, tile.get (TileLayout.stepped source d 1) = .ok (upper d)) {δ : ℚ} :
    δ ∈ tile.internalDifferences source v d ↔
      (mesh.layout.Inside (TileLayout.stepped source d (-1)) ∧
        δ = |(lower d).getD v 0 - center.getD v 0|) ∨
      (mesh.layout.Inside (TileLayout.stepped source d 1) ∧
        δ = |(upper d).getD v 0 - center.getD v 0|) := by
  have hdown : mesh.layout.movedAlong source d (-1) = .ok (TileLayout.stepped source d (-1)) :=
    hof.fits.spans.movedAlong hs d (by decide)
  have hup : mesh.layout.movedAlong source d 1 = .ok (TileLayout.stepped source d 1) :=
    hof.fits.spans.movedAlong hs d (by decide)
  unfold Tile.internalDifferences TileLayout.IsInternalNeighbor
  rw [Set.mem_ofPred_eq, hof.layout, hdown, hup]
  constructor
  · rintro ⟨c, center', values, ⟨hc, hstep⟩, hcenter', hvalues, rfl⟩
    obtain rfl := Except.ok.inj (hcenter.symm.trans hcenter')
    rcases hstep with hstep | hstep
    · obtain rfl := Except.ok.inj hstep
      obtain rfl := Except.ok.inj ((hlower d).symm.trans hvalues)
      exact Or.inl ⟨hc, rfl⟩
    · obtain rfl := Except.ok.inj hstep
      obtain rfl := Except.ok.inj ((hupper d).symm.trans hvalues)
      exact Or.inr ⟨hc, rfl⟩
  · rintro (⟨hc, rfl⟩ | ⟨hc, rfl⟩)
    · exact ⟨_, center, lower d, ⟨hc, Or.inl rfl⟩, hcenter, hlower d, rfl⟩
    · exact ⟨_, center, upper d, ⟨hc, Or.inr rfl⟩, hcenter, hupper d, rfl⟩

/-- Along each axis a source has an internal cell next to it, and the slope there is no steeper than
the least difference to one. -/
theorem IsTileOf.exists_isLeast (hof : mesh.IsTileOf b tile) (hb : mesh.Built)
    (hs : mesh.layout.Inside source) (hcenter : tile.get source = .ok center)
    (hlower : ∀ d, tile.get (TileLayout.stepped source d (-1)) = .ok (lower d))
    (hupper : ∀ d, tile.get (TileLayout.stepped source d 1) = .ok (upper d)) (v : Nat) (d : Fin D) :
    ∃ least, IsLeast (tile.internalDifferences source v d) least ∧
      |Limiter.minmod.slope (center.getD v 0 - (lower d).getD v 0)
        ((upper d).getD v 0 - center.getD v 0)| ≤ least := by
  have hmem {δ : ℚ} :=
    hof.mem_internalDifferences_iff (v := v) (d := d) (δ := δ) hs hcenter hlower hupper
  have hnonempty : (tile.internalDifferences source v d).Nonempty := by
    by_cases hin : mesh.layout.Inside (TileLayout.stepped source d 1)
    · exact ⟨_, hmem.2 (Or.inr ⟨hin, rfl⟩)⟩
    · have hcross := hb.inside_stepped_neg hs (Or.inl rfl)
        ⟨hs.contains_stepped d (by decide), hin⟩
      exact ⟨_, hmem.2 (Or.inl ⟨hcross, rfl⟩)⟩
  have hfinite : (tile.internalDifferences source v d).Finite := by
    refine (Set.toFinite {|(lower d).getD v 0 - center.getD v 0|,
      |(upper d).getD v 0 - center.getD v 0|}).subset fun δ hδ => ?_
    rcases hmem.1 hδ with ⟨-, rfl⟩ | ⟨-, rfl⟩
    · exact Or.inl rfl
    · exact Or.inr rfl
  obtain ⟨least, hleast, hmin⟩ := Set.exists_min_image _ id hfinite hnonempty
  refine ⟨least, ⟨hleast, hmin⟩, ?_⟩
  obtain ⟨hlow, hup⟩ := Limiter.abs_slope_minmod_le (center.getD v 0 - (lower d).getD v 0)
    ((upper d).getD v 0 - center.getD v 0)
  rcases hmem.1 hleast with ⟨-, rfl⟩ | ⟨-, rfl⟩
  · rwa [abs_sub_comm ((lower d).getD v 0)]
  · exact hup

variable [LawfulLocation L]

/-- A projection to a point in its source stays near to the source. -/
theorem IsTileOf.staysNear_of_project (hof : mesh.IsTileOf b tile) (hb : mesh.Built)
    (hs : mesh.layout.Inside source) {x : Point ℚ} (hx : tile.CellLiesOver source x)
    (h : project tile source x .minmod = .ok values) : mesh.StaysNear tile source values := by
  obtain ⟨centroid, hcentroid, hover⟩ := hx
  obtain ⟨center, hcenter, hsize⟩ := hof.exists_get hs.contains
  obtain ⟨lower, upper, hlower, hupper, hlowersize, huppersize⟩ := hof.exists_around hs
  have hplane := Except.ok.inj
    (h.symm.trans (hof.project_eq hs hcentroid hcenter hlower hupper (x := x)))
  have hlength : 0 < tile.cellLength := by
    rw [hof.cellLength_eq hb]
    exact hb.spacing_pos _
  -- the point is at most half a cell away from the centre
  have hdelta (d : Fin D) : |(x.along d - centroid.along d) / tile.cellLength| ≤ 1 / 2 := by
    rw [abs_div, abs_of_pos hlength, div_le_iff₀ hlength]
    exact hover.abs_sub_le d
  refine ⟨?_, center, hcenter, fun v hv => ?_⟩
  · rw [hplane]
    exact size_plane hsize hlowersize huppersize
  · choose least hleast hslope using hof.exists_isLeast hb hs hcenter hlower hupper v
    refine ⟨least, hleast, ?_⟩
    rw [hplane, getD_plane hv hsize hlowersize huppersize, add_sub_cancel_left, Finset.mul_sum]
    refine (Finset.abs_sum_le_sum_abs _ _).trans (Finset.sum_le_sum fun d _ => ?_)
    rw [abs_mul, mul_comm]
    exact mul_le_mul (hdelta d) (hslope d) (abs_nonneg _) (by norm_num)

/-! ## What the phases write -/

/-- The values are projected to a halo cell of a tile from the internal cell of a coarser tile over
its centre, and stay near to that cell. -/
def ProjectsNear (mesh : Mesh D L ℚ) (tile : Tile D ℚ) (c : Cell D) (values : Array ℚ) : Prop :=
  ∃ b coarse source x, mesh.tile? b = some coarse ∧ coarse.level < tile.level ∧
    mesh.layout.Inside source ∧ tile.cellCentroid c = .ok x ∧
      coarse.internalCellContaining x = .ok (some source) ∧
        project coarse source x .minmod = .ok values ∧ mesh.StaysNear coarse source values

theorem projectsNear_of_phaseTwoAt (ht : mesh.tree.Valid) (hb : mesh.Built)
    (htile : mesh.tile? n = some tile) (hc : mesh.layout.IsHaloCell c) {w : CellUpdate ℚ}
    (h : mesh.phaseTwoAt .minmod n c = .ok (some w)) : mesh.ProjectsNear tile c w.values := by
  obtain ⟨hn, hof⟩ := hb.isLeaf_of_tile htile
  have hx : tile.cellCentroid c = .ok (mesh.centre n c) := hof.cellCentroid_eq hb hc.1
  obtain ⟨r, hr, hiff⟩ := exists_projectionSource ht hb hn hc
  rw [phaseTwoAt_eq ht hn htile hof hc.1 hx hr] at h
  rcases r with _ | ⟨coarse, source⟩
  · cases Except.ok.inj h
  · obtain ⟨b, hcoarse, hlies, hlevel, hsource⟩ := (hiff coarse source).1 rfl
    have hof' := (hb.isLeaf_of_tile hcoarse).2
    have hinside : mesh.layout.Inside source := hsource ▸ hb.inside_internalCellAt _ _
    obtain ⟨values, hvalues, -⟩ := hof'.exists_project hinside (mesh.centre n c) .minmod
    change _ <$> project coarse source (mesh.centre n c) .minmod = _ at h
    rw [hvalues] at h
    obtain rfl := Option.some.inj (Except.ok.inj h)
    have hover := (hof'.cellLiesOver_iff hb hinside.contains).2
      ((inBox_cellIndex_iff hb hinside).2 ⟨hlies, hsource.symm⟩)
    refine ⟨b, coarse, source, _, hcoarse, ?_, hinside, hx, ?_, hvalues,
      hof'.staysNear_of_project hb hinside hover hvalues⟩
    · rwa [hof'.level, hof.level]
    · rw [hof'.internalCellContaining_eq hb, if_pos hlies, hsource]

/-- What phase one writes is the mean of the leaf cells in the halo cell. -/
theorem isMean_of_phaseOneAt (ht : mesh.tree.Valid) (hb : mesh.Built)
    (htile : mesh.tile? n = some tile) (hc : mesh.layout.IsHaloCell c) {w : CellUpdate ℚ}
    (h : mesh.phaseOneAt n c = .ok (some w)) : mesh.IsMean (mesh.tree.level n)
      (mesh.config.cellIndex (mesh.tree.location n) c) w.values := by
  obtain ⟨hn, hof⟩ := hb.isLeaf_of_tile htile
  obtain ⟨r, hasFiner, hr, -, heq⟩ := exists_phaseOneAt_eq ht hb hn hc
  rw [heq] at h
  rcases r with _ | ⟨neighbor, source⟩
  · rcases hasFiner with _ | _
    · cases Except.ok.inj h
    · rw [Option.elim_none, if_pos rfl] at h
      rcases hcentre : mesh.leafContaining (mesh.centre n c) with _ | b
      · rw [hcentre] at h
        cases Except.ok.inj h
      · obtain ⟨hleaf, hlies⟩ := (leafContaining_eq_some_iff ht hb).1 hcentre
        rw [hcentre, Option.elim_some] at h
        by_cases hlevel : mesh.tree.level b ≤ mesh.tree.level n
        · rw [if_pos hlevel] at h
          cases Except.ok.inj h
        · obtain ⟨r, hrestrict, -, hmean⟩ :=
            exists_restrict_of_level_lt ht hb hof hc.1 hleaf hlies (not_le.1 hlevel)
          rw [if_neg hlevel, hrestrict] at h
          obtain ⟨values, rfl, rfl⟩ := Option.map_eq_some_iff.1 (Except.ok.inj h)
          exact hmean values rfl
  · obtain ⟨b, hneighbor, hlies, hlevel, hsource⟩ := (hr neighbor source).1 rfl
    have hinside : mesh.layout.Inside source := hsource ▸ hb.inside_internalCellAt _ _
    obtain ⟨values, hvalues, -⟩ :=
      (hb.isLeaf_of_tile hneighbor).2.exists_get hinside.contains
    change _ <$> neighbor.get source = _ at h
    rw [hvalues] at h
    obtain rfl := Option.some.inj (Except.ok.inj h)
    have hindex := hb.cellIndex_internalCellAt_of_level_eq hlevel hlies
    have hmean := IsMean.cell hneighbor hinside hvalues
    rwa [hsource, hindex, hlevel] at hmean

/-! ## Uniform meshes -/

/-- All internal cells hold the same values. -/
def InsideHolds (mesh : Mesh D L ℚ) (state : Array ℚ) : Prop :=
  ∀ n tile, mesh.tile? n = some tile → ∀ c, mesh.layout.Inside c → tile.get c = .ok state

omit [LawfulLocation L] in
theorem InsideHolds.size_eq (hstate : mesh.InsideHolds state) (hb : mesh.Built)
    (htile : mesh.tile? n = some tile) : state.size = mesh.config.variableCount := by
  have hinside := hb.inside_internalCellAt (mesh.tree.level n) mesh.config.origin
  obtain ⟨values, hvalues, hsize⟩ := (hb.isLeaf_of_tile htile).2.exists_get hinside.contains
  rwa [Except.ok.inj ((hstate n tile htile _ hinside).symm.trans hvalues)]

omit [LocationCode D L] [Dimension D] [LawfulLocation L] in
/-- A phase keeps what the internal cells hold. -/
theorem PhaseResult.insideHolds
    {at' : mesh.tree.Node → Cell D → Except Fault (Option (CellUpdate ℚ))}
    {tiles : Vector (Option (Tile D ℚ)) mesh.tree.size} (h : mesh.PhaseResult at' tiles)
    (hstate : mesh.InsideHolds state) : (mesh.withTiles tiles).InsideHolds state := by
  intro n after hafter c hc
  obtain ⟨before, hbefore, -⟩ := h.frames.symm.exists_of_tile hafter
  rw [h.inside hbefore hafter c hc, hstate n before hbefore c hc]

omit [LawfulLocation L] in
/-- Values near to a cell among others that hold the same are the same. -/
theorem StaysNear.eq_of_insideHolds (h : mesh.StaysNear tile source values)
    (hstate : mesh.InsideHolds state) (hb : mesh.Built) (htile : mesh.tile? b = some tile)
    (hs : mesh.layout.Inside source) : values = state := by
  obtain ⟨hsize, center, hcenter, hnear⟩ := h
  have hof := (hb.isLeaf_of_tile htile).2
  obtain rfl : center = state :=
    Except.ok.inj (hcenter.symm.trans (hstate b tile htile source hs))
  have hvalue (v : Nat) (hv : v < mesh.config.variableCount) :
      values.getD v 0 = center.getD v 0 := by
    obtain ⟨least, hleast, hbound⟩ := hnear v hv
    have hzero (d : Fin D) : least d = 0 := by
      obtain ⟨c, center', values', ⟨hc, -⟩, hcenter', hvalues', heq⟩ := (hleast d).1
      rw [hof.layout] at hc
      obtain rfl := Except.ok.inj ((hstate b tile htile c hc).symm.trans hvalues')
      obtain rfl := Except.ok.inj (hcenter.symm.trans hcenter')
      rw [heq, sub_self, abs_zero]
    simp only [hzero, Finset.sum_const_zero, mul_zero] at hbound
    exact sub_eq_zero.1 (abs_nonpos_iff.1 hbound)
  refine Array.ext (hsize.trans (hstate.size_eq hb htile).symm) fun v h₁ h₂ => ?_
  have := hvalue v (hsize ▸ h₁)
  simpa [Array.getD, h₁, h₂] using this

omit [LawfulLocation L] in
/-- A mean of leaf cells that hold the same is the same. -/
theorem IsMean.eq_of_insideHolds {l : Nat} {g : Fin D → ℤ} (h : mesh.IsMean l g values)
    (hstate : mesh.InsideHolds state) (hsize : state.size = mesh.config.variableCount) :
    values = state := by
  have hconst (p : Point ℚ) :
      state = fieldAt mesh.config.variableCount (fun v _ => state.getD v 0) p :=
    eq_fieldAt_iff.2 ⟨hsize, fun v hv => rfl⟩
  rw [h.eq_fieldAt (f := fun v _ => state.getD v 0) (fun v _ => ?_) fun n tile c htile hc => ?_,
    ← hconst]
  · exact ⟨state.getD v 0, Vector.replicate 3 0, fun p => by simp⟩
  · rw [← hconst]
    exact hstate n tile htile c hc

/-- An exchange of a mesh whose internal cells hold the same values writes these and no others. -/
theorem ExchangeResult.get_eq_of_written {one two : ExchangeStats}
    {tiles tiles' : Vector (Option (Tile D ℚ)) mesh.tree.size}
    (h : mesh.ExchangeResult .minmod one two tiles tiles') (ht : mesh.tree.Valid) (hb : mesh.Built)
    (hstate : mesh.InsideHolds state) (htile : tiles'.get n = some tile)
    (hwritten : (n, c) ∈ mesh.written .one ∨ (n, c) ∈ (mesh.withTiles tiles).written (.two .minmod)) :
    tile.get c = .ok state := by
  have htmid : (mesh.withTiles tiles).tree.Valid := ht
  have hc : mesh.layout.IsHaloCell c := hwritten.elim (fun h => h.2.1) fun h => h.2.1
  obtain ⟨mid, hmid, -⟩ := h.second.frames.symm.exists_of_tile htile
  obtain ⟨before, hbefore, -⟩ := h.first.frames.symm.exists_of_tile hmid
  obtain ⟨r, hr, hget⟩ := h.first.halo hbefore hmid c hc
  obtain ⟨r', hr', hget'⟩ := h.second.halo hmid htile c hc
  rw [hget']
  cases r' with
  | some w =>
    obtain ⟨b, coarse, source, x, hcoarse, -, hinside, -, -, -, hnear⟩ :=
      projectsNear_of_phaseTwoAt htmid h.built hmid hc hr'
    have hmidstate := h.first.insideHolds hstate
    exact congrArg Except.ok (hnear.eq_of_insideHolds hmidstate h.built hcoarse hinside)
  | none =>
    have hfirst : (n, c) ∈ mesh.written .one := hwritten.resolve_right fun hsecond => by
      obtain ⟨w, hw⟩ := exists_eq_some_of_written h.built hsecond hr'
      contradiction
    obtain ⟨w, rfl⟩ := exists_eq_some_of_written hb hfirst hr
    have hsize := hstate.size_eq hb hbefore
    have hmean := isMean_of_phaseOneAt ht hb hbefore hc hr
    exact hget.trans (congrArg Except.ok (hmean.eq_of_insideHolds hstate hsize))

/-- Whatever halo cells hold, phase two with the minmod limiter keeps a halo cell or writes values to
it that stay as near to those of an internal cell of a coarser leaf as the internal cells next to
that. So if all internal cells hold the same values, an exchange writes nothing else. -/
theorem minmod_staysNear (ht : mesh.tree.Valid) (hb : mesh.Built) :
    ((mesh.Addressable → ∃ r, mesh.phaseTwo .minmod = .ok r) ∧
      ∀ stats after, mesh.phaseTwo .minmod = .ok (stats, after) → ∃ tiles,
        after = mesh.withTiles tiles ∧ ∀ n a, mesh.tile? n = some a → ∃ t u,
          tiles.get n = some t ∧ mesh.gatherPhaseTwo .minmod n = .ok u ∧
            ∀ c, mesh.layout.IsHaloCell c → ∃ i, mesh.layout.index c = .ok i ∧
              (u.forCell i = [] ∧ t.get c = a.get c ∨ ∃ w, u.forCell i = [w] ∧
                t.get c = .ok w.values ∧ mesh.ProjectsNear a c w.values)) ∧
    ((mesh.Addressable → ∃ r, mesh.exchange .minmod = .ok r) ∧
      ∀ state, mesh.InsideHolds state → ∀ stats after,
        mesh.exchange .minmod = .ok (stats, after) → ∃ one two tiles tiles',
          mesh.phaseOne = .ok (one, mesh.withTiles tiles) ∧
          (mesh.withTiles tiles).phaseTwo .minmod = .ok (two, mesh.withTiles tiles') ∧
          after = mesh.withTiles tiles' ∧ ∀ n t c, tiles'.get n = some t →
            (n, c) ∈ mesh.written .one ∨ (n, c) ∈ (mesh.withTiles tiles).written (.two .minmod) →
              t.get c = .ok state) := by
  refine ⟨⟨fun haddr => exists_phaseTwo ht hb haddr .minmod, fun stats after h => ?_⟩,
    fun haddr => exists_exchange ht hb haddr .minmod, fun state hstate stats after h => ?_⟩
  · obtain ⟨tiles, rfl, hcells⟩ :=
      (gathersFrom_phaseTwo hb .minmod).exists_forCell (atPlace_phaseTwo hb .minmod) hb h
    refine ⟨tiles, rfl, fun n a ha => ?_⟩
    obtain ⟨t, u, ht', hu, hcells⟩ := hcells n a ha
    refine ⟨t, u, ht', hu, fun c hc => ?_⟩
    obtain ⟨i, r, hi, hr, hcell, hget⟩ := hcells c hc
    refine ⟨i, hi, ?_⟩
    cases r with
    | none => exact Or.inl ⟨hcell, hget⟩
    | some w => exact Or.inr ⟨w, hcell, hget, projectsNear_of_phaseTwoAt ht hb ha hc hr⟩
  · obtain ⟨one, two, tiles, tiles', hr, rfl, -⟩ := exchange_eq_ok hb h
    exact ⟨one, two, tiles, tiles', hr.phaseOne, hr.phaseTwo, rfl,
      fun n t c htile hwritten => hr.get_eq_of_written ht hb hstate htile hwritten⟩

/-- A halo cell with a source of projection is written by phase two. -/
theorem ProjectsFrom.mem_written (h : mesh.ProjectsFrom n c b source) (ht : mesh.tree.Valid)
    (hb : mesh.Built) (hc : mesh.layout.IsHaloCell c) {limiter : Limiter}
    {r : ExchangeStats × Mesh D L ℚ} (hrun : mesh.phaseTwo limiter = .ok r) :
    (n, c) ∈ mesh.written (.two limiter) := by
  obtain ⟨hn, hleaf, hlevel, hlies, -⟩ := (projectsFrom_iff ht hb hc).1 h
  obtain ⟨tile, htile, -⟩ := hb.exists_tile hn
  obtain ⟨-, values, -, -, hsome⟩ :=
    exists_phaseTwoAt_projected ht hb limiter hn hc hleaf hlevel hlies
  obtain ⟨tiles, -, hcells⟩ :=
    (gathersFrom_phaseTwo hb limiter).exists_forCell (atPlace_phaseTwo hb limiter) hb hrun
  obtain ⟨t, u, -, hu, hcells⟩ := hcells n tile htile
  obtain ⟨i, r', hi, hr', hcell, -⟩ := hcells c hc
  obtain rfl := Except.ok.inj (hsome.symm.trans hr')
  refine ⟨hn, hc, u, i, hu, hi, ?_⟩
  rw [hcell]
  simp

/-- On a tree that is not balanced, with halo cells that hold anything but what is inside. -/
theorem minmod_staysNear_steep : ∃ mesh : Mesh 2 (GridLocation 2) ℚ, mesh.tree = Tree.steep ∧
    mesh.tree.Valid ∧ mesh.Built ∧ mesh.InsideHolds #[7] ∧
      (∀ n tile, mesh.tile? n = some tile → ∀ c, mesh.layout.IsHaloCell c →
        tile.get c = .ok #[-1 - (n.val : ℚ)]) ∧
      ∃ one two tiles tiles', mesh.phaseOne = .ok (one, mesh.withTiles tiles) ∧
        (mesh.withTiles tiles).phaseTwo .minmod = .ok (two, mesh.withTiles tiles') ∧
        (∃ n c, (n, c) ∈ (mesh.withTiles tiles).written (.two .minmod)) ∧
        ∀ n t c, tiles'.get n = some t →
          (n, c) ∈ mesh.written .one ∨ (n, c) ∈ (mesh.withTiles tiles).written (.two .minmod) →
            t.get c = .ok #[7] := by
  classical
  obtain ⟨zeros, htree, hconfig, hzeros, haddr⟩ := exists_make_unit (D := 2) Tree.steep
  have hcount : zeros.config.variableCount = 1 := congrArg MeshConfig.variableCount hconfig
  obtain ⟨tiles, hframes, hget⟩ := hzeros.exists_values
    (f := fun n c => if zeros.layout.Inside c then #[7] else #[-1 - (n.val : ℚ)]) fun n c => by
      rw [hcount]
      split <;> rfl
  have hb := hzeros.withTiles hframes
  have ht : (zeros.withTiles tiles).tree.Valid := htree ▸ Tree.grown_steep.valid
  have hinside : (zeros.withTiles tiles).InsideHolds #[7] := fun n tile htile c hc =>
    (hget n tile htile c hc.contains).trans (congrArg Except.ok (if_pos hc))
  obtain ⟨-, hrun, hexchange⟩ := minmod_staysNear ht hb
  obtain ⟨⟨stats, after⟩, h⟩ := hrun (haddr (by decide +kernel))
  obtain ⟨one, two, first, second, hone, htwo, -, hwritten⟩ := hexchange #[7] hinside stats after h
  refine ⟨zeros.withTiles tiles, htree, ht, hb, hinside, fun n tile htile c hc => ?_, one, two,
    first, second, hone, htwo, ?_, hwritten⟩
  · exact (hget n tile htile c hc.1).trans (congrArg Except.ok (if_neg hc.2))
  · obtain ⟨tiles', hfirst, hresult, -⟩ :=
      phaseResult_of_runPhase hb (gathersFrom_phaseOne hb) (atPlace_phaseOne hb) hone
    obtain rfl := withTiles_injective hfirst
    have hbuilt := hb.withTiles hresult.frames
    have htree' : ((zeros.withTiles tiles).withTiles first).tree = Tree.steep := htree
    obtain ⟨n, c, b, source, -, -, -, -, hc, hprojects, -⟩ :=
      staleRead_steep htree' hconfig hbuilt
    exact ⟨n, c, hprojects.mem_written ht hbuilt hc htwo⟩

end Mesh

end AdaptiveMesh
