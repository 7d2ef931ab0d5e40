import AdaptiveMesh.Proofs.Mesh.Balanced

/-!
# Values that show a stale read

If a projection reads a projected cell, there are values for which a second exchange changes the
mesh. All cells hold zero but the one that is read and, where the limiter asks for it, the cell
across the source. The first exchange finds a slope at the source. It also sets the cell that was
read to zero, so the second exchange finds none.
-/

namespace AdaptiveMesh

open LocationCode

namespace Limiter

/-- Two such values on both sides of a zero make no slope. -/
def Flat : Limiter → ℚ → Prop
  | unlimited, v => v = 0
  | minmod, v => v ≤ 0

/-- A value across a zero from a one, with which there is a slope. -/
def across : Limiter → ℚ
  | unlimited => 0
  | minmod => -1

variable (limiter : Limiter)

theorem flat_zero : limiter.Flat 0 := by cases limiter <;> simp [Flat]

theorem flat_across : limiter.Flat limiter.across := by
  cases limiter <;> simp [Flat, across]

variable {limiter}

theorem Flat.add {a b : ℚ} (ha : limiter.Flat a) (hb : limiter.Flat b) : limiter.Flat (a + b) := by
  cases limiter with
  | unlimited => exact (congrArg₂ (· + ·) ha hb).trans (add_zero 0)
  | minmod => exact add_nonpos ha hb

theorem Flat.mul {a w : ℚ} (ha : limiter.Flat a) (hw : 0 ≤ w) : limiter.Flat (a * w) := by
  cases limiter with
  | unlimited => exact (congrArg (· * w) ha).trans (zero_mul w)
  | minmod => exact mul_nonpos_of_nonpos_of_nonneg ha hw

theorem slope_of_flat {lower upper : ℚ} (hl : limiter.Flat lower) (hu : limiter.Flat upper) :
    limiter.slope (0 - lower) (upper - 0) = 0 := by
  cases limiter with
  | unlimited =>
    obtain rfl : lower = 0 := hl
    obtain rfl : upper = 0 := hu
    decide +kernel
  | minmod =>
    have hprod : ¬ 0 < (0 - lower) * (upper - 0) := by
      rw [not_lt]
      refine mul_nonpos_of_nonneg_of_nonpos ?_ ?_
      · exact sub_nonneg.2 hl
      · rw [sub_zero]
        exact hu
    exact if_neg (by simpa [Scalar.lt, Scalar.ofNat] using hprod)

theorem slope_across_one_ne_zero : limiter.slope (0 - limiter.across) (1 - 0) ≠ 0 := by
  cases limiter <;> decide +kernel

theorem slope_one_across_ne_zero : limiter.slope (0 - 1) (limiter.across - 0) ≠ 0 := by
  cases limiter <;> decide +kernel

end Limiter

/-! ## Flat values -/

/-- Values that make no slope next to zeros. -/
def FlatValues (limiter : Limiter) (values : Array ℚ) : Prop := ∀ v ∈ values, limiter.Flat v

theorem FlatValues.getD {limiter : Limiter} {values : Array ℚ} (h : FlatValues limiter values)
    (v : Nat) : limiter.Flat (values.getD v 0) := by
  rw [Array.getD_eq_getD_getElem?]
  rcases hv : values[v]? with _ | x
  · exact limiter.flat_zero
  · exact h x (Array.mem_of_getElem? hv)

theorem flatValues_replicate {limiter : Limiter} {a : ℚ} (ha : limiter.Flat a) (k : Nat) :
    FlatValues limiter (Array.replicate k a) := by
  intro v hv
  rw [(Array.mem_replicate.1 hv).2]
  exact ha

theorem getD_replicate (k : Nat) (a : ℚ) {v : Nat} (hv : v < k) :
    (Array.replicate k a).getD v 0 = a := by
  rw [Array.getD_eq_getD_getElem?, Array.getElem?_replicate, if_pos hv]
  rfl

variable {D : Nat} {L : Type} [LocationCode D L] {limiter : Limiter}

/-- Next to flat values along all axes but one, a projection from zeros follows that axis. -/
theorem getD_plane_of_flat {lower upper : Fin D → Array ℚ} {delta : Fin D → ℚ} {k v : Nat}
    (hv : v < k) (hlower : ∀ d, (lower d).size = k) (hupper : ∀ d, (upper d).size = k) (d : Fin D)
    (hflat : ∀ i, i ≠ d → FlatValues limiter (lower i) ∧ FlatValues limiter (upper i)) :
    (plane limiter (Array.replicate k 0) lower upper delta).getD v 0 =
      limiter.slope (0 - (lower d).getD v 0) ((upper d).getD v 0 - 0) * delta d := by
  rw [getD_plane hv Array.size_replicate hlower hupper, getD_replicate k 0 hv, zero_add]
  refine Finset.sum_eq_single d (fun i _ hi => ?_) fun h => absurd (Finset.mem_univ d) h
  obtain ⟨hl, hu⟩ := hflat i hi
  rw [Limiter.slope_of_flat (hl.getD v) (hu.getD v), zero_mul]

namespace Mesh

variable {mesh : Mesh D L ℚ}

omit [LocationCode D L] in
theorem keptByMeans_flatValues (hcell : ∀ n tile c values, mesh.tile? n = some tile →
    mesh.layout.Inside c → tile.get c = .ok values → FlatValues limiter values) :
    mesh.KeptByMeans (FlatValues limiter) where
  zeros := flatValues_replicate limiter.flat_zero _
  add ha hb v hv := by
    obtain ⟨i, hi, rfl⟩ := Array.mem_iff_getElem.1 hv
    rw [Array.getElem_zipWith]
    exact (ha _ (Array.getElem_mem _)).add (hb _ (Array.getElem_mem _))
  scale ha v hv := by
    obtain ⟨a, ha', rfl⟩ := Array.mem_map.1 hv
    exact (ha a ha').mul (by positivity)
  cell := hcell _ _ _ _

variable [Dimension D] {n b : mesh.tree.Node} {c source : Cell D}

/-! ## Projections -/

/-- The centre of a cell is on no middle plane of a cell of a coarser level. -/
theorem Built.along_centre_ne (hb : mesh.Built) (h : mesh.tree.level b < mesh.tree.level n)
    (d : Fin D) : (mesh.centre n c).along d ≠ (mesh.centre b source).along d := by
  obtain ⟨k, hk⟩ := Nat.exists_eq_add_of_lt h
  rw [along_centre, along_centre, mesh.config.spacing_add (mesh.tree.level b) (k + 1),
    ← Nat.add_assoc, ← hk]
  intro heq
  have hpos := (hb.spacing_pos (mesh.tree.level n)).ne'
  generalize mesh.config.cellIndex (mesh.tree.location n) c d = g at heq
  generalize mesh.config.cellIndex (mesh.tree.location b) source d = g' at heq
  have hcancel : ((g : ℚ) + 1 / 2) = (g' + 1 / 2) * 2 ^ (k + 1) := by
    refine mul_right_cancel₀ hpos ?_
    linarith
  have hint : 2 * g + 1 = 2 * ((2 * g' + 1) * 2 ^ k) := by
    have : (2 * g + 1 : ℚ) = 2 * ((2 * g' + 1) * 2 ^ k) := by
      rw [pow_succ] at hcancel
      linarith
    exact_mod_cast this
  omega

variable [LawfulLocation L]

/-- What is projected from a zero with flat values along all axes but one. -/
theorem exists_phaseTwoAt_of_flat (ht : mesh.tree.Valid) (hb : mesh.Built)
    (hn : mesh.tree.isLeaf n = true) (hc : mesh.layout.IsHaloCell c) {coarse : Tile D ℚ}
    (hcoarse : mesh.tile? b = some coarse) (hlevel : mesh.tree.level b < mesh.tree.level n)
    (hlies : mesh.config.LiesIn (mesh.centre n c) (mesh.tree.location b))
    (hsource : mesh.config.internalCellAt (mesh.tree.level b) (mesh.centre n c) = source)
    (hcenter : coarse.get source = .ok (Array.replicate mesh.config.variableCount 0)) (d : Fin D)
    (hflat : ∀ i steps, i ≠ d → steps = 1 ∨ steps = -1 → ∀ values,
      coarse.get (TileLayout.stepped source i steps) = .ok values → FlatValues limiter values)
    {lower upper : Array ℚ} (hlower : coarse.get (TileLayout.stepped source d (-1)) = .ok lower)
    (hupper : coarse.get (TileLayout.stepped source d 1) = .ok upper) :
    ∃ values, mesh.phaseTwoAt limiter n c =
        .ok (some ⟨mesh.layout.offset c, values, .projected⟩) ∧
      values.size = mesh.config.variableCount ∧ ∀ v < mesh.config.variableCount,
        values.getD v 0 = limiter.slope (0 - lower.getD v 0) (upper.getD v 0 - 0) *
          (((mesh.centre n c).along d - (mesh.centre b source).along d) /
            mesh.config.spacing (mesh.tree.level b)) := by
  obtain ⟨hbleaf, hof⟩ := hb.isLeaf_of_tile hcoarse
  have hs : mesh.layout.Inside source := hsource ▸ hb.inside_internalCellAt _ _
  obtain ⟨tile, values, htile, hvalues, hwrite⟩ :=
    exists_phaseTwoAt_projected ht hb limiter hn hc hbleaf hlevel hlies
  obtain rfl := Option.some.inj (hcoarse.symm.trans htile)
  obtain ⟨lowers, uppers, hlowers, huppers, hlowersize, huppersize⟩ := hof.exists_around hs
  obtain rfl : lowers d = lower := Except.ok.inj ((hlowers d).symm.trans hlower)
  obtain rfl : uppers d = upper := Except.ok.inj ((huppers d).symm.trans hupper)
  rw [hsource, hof.project_eq hs (hof.cellCentroid_eq hb hs.contains) hcenter hlowers huppers,
    hof.cellLength_eq hb] at hvalues
  obtain rfl := Except.ok.inj hvalues
  refine ⟨_, hwrite, size_plane Array.size_replicate hlowersize huppersize, fun v hv => ?_⟩
  exact getD_plane_of_flat hv hlowersize huppersize d fun i hi =>
    ⟨hflat i (-1) hi (Or.inr rfl) _ (hlowers i), hflat i 1 hi (Or.inl rfl) _ (huppers i)⟩

/-- What is projected from a zero with flat values all around is zero. -/
theorem exists_phaseTwoAt_zero (limiter : Limiter) (ht : mesh.tree.Valid) (hb : mesh.Built)
    (hn : mesh.tree.isLeaf n = true) (hc : mesh.layout.IsHaloCell c) {coarse : Tile D ℚ}
    (hcoarse : mesh.tile? b = some coarse) (hlevel : mesh.tree.level b < mesh.tree.level n)
    (hlies : mesh.config.LiesIn (mesh.centre n c) (mesh.tree.location b))
    (hsource : mesh.config.internalCellAt (mesh.tree.level b) (mesh.centre n c) = source)
    (hcenter : coarse.get source = .ok (Array.replicate mesh.config.variableCount 0))
    (hflat : ∀ i steps, steps = 1 ∨ steps = -1 → ∀ values,
      coarse.get (TileLayout.stepped source i steps) = .ok values → FlatValues limiter values) :
    ∃ values, mesh.phaseTwoAt limiter n c =
        .ok (some ⟨mesh.layout.offset c, values, .projected⟩) ∧
      values.size = mesh.config.variableCount ∧
        ∀ v < mesh.config.variableCount, values.getD v 0 = 0 := by
  have hof := (hb.isLeaf_of_tile hcoarse).2
  have hs : mesh.layout.Inside source := hsource ▸ hb.inside_internalCellAt _ _
  let d : Fin D := ⟨0, Dimension.pos⟩
  obtain ⟨lower, upper, hlower, hupper, -, -⟩ := hof.exists_around hs
  obtain ⟨values, hwrite, hsize, hvalues⟩ := exists_phaseTwoAt_of_flat ht hb hn hc hcoarse hlevel
    hlies hsource hcenter d (fun i steps _ => hflat i steps) (hlower d) (hupper d)
  refine ⟨values, hwrite, hsize, fun v hv => ?_⟩
  rw [hvalues v hv, Limiter.slope_of_flat ((hflat d (-1) (Or.inr rfl) _ (hlower d)).getD v)
    ((hflat d 1 (Or.inl rfl) _ (hupper d)).getD v), zero_mul]

/-! ## A probe -/

/-- All cells hold zero but one halo cell of a leaf, which holds one, and one internal cell. -/
structure Probe (mesh : Mesh D L ℚ) (limiter : Limiter) (b : mesh.tree.Node)
    (halo opposite : Cell D) : Prop where
  isHaloCell : mesh.layout.IsHaloCell halo
  one {tile : Tile D ℚ} : mesh.tile? b = some tile →
    tile.get halo = .ok (Array.replicate mesh.config.variableCount 1)
  across {tile : Tile D ℚ} : mesh.tile? b = some tile →
    tile.get opposite = .ok (Array.replicate mesh.config.variableCount limiter.across)
  zero {n : mesh.tree.Node} {tile : Tile D ℚ} {c : Cell D} : mesh.tile? n = some tile →
    mesh.layout.Contains c → (n = b → c ≠ halo ∧ c ≠ opposite) →
      tile.get c = .ok (Array.replicate mesh.config.variableCount 0)

variable {halo opposite : Cell D}

omit [LawfulLocation L] in
theorem Built.exists_probe (hb : mesh.Built) (limiter : Limiter) (b : mesh.tree.Node)
    (hhalo : mesh.layout.IsHaloCell halo) (hopposite : mesh.layout.Inside opposite) :
    ∃ tiles, mesh.SameFrames tiles ∧ (mesh.withTiles tiles).Probe limiter b halo opposite := by
  classical
  have hne : opposite ≠ halo := fun h => hhalo.2 (h ▸ hopposite)
  let value (n : mesh.tree.Node) (c : Cell D) : ℚ :=
    if n = b ∧ c = halo then 1 else if n = b ∧ c = opposite then limiter.across else 0
  obtain ⟨tiles, hframes, hget⟩ := hb.exists_values
    (f := fun n c => Array.replicate mesh.config.variableCount (value n c))
    fun n c => Array.size_replicate
  have hone : value b halo = 1 := if_pos ⟨rfl, rfl⟩
  have hacross : value b opposite = limiter.across :=
    (if_neg fun h => hne h.2).trans (if_pos ⟨rfl, rfl⟩)
  refine ⟨tiles, hframes, {
    isHaloCell := hhalo
    one := fun htile => ?_
    across := fun htile => ?_
    zero := fun {n tile c} htile hc hother => ?_ }⟩
  · rw [hget b _ htile halo hhalo.1, hone]
    rfl
  · rw [hget b _ htile opposite hopposite.contains, hacross]
    rfl
  · have hzero : value n c = 0 :=
      (if_neg fun h => (hother h.1).1 h.2).trans (if_neg fun h => (hother h.1).2 h.2)
    rw [hget n _ htile c hc, hzero]
    rfl

namespace Probe

omit [LawfulLocation L] [LocationCode D L] [Dimension D] in
theorem flat (hp : mesh.Probe limiter b halo opposite) {tile : Tile D ℚ} {values : Array ℚ}
    (htile : mesh.tile? n = some tile) (hc : mesh.layout.Contains c) (hother : n = b → c ≠ halo)
    (hvalues : tile.get c = .ok values) : FlatValues limiter values := by
  by_cases h : n = b ∧ c = opposite
  · obtain ⟨rfl, rfl⟩ := h
    rw [hp.across htile] at hvalues
    rw [← Except.ok.inj hvalues]
    exact flatValues_replicate limiter.flat_across _
  · rw [hp.zero htile hc fun hn => ⟨hother hn, fun hco => h ⟨hn, hco⟩⟩] at hvalues
    rw [← Except.ok.inj hvalues]
    exact flatValues_replicate limiter.flat_zero _

omit [LawfulLocation L] [LocationCode D L] [Dimension D] in
theorem flat_of_inside (hp : mesh.Probe limiter b halo opposite) {tile : Tile D ℚ}
    {values : Array ℚ} (htile : mesh.tile? n = some tile) (hc : mesh.layout.Inside c)
    (hvalues : tile.get c = .ok values) : FlatValues limiter values :=
  hp.flat htile hc.contains (fun _ h => hp.isHaloCell.2 (h ▸ hc)) hvalues

variable {one two one' two' : ExchangeStats}
  {tiles tiles' again again' : Vector (Option (Tile D ℚ)) mesh.tree.size} {a : Tile D ℚ}
  {values : Array ℚ}

/-- After phase one all cells but the probed one are flat. -/
theorem flat_first (hp : mesh.Probe limiter b halo opposite) (hb : mesh.Built)
    (ht : mesh.tree.Valid) (h : mesh.ExchangeResult limiter one two tiles tiles')
    (ha : tiles.get n = some a) (hc : mesh.layout.Contains c) (hother : n = b → c ≠ halo)
    (hvalues : a.get c = .ok values) : FlatValues limiter values := by
  obtain ⟨a₀, ha₀, -⟩ := h.first.frames.symm.exists_of_tile ha
  by_cases hin : mesh.layout.Inside c
  · rw [h.first.inside ha₀ ha c hin] at hvalues
    exact hp.flat_of_inside ha₀ hin hvalues
  · obtain ⟨r, hr, hflat⟩ := exists_phaseOneAt ht hb (keptByMeans_flatValues fun _ _ _ _ =>
      hp.flat_of_inside) (hb.isLeaf_of_tile ha₀).1 ⟨hc, hin⟩
    obtain ⟨r', hr', hget⟩ := h.first.halo ha₀ ha c ⟨hc, hin⟩
    obtain rfl := Except.ok.inj (hr.symm.trans hr')
    rw [hget] at hvalues
    rcases r with _ | w
    · exact hp.flat ha₀ hc hother hvalues
    · exact Except.ok.inj hvalues ▸ hflat w rfl

/-- What is projected to the probed leaf is flat. -/
theorem flat_projected (hp : mesh.Probe limiter b halo opposite) (hb : mesh.Built)
    (ht : mesh.tree.Valid) (h : mesh.ExchangeResult limiter one two tiles tiles')
    (hc : mesh.layout.IsHaloCell c) {w : CellUpdate ℚ}
    (hw : (mesh.withTiles tiles).phaseTwoAt limiter b c = .ok (some w)) :
    FlatValues limiter w.values := by
  obtain ⟨⟨coarse, source⟩, hsource⟩ := exists_projectionSource_of_phaseTwoAt hw
  obtain ⟨⟨m, hcoarse⟩, -⟩ := of_projectionSource hsource
  have ht' : (mesh.withTiles tiles).tree.Valid := ht
  obtain ⟨hn, hm, hlevel, hlies, rfl⟩ := (projectsFrom_iff ht' h.built hc).1
    ⟨coarse, hcoarse, hsource⟩
  have hmb : m ≠ b := fun hmb => by
    rw [hmb] at hlevel
    exact lt_irrefl _ hlevel
  have hs := h.built.inside_internalCellAt ((mesh.withTiles tiles).tree.level m)
    ((mesh.withTiles tiles).centre b c)
  obtain ⟨a₀, ha₀, -⟩ := h.first.frames.symm.exists_of_tile hcoarse
  have hcenter := h.first.inside ha₀ hcoarse _ hs
  rw [hp.zero ha₀ hs.contains fun hm => absurd hm hmb] at hcenter
  obtain ⟨values, hwrite, hsize, hzero⟩ := exists_phaseTwoAt_zero limiter ht' h.built hn hc
    hcoarse hlevel hlies rfl hcenter fun i steps hsteps values hvalues =>
      hp.flat_first hb ht h hcoarse (hs.contains_stepped i (by omega)) (fun hm => absurd hm hmb)
        hvalues
  obtain rfl := Option.some.inj (Except.ok.inj (hw.symm.trans hwrite))
  intro v hv
  obtain ⟨i, hi, rfl⟩ := Array.mem_iff_getElem.1 hv
  have := hzero i (hsize ▸ hi)
  rw [Array.getD_eq_getD_getElem?, Array.getElem?_eq_getElem hi] at this
  exact (show values[i] = 0 from this) ▸ limiter.flat_zero

/-- Phase one of a second exchange leaves all cells of the probed leaf flat, if the first exchange
projects to the probed cell. -/
theorem flat_second (hp : mesh.Probe limiter b halo opposite) (hb : mesh.Built)
    (ht : mesh.tree.Valid) (h : mesh.ExchangeResult limiter one two tiles tiles')
    (h' : (mesh.withTiles tiles').ExchangeResult limiter one' two' again again')
    {w : CellUpdate ℚ} (hw : (mesh.withTiles tiles).phaseTwoAt limiter b halo = .ok (some w))
    (ha : again.get b = some a) (hc : mesh.layout.Contains c) (hvalues : a.get c = .ok values) :
    FlatValues limiter values := by
  have ht' : (mesh.withTiles tiles').tree.Valid := ht
  have hinside {n : mesh.tree.Node} {a : Tile D ℚ} {c : Cell D} {values : Array ℚ}
      (ha : tiles'.get n = some a) (hc : mesh.layout.Inside c) (hvalues : a.get c = .ok values) :
      FlatValues limiter values := by
    obtain ⟨a₁, ha₁, -⟩ := h.second.frames.symm.exists_of_tile ha
    obtain ⟨a₀, ha₀, -⟩ := h.first.frames.symm.exists_of_tile ha₁
    rw [h.second.inside ha₁ ha c hc, h.first.inside ha₀ ha₁ c hc] at hvalues
    exact hp.flat_of_inside ha₀ hc hvalues
  obtain ⟨a₂, ha₂, -⟩ := h'.first.frames.symm.exists_of_tile ha
  obtain ⟨a₁, ha₁, -⟩ := h.second.frames.symm.exists_of_tile ha₂
  by_cases hin : mesh.layout.Inside c
  · rw [h'.first.inside ha₂ ha c hin] at hvalues
    exact hinside ha₂ hin hvalues
  · obtain ⟨r, hr, hflat⟩ := exists_phaseOneAt ht' h.built' (keptByMeans_flatValues fun _ _ _ _ =>
      hinside) (h.built'.isLeaf_of_tile ha₂).1 ⟨hc, hin⟩
    obtain ⟨r', hr', hget⟩ := h'.first.halo ha₂ ha c ⟨hc, hin⟩
    obtain rfl := Except.ok.inj (hr.symm.trans hr')
    rw [hget] at hvalues
    rcases r with _ | w₁
    · obtain ⟨r₂, hr₂, hget₂⟩ := h.second.halo ha₁ ha₂ c ⟨hc, hin⟩
      rw [Option.elim_none, hget₂] at hvalues
      rcases r₂ with _ | w₂
      · refine hp.flat_first hb ht h ha₁ hc (fun _ hch => ?_) hvalues
        rw [hch, hw] at hr₂
        cases Except.ok.inj hr₂
      · exact Except.ok.inj hvalues ▸ hp.flat_projected hb ht h ⟨hc, hin⟩ hr₂
    · exact Except.ok.inj hvalues ▸ hflat w₁ rfl

end Probe

section Stale

variable {d : Fin D} {steps : ℤ} {m : mesh.tree.Node} {source' : Cell D}
  {one two one' two' : ExchangeStats}
  {tiles tiles' again again' : Vector (Option (Tile D ℚ)) mesh.tree.size}

omit [LawfulLocation L] [LocationCode D L] [Dimension D] in
theorem stepped_ne (hs : mesh.layout.Inside source) (hsteps : steps = 1 ∨ steps = -1) {c : Cell D}
    (hc : c.get d = source.get d) : c ≠ TileLayout.stepped source d steps := by
  rintro rfl
  have hd := hs d
  have hpos := mesh.layout.haloLayers_pos
  rw [TileLayout.get_stepped, if_pos rfl] at hc
  omega

omit [LawfulLocation L] [Dimension D] in
/-- Across a cell at the border lies an internal cell. -/
theorem Built.inside_stepped_neg (hb : mesh.Built) (hs : mesh.layout.Inside source)
    (hsteps : steps = 1 ∨ steps = -1)
    (hhalo : mesh.layout.IsHaloCell (TileLayout.stepped source d steps)) :
    mesh.layout.Inside (TileLayout.stepped source d (-steps)) := by
  by_contra hout
  have htwo := (MeshConfig.of_validate hb.validate_eq).1
  have hborder := hs.border hsteps hhalo.2
  have hborder' := hs.border (show -steps = 1 ∨ -steps = -1 by omega) hout
  rw [hb.layout_eq.1] at hborder hborder'
  omega

namespace Probe

omit [LawfulLocation L] [LocationCode D L] [Dimension D] in
/-- The source next to the probed cell holds zero. -/
theorem get_source (hp : mesh.Probe limiter b (TileLayout.stepped source d steps)
    (TileLayout.stepped source d (-steps))) (hs : mesh.layout.Inside source)
    (hsteps : steps = 1 ∨ steps = -1) {tile : Tile D ℚ} (htile : mesh.tile? b = some tile) :
    tile.get source = .ok (Array.replicate mesh.config.variableCount 0) :=
  hp.zero htile hs.contains fun _ =>
    ⟨stepped_ne hs hsteps rfl, stepped_ne hs (by omega) rfl⟩

/-- Phase one leaves the probed halo cell alone. -/
theorem get_halo {halo opposite : Cell D} (hp : mesh.Probe limiter b halo opposite)
    (hb : mesh.Built) (ht : mesh.tree.Valid) (hstale : mesh.ProjectsFrom b halo m source')
    (h : mesh.ExchangeResult limiter one two tiles tiles') {a : Tile D ℚ}
    (ha : tiles.get b = some a) :
    a.get halo = .ok (Array.replicate mesh.config.variableCount 1) := by
  obtain ⟨hbleaf, hm, hmlevel, hmlies, -⟩ := (projectsFrom_iff ht hb hp.isHaloCell).1 hstale
  obtain ⟨before, hbefore, -⟩ := h.first.frames.symm.exists_of_tile ha
  have hnone : mesh.phaseOneAt b halo = .ok none :=
    phaseOneAt_eq_none ht hb hbleaf hp.isHaloCell fun e he helies => by
      rw [eq_of_liesIn ht he hm helies hmlies]
      exact hmlevel
  obtain ⟨r, hr, hget⟩ := h.first.halo hbefore ha _ hp.isHaloCell
  obtain rfl := Except.ok.inj (hr.symm.trans hnone)
  rw [hget]
  exact hp.one hbefore

/-- The first exchange finds a slope. -/
theorem exists_first_ne_zero (hp : mesh.Probe limiter b (TileLayout.stepped source d steps)
    (TileLayout.stepped source d (-steps))) (hb : mesh.Built) (ht : mesh.tree.Valid)
    (hc : mesh.layout.IsHaloCell c) (hsource : mesh.ProjectsFrom n c b source)
    (hsteps : steps = 1 ∨ steps = -1)
    (hstale : mesh.ProjectsFrom b (TileLayout.stepped source d steps) m source')
    (h : mesh.ExchangeResult limiter one two tiles tiles') :
    ∃ w, (mesh.withTiles tiles).phaseTwoAt limiter n c = .ok (some w) ∧
      w.values.getD 0 0 ≠ 0 := by
  have ht' : (mesh.withTiles tiles).tree.Valid := ht
  obtain ⟨hn, hbleaf, hlevel, hlies, hsrc⟩ := (projectsFrom_iff ht hb hc).1 hsource
  have hs : mesh.layout.Inside source := hsrc ▸ hb.inside_internalCellAt _ _
  have hacross := hb.inside_stepped_neg hs hsteps hp.isHaloCell
  have hcount : 0 < mesh.config.variableCount :=
    Nat.pos_of_ne_zero (MeshConfig.of_validate hb.validate_eq).2.2.1
  obtain ⟨a₁, ha₁, -⟩ := h.built.exists_tile hbleaf
  obtain ⟨a₀, ha₀, -⟩ := h.first.frames.symm.exists_of_tile ha₁
  have hone := hp.get_halo hb ht hstale h ha₁
  have hopposite := (h.first.inside ha₀ ha₁ _ hacross).trans (hp.across ha₀)
  have hcenter := (h.first.inside ha₀ ha₁ _ hs).trans (hp.get_source hs hsteps ha₀)
  have hflat (i : Fin D) (steps' : ℤ) (hi : i ≠ d) (hsteps' : steps' = 1 ∨ steps' = -1)
      (values : Array ℚ) (hvalues : a₁.get (TileLayout.stepped source i steps') = .ok values) :
      FlatValues limiter values :=
    hp.flat_first hb ht h ha₁ (hs.contains_stepped i (by omega)) (fun _ => stepped_ne hs hsteps (by
      rw [TileLayout.get_stepped, if_neg (Ne.symm hi)])) hvalues
  have hdelta : ((mesh.withTiles tiles).centre n c).along d -
      ((mesh.withTiles tiles).centre b source).along d ≠ 0 :=
    sub_ne_zero.2 (h.built.along_centre_ne hlevel d)
  have hspacing := (hb.spacing_pos (mesh.tree.level b)).ne'
  rcases hsteps with rfl | rfl
  · obtain ⟨values, hwrite, -, hvalues⟩ := exists_phaseTwoAt_of_flat ht' h.built hn hc ha₁ hlevel
      hlies hsrc.symm hcenter d hflat hopposite hone
    refine ⟨_, hwrite, ?_⟩
    rw [hvalues 0 hcount, getD_replicate _ _ hcount, getD_replicate _ _ hcount]
    exact mul_ne_zero Limiter.slope_across_one_ne_zero (div_ne_zero hdelta hspacing)
  · obtain ⟨values, hwrite, -, hvalues⟩ := exists_phaseTwoAt_of_flat ht' h.built hn hc ha₁ hlevel
      hlies hsrc.symm hcenter d hflat hone hopposite
    refine ⟨_, hwrite, ?_⟩
    rw [hvalues 0 hcount, getD_replicate _ _ hcount, getD_replicate _ _ hcount]
    exact mul_ne_zero Limiter.slope_one_across_ne_zero (div_ne_zero hdelta hspacing)

/-- The second exchange finds none. -/
theorem exists_second_eq_zero (hp : mesh.Probe limiter b (TileLayout.stepped source d steps)
    (TileLayout.stepped source d (-steps))) (hb : mesh.Built) (ht : mesh.tree.Valid)
    (hc : mesh.layout.IsHaloCell c) (hsource : mesh.ProjectsFrom n c b source)
    (hsteps : steps = 1 ∨ steps = -1)
    (hstale : mesh.ProjectsFrom b (TileLayout.stepped source d steps) m source')
    (h : mesh.ExchangeResult limiter one two tiles tiles')
    (h' : (mesh.withTiles tiles').ExchangeResult limiter one' two' again again') :
    ∃ w, (mesh.withTiles again).phaseTwoAt limiter n c = .ok (some w) ∧
      w.values.getD 0 0 = 0 := by
  have ht₁ : (mesh.withTiles tiles).tree.Valid := ht
  have ht₃ : (mesh.withTiles again).tree.Valid := ht
  obtain ⟨hn, hbleaf, hlevel, hlies, hsrc⟩ := (projectsFrom_iff ht hb hc).1 hsource
  obtain ⟨-, hm, hmlevel, hmlies, -⟩ := (projectsFrom_iff ht hb hp.isHaloCell).1 hstale
  have hs : mesh.layout.Inside source := hsrc ▸ hb.inside_internalCellAt _ _
  have hcount : 0 < mesh.config.variableCount :=
    Nat.pos_of_ne_zero (MeshConfig.of_validate hb.validate_eq).2.2.1
  obtain ⟨_, _, _, _, hw⟩ := exists_phaseTwoAt_projected ht₁ h.built limiter hbleaf hp.isHaloCell hm
    hmlevel hmlies
  obtain ⟨a₃, ha₃, -⟩ := h'.built.exists_tile hbleaf
  obtain ⟨a₂, ha₂, -⟩ := h'.first.frames.symm.exists_of_tile ha₃
  obtain ⟨a₁, ha₁, -⟩ := h.second.frames.symm.exists_of_tile ha₂
  obtain ⟨a₀, ha₀, -⟩ := h.first.frames.symm.exists_of_tile ha₁
  have hcenter : a₃.get source = .ok (Array.replicate mesh.config.variableCount 0) := by
    rw [h'.first.inside ha₂ ha₃ _ hs, h.second.inside ha₁ ha₂ _ hs, h.first.inside ha₀ ha₁ _ hs]
    exact hp.get_source hs hsteps ha₀
  obtain ⟨values, hwrite, -, hzero⟩ := exists_phaseTwoAt_zero limiter ht₃ h'.built hn hc ha₃ hlevel hlies
    hsrc.symm hcenter fun i steps' hsteps' values hvalues =>
      hp.flat_second hb ht h h' hw ha₃ (hs.contains_stepped i (by omega)) hvalues
  exact ⟨_, hwrite, hzero 0 hcount⟩

/-- A second exchange changes the mesh. -/
theorem ne_again (hp : mesh.Probe limiter b (TileLayout.stepped source d steps)
    (TileLayout.stepped source d (-steps))) (hb : mesh.Built) (ht : mesh.tree.Valid)
    (hc : mesh.layout.IsHaloCell c) (hsource : mesh.ProjectsFrom n c b source)
    (hsteps : steps = 1 ∨ steps = -1)
    (hstale : mesh.ProjectsFrom b (TileLayout.stepped source d steps) m source')
    (h : mesh.ExchangeResult limiter one two tiles tiles')
    (h' : (mesh.withTiles tiles').ExchangeResult limiter one' two' again again') :
    again' ≠ tiles' := by
  rintro rfl
  obtain ⟨w, hw, hne⟩ := hp.exists_first_ne_zero hb ht hc hsource hsteps hstale h
  obtain ⟨w', hw', hzero⟩ := hp.exists_second_eq_zero hb ht hc hsource hsteps hstale h h'
  have hn := ((projectsFrom_iff ht hb hc).1 hsource).1
  obtain ⟨a₃, ha₃, -⟩ := h'.built.exists_tile hn
  obtain ⟨a₂, ha₂, -⟩ := h'.first.frames.symm.exists_of_tile ha₃
  obtain ⟨a₁, ha₁, -⟩ := h.second.frames.symm.exists_of_tile ha₂
  obtain ⟨r, hr, hget⟩ := h.second.halo ha₁ ha₂ c hc
  obtain ⟨r', hr', hget'⟩ := h'.second.halo ha₃ ha₂ c hc
  obtain rfl := Except.ok.inj (hr.symm.trans hw)
  obtain rfl := Except.ok.inj (hr'.symm.trans hw')
  have hvalues : w.values = w'.values := Except.ok.inj (hget.symm.trans hget')
  rw [hvalues] at hne
  exact hne hzero

end Probe

end Stale

/-- If a projection reads a projected cell, there are values that a second exchange changes. -/
theorem exists_exchange_ne (ht : mesh.tree.Valid) (hb : mesh.Built) (haddr : mesh.Addressable)
    (limiter : Limiter) (hstale : mesh.StaleRead) :
    ∃ tiles, mesh.SameFrames tiles ∧ ∃ stats after stats' after',
      (mesh.withTiles tiles).exchange limiter = .ok (stats, after) ∧
        after.exchange limiter = .ok (stats', after') ∧ after' ≠ after := by
  obtain ⟨n, c, b, source, m, source', d, steps, hc, hsource, hsteps, hhalo, hsource'⟩ := hstale
  obtain ⟨-, -, -, -, hsrc⟩ := (projectsFrom_iff ht hb hc).1 hsource
  have hs : mesh.layout.Inside source := hsrc ▸ hb.inside_internalCellAt _ _
  obtain ⟨tiles, hframes, hp⟩ := hb.exists_probe limiter b hhalo
    (hb.inside_stepped_neg hs hsteps hhalo)
  have hb₀ := hb.withTiles hframes
  have ht₀ : (mesh.withTiles tiles).tree.Valid := ht
  obtain ⟨⟨stats, after⟩, hrun⟩ := exists_exchange ht₀ hb₀ haddr limiter
  obtain ⟨one, two, tiles₁, tiles₂, h, rfl, -⟩ := exchange_eq_ok hb₀ hrun
  have ht₂ : (mesh.withTiles tiles₂).tree.Valid := ht
  obtain ⟨⟨stats', after'⟩, hrun'⟩ := exists_exchange ht₂ h.built' haddr limiter
  obtain ⟨one', two', tiles₃, tiles₄, h', rfl, -⟩ := exchange_eq_ok h.built' hrun'
  refine ⟨tiles, hframes, stats, _, stats', _, hrun, hrun', fun heq => ?_⟩
  exact hp.ne_again hb₀ ht₀ hc (hsource.withTiles hb hframes) hsteps
    (hsource'.withTiles hb hframes) h h' (withTiles_injective heq)

/-- An exchange repeats itself, whatever the cells hold, exactly if no projection reads a projected
cell. That the condition suffices does not depend on the arithmetic. -/
theorem exchange_idempotent_iff :
    (∀ (S : Type) [Scalar S] (mesh : Mesh D L S), mesh.tree.Valid → mesh.Built → ¬ mesh.StaleRead →
      ∀ limiter stats after, mesh.exchange limiter = .ok (stats, after) →
        after.exchange limiter = .ok (stats, after)) ∧
    ∀ mesh : Mesh D L ℚ, mesh.tree.Valid → mesh.Built → mesh.Addressable → ∀ limiter,
      (∀ tiles, mesh.SameFrames tiles → ∃ stats after stats',
        (mesh.withTiles tiles).exchange limiter = .ok (stats, after) ∧
          after.exchange limiter = .ok (stats', after)) ↔ ¬ mesh.StaleRead := by
  refine ⟨fun S _ mesh _ hb hstale limiter stats after h => exchange_again hb hstale h,
    fun mesh ht hb haddr limiter => ⟨fun hall hstale => ?_, fun hstale tiles hframes => ?_⟩⟩
  · obtain ⟨tiles, hframes, stats, after, stats', after', hrun, hrun', hne⟩ :=
      exists_exchange_ne ht hb haddr limiter hstale
    obtain ⟨stats₁, after₁, stats₂, hrun₁, hrun₂⟩ := hall tiles hframes
    obtain ⟨rfl, rfl⟩ := Prod.mk.inj (Except.ok.inj (hrun₁.symm.trans hrun))
    exact hne (Prod.mk.inj (Except.ok.inj (hrun'.symm.trans hrun₂))).2
  · have hb₀ := hb.withTiles hframes
    have ht₀ : (mesh.withTiles tiles).tree.Valid := ht
    obtain ⟨⟨stats, after⟩, hrun⟩ := exists_exchange ht₀ hb₀ haddr limiter
    exact ⟨stats, after, stats, hrun, exchange_again hb₀
      (fun h => hstale (h.of_withTiles hb hframes)) hrun⟩

theorem exchange_idempotent_graded : ∃ mesh : Mesh 2 (GridLocation 2) ℚ,
    mesh.tree = Tree.graded ∧ mesh.tree.Valid ∧ mesh.Built ∧ mesh.Addressable ∧ ¬ mesh.StaleRead ∧
      (∀ limiter stats after, mesh.exchange limiter = .ok (stats, after) →
        after.exchange limiter = .ok (stats, after)) ∧
      ∀ tiles, mesh.SameFrames tiles → ∃ stats after stats',
        (mesh.withTiles tiles).exchange .minmod = .ok (stats, after) ∧
          after.exchange .minmod = .ok (stats', after) := by
  obtain ⟨mesh, htree, -, hb, haddr⟩ := exists_make_unit (D := 2) Tree.graded
  have haddr := haddr (by decide +kernel)
  have hg : mesh.tree.Grown := htree ▸ Tree.grown_graded
  have hstale := not_staleRead hb hg.valid hg.complete (htree ▸ Tree.balanced_graded)
  exact ⟨mesh, htree, hg.valid, hb, haddr, hstale,
    exchange_idempotent_iff.1 ℚ mesh hg.valid hb hstale,
    (exchange_idempotent_iff.2 mesh hg.valid hb haddr .minmod).2 hstale⟩

/-! ## Leaves of three levels -/

theorem exists_isLeafAt_steep : ∃ fine middle coarse, Tree.steep.IsLeafAt fine 3 #v[2, 3] ∧
    Tree.steep.IsLeafAt middle 2 #v[0, 1] ∧ Tree.steep.IsLeafAt coarse 1 #v[0, 1] := by
  refine ⟨⟨8, by decide⟩, ⟨4, by decide⟩, ⟨11, by decide⟩, ?_⟩
  unfold Tree.IsLeafAt
  decide +kernel

/-- A leaf of the third level projects from one of the second, next to one of the first. -/
theorem staleRead_steep {mesh : Mesh 2 (GridLocation 2) ℚ} (htree : mesh.tree = Tree.steep)
    (hconfig : mesh.config = .unit) (hb : mesh.Built) : mesh.StaleRead := by
  have hcells : mesh.config.internalCells = 4 := congrArg MeshConfig.internalCells hconfig
  have hlayers : mesh.config.haloLayers = 1 := congrArg MeshConfig.haloLayers hconfig
  have ht : mesh.tree.Valid := htree ▸ Tree.grown_steep.valid
  obtain ⟨fine, middle, coarse, ⟨hfine, hfinelevel, hfineplace⟩,
    ⟨hmiddle, hmiddlelevel, hmiddleplace⟩, ⟨hcoarse, hcoarselevel, hcoarseplace⟩⟩ :
      ∃ fine middle coarse, mesh.tree.IsLeafAt fine 3 #v[2, 3] ∧
        mesh.tree.IsLeafAt middle 2 #v[0, 1] ∧ mesh.tree.IsLeafAt coarse 1 #v[0, 1] :=
    htree ▸ exists_isLeafAt_steep
  let c : Cell 2 := #v[0, 3]
  let source : Cell 2 := mesh.config.internalCellAt (mesh.tree.level middle) (mesh.centre fine c)
  have hinside : mesh.layout.Inside source := hb.inside_internalCellAt _ _
  have hc : mesh.layout.IsHaloCell c := by
    refine ⟨fun d => ?_, fun hinside => ?_⟩
    · unfold TileLayout.extent
      rw [hb.layout_eq.1, hb.layout_eq.2, hcells, hlayers]
      revert d
      decide
    · have := (hinside 0).1
      rw [hb.layout_eq.2, hlayers] at this
      exact absurd this (by decide)
  have hindex (d : Fin 2) : mesh.config.cellIndex (mesh.tree.location fine) c d =
      (#v[7, 14] : Vector ℤ 2).get d := by
    unfold MeshConfig.cellIndex
    rw [hcells, hlayers, hfineplace]
    revert d
    decide
  have hle : mesh.tree.level middle ≤ mesh.tree.level fine := by omega
  have hlies : mesh.config.LiesIn (mesh.centre fine c) (mesh.tree.location middle) := by
    refine (hb.liesIn_centre_iff hle).2 fun d => ?_
    change _ / _ / 2 ^ (mesh.tree.level fine - mesh.tree.level middle) = _
    rw [hindex, hcells, hfinelevel, hmiddlelevel, hmiddleplace]
    revert d
    decide
  have hborder : source.get 1 = 4 := by
    have hsource : mesh.config.cellIndex (mesh.tree.location middle) source 1 = _ :=
      hb.cellIndex_internalCellAt hle hlies 1
    rw [hindex, hfinelevel, hmiddlelevel] at hsource
    unfold MeshConfig.cellIndex at hsource
    rw [hcells, hlayers, hmiddleplace] at hsource
    have hseven : (#v[7, 14] : Vector ℤ 2).get 1 / 2 ^ (3 - 2) = 7 := by decide
    have hplace : (#v[0, 1] : Vector Nat 2).get 1 = 1 := rfl
    rw [hseven, hplace] at hsource
    omega
  have hstepped : mesh.layout.IsHaloCell (TileLayout.stepped source 1 1) := by
    refine ⟨hinside.contains_stepped 1 (by decide), fun h => ?_⟩
    have := (h 1).2
    rw [TileLayout.get_stepped, if_pos rfl, hborder, hb.layout_eq.1, hb.layout_eq.2, hcells,
      hlayers] at this
    exact absurd this (by decide)
  have hbeyond : mesh.config.LiesIn (mesh.centre middle (TileLayout.stepped source 1 1))
      (mesh.tree.location coarse) := by
    refine (hb.liesIn_centre_iff (n := middle) (y := mesh.tree.location coarse) ?_).2 fun d => ?_
    · change mesh.tree.level coarse ≤ _
      omega
    · rw [hb.cellIndex_stepped_ediv hinside (Or.inl rfl) hstepped]
      change _ / 2 ^ (mesh.tree.level middle - mesh.tree.level coarse) = _
      rw [hmiddlelevel, hcoarselevel, hmiddleplace, hcoarseplace]
      revert d
      decide
  exact ⟨fine, c, middle, source, coarse, _, 1, 1, hc,
    (projectsFrom_iff ht hb hc).2 ⟨hfine, hmiddle, by omega, hlies, rfl⟩, Or.inl rfl, hstepped,
    (projectsFrom_iff ht hb hstepped).2 ⟨hmiddle, hcoarse, by omega, hbeyond, rfl⟩⟩

/-- On this tree a second exchange can change the mesh. -/
theorem exchange_twice_steep : ∃ mesh : Mesh 2 (GridLocation 2) ℚ,
    mesh.tree = Tree.steep ∧ mesh.tree.Grown ∧ mesh.Built ∧ ∃ stats after stats' after',
      mesh.exchange .unlimited = .ok (stats, after) ∧
        after.exchange .unlimited = .ok (stats', after') ∧ after' ≠ after := by
  obtain ⟨mesh, htree, hconfig, hb, haddr⟩ := exists_make_unit (D := 2) Tree.steep
  have hg : mesh.tree.Grown := htree ▸ Tree.grown_steep
  obtain ⟨tiles, hframes, hrun⟩ := exists_exchange_ne hg.valid hb (haddr (by decide +kernel))
    .unlimited (staleRead_steep htree hconfig hb)
  exact ⟨mesh.withTiles tiles, htree, hg, hb.withTiles hframes, hrun⟩

end Mesh

end AdaptiveMesh
