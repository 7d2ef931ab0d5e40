import AdaptiveMesh.Proofs.Grid
import AdaptiveMesh.Proofs.Tile.Basic

/-!
# Cells under points

In exact arithmetic a point has a place among the cells of a tile: its distance from the lowest
corner counted in cells, rounded down, which may be outside the tile. Everything that is asked about
the cells under a point is a comparison of that place with a whole number (`le_cellPlace_iff`), so
cells, the node's box and the box with its halo are all told by it. `LooksUpCells` says that looking
up a cell under a point undoes placing the cell in space.
-/

namespace AdaptiveMesh

variable {D : Nat} [Dimension D]

/-! ## Boxes without their upper faces -/

namespace Box

/-- The point lies in the box, whose upper faces do not belong to it. -/
def LiesOver (b : Box D ℚ) (p : Point ℚ) : Prop :=
  ∀ d : Fin D, b.lower.along d ≤ p.along d ∧ p.along d < b.upper.along d

end Box

namespace Tile

variable {tile : Tile D ℚ} {p : Point ℚ} {c c' : Cell D}

/-! ## Places among cells -/

/-- The point lies in the cell, which owns its lower faces and not its upper ones. -/
def Owns (tile : Tile D ℚ) (c : Cell D) (p : Point ℚ) : Prop :=
  ∀ d : Fin D,
    tile.box.lower.along d + ((c.get d : ℚ) - tile.layout.haloLayers) * tile.cellLength ≤ p.along d ∧
    p.along d <
      tile.box.lower.along d + ((c.get d : ℚ) - tile.layout.haloLayers + 1) * tile.cellLength

/-- The point lies in the box of the leaf or in the halo around it, both without their upper
faces. -/
def Reaches (tile : Tile D ℚ) (p : Point ℚ) : Prop :=
  ∀ d : Fin D, tile.box.lower.along d - tile.layout.haloLayers * tile.cellLength ≤ p.along d ∧
    p.along d < tile.box.upper.along d + tile.layout.haloLayers * tile.cellLength

/-- Distance of a point from the lowest corner of the halo, in cells. -/
def cellSteps (tile : Tile D ℚ) (p : Point ℚ) (d : Fin D) : ℚ :=
  (p.along d - tile.box.lower.along d) / tile.cellLength + tile.layout.haloLayers

/-- Number of the cell in which a point would lie if the cells went on without an end. -/
def cellPlace (tile : Tile D ℚ) (p : Point ℚ) (d : Fin D) : ℤ := ⌊tile.cellSteps p d⌋

omit [Dimension D] in
theorem cellLength_pos (h : 0 < tile.box.length) : 0 < tile.cellLength :=
  div_pos h (Nat.cast_pos.2 tile.layout.internalCells_pos)

omit [Dimension D] in
theorem internalCells_mul_cellLength :
    tile.layout.internalCells * tile.cellLength = tile.box.length :=
  mul_div_cancel₀ _ (Nat.cast_ne_zero.2 tile.layout.internalCells_pos.ne')

theorem le_cellPlace_iff (h : 0 < tile.cellLength) {k : ℤ} {d : Fin D} :
    k ≤ tile.cellPlace p d ↔
      tile.box.lower.along d + (k - tile.layout.haloLayers) * tile.cellLength ≤ p.along d := by
  rw [cellPlace, Int.le_floor, cellSteps, ← sub_le_iff_le_add, le_div_iff₀ h, le_sub_iff_add_le']

theorem cellPlace_lt_iff (h : 0 < tile.cellLength) {k : ℤ} {d : Fin D} :
    tile.cellPlace p d < k ↔
      p.along d < tile.box.lower.along d + (k - tile.layout.haloLayers) * tile.cellLength := by
  rw [← not_le, le_cellPlace_iff h, not_le]

theorem owns_iff (h : 0 < tile.cellLength) :
    tile.Owns c p ↔ ∀ d, tile.cellPlace p d = c.get d := by
  refine forall_congr' fun d => ?_
  have hlow := le_cellPlace_iff (p := p) h (k := c.get d) (d := d)
  have hup := cellPlace_lt_iff (p := p) h (k := c.get d + 1) (d := d)
  push_cast at hlow hup
  rw [add_sub_right_comm] at hup
  rw [← hlow, ← hup]
  omega

theorem liesOver_iff (h : 0 < tile.cellLength) : tile.box.LiesOver p ↔
    ∀ d, tile.layout.haloLayers ≤ tile.cellPlace p d ∧
      tile.cellPlace p d < tile.layout.haloLayers + tile.layout.internalCells := by
  refine forall_congr' fun d => ?_
  rw [le_cellPlace_iff h, cellPlace_lt_iff h, Box.along_upper, ← internalCells_mul_cellLength]
  push_cast
  rw [sub_self, zero_mul, add_zero, add_sub_cancel_left]

theorem reaches_iff (h : 0 < tile.cellLength) : tile.Reaches p ↔
    ∀ d, 0 ≤ tile.cellPlace p d ∧ tile.cellPlace p d < tile.layout.extent := by
  refine forall_congr' fun d => ?_
  have hup : tile.box.lower.along d + tile.box.length + tile.layout.haloLayers * tile.cellLength =
      tile.box.lower.along d +
        ((tile.layout.extent : ℤ) - tile.layout.haloLayers) * tile.cellLength := by
    rw [← internalCells_mul_cellLength, TileLayout.extent]
    push_cast
    ring
  rw [le_cellPlace_iff h, cellPlace_lt_iff h, Box.along_upper, hup, Int.cast_zero, zero_sub,
    neg_mul, ← sub_eq_add_neg]

theorem Owns.eq (h : 0 < tile.cellLength) (hc : tile.Owns c p) (hc' : tile.Owns c' p) : c = c' := by
  rw [owns_iff h] at hc hc'
  refine Vector.ext fun i hi => ?_
  exact Int.ofNat.inj ((hc ⟨i, hi⟩).symm.trans (hc' ⟨i, hi⟩))

/-- The cells of the tile are those over the points in its reach. -/
theorem Owns.contains_iff (h : 0 < tile.cellLength) (hc : tile.Owns c p) :
    tile.layout.Contains c ↔ tile.Reaches p := by
  rw [owns_iff h] at hc
  rw [reaches_iff h]
  refine forall_congr' fun d => ?_
  rw [hc]
  omega

/-- The internal cells are those over the points in the box of the leaf. -/
theorem Owns.inside_iff (h : 0 < tile.cellLength) (hc : tile.Owns c p) :
    tile.layout.Inside c ↔ tile.box.LiesOver p := by
  rw [owns_iff h] at hc
  rw [liesOver_iff h]
  refine forall_congr' fun d => ?_
  rw [hc]
  omega

theorem Reaches.exists_owns (h : 0 < tile.cellLength) (hp : tile.Reaches p) :
    ∃ c, tile.Owns c p := by
  rw [reaches_iff h] at hp
  refine ⟨Vector.ofFn fun d => (tile.cellPlace p d).toNat, (owns_iff h).2 fun d => ?_⟩
  have := (hp d).1
  simp [this]

theorem reaches_of_liesOver (h : 0 < tile.cellLength) (hp : tile.box.LiesOver p) :
    tile.Reaches p := by
  rw [liesOver_iff h] at hp
  refine (reaches_iff h).2 fun d => ?_
  have := hp d
  unfold TileLayout.extent
  omega

theorem reaches_iff_exists_owns (h : 0 < tile.cellLength) :
    tile.Reaches p ↔ ∃ c, tile.layout.Contains c ∧ tile.Owns c p := by
  constructor
  · intro hp
    obtain ⟨c, hc⟩ := hp.exists_owns h
    exact ⟨c, (hc.contains_iff h).2 hp, hc⟩
  · rintro ⟨c, hin, hc⟩
    exact (hc.contains_iff h).1 hin

theorem liesOver_iff_exists_owns (h : 0 < tile.cellLength) :
    tile.box.LiesOver p ↔ ∃ c, tile.layout.Inside c ∧ tile.Owns c p := by
  constructor
  · intro hp
    obtain ⟨c, hc⟩ := (reaches_of_liesOver h hp).exists_owns h
    exact ⟨c, (hc.inside_iff h).2 hp, hc⟩
  · rintro ⟨c, hin, hc⟩
    exact (hc.inside_iff h).1 hin

theorem halo_iff_exists_owns (h : 0 < tile.cellLength) :
    tile.Reaches p ∧ ¬ tile.box.LiesOver p ↔
      ∃ c, (tile.layout.Contains c ∧ ¬ tile.layout.Inside c) ∧ tile.Owns c p := by
  constructor
  · rintro ⟨hp, hout⟩
    obtain ⟨c, hc⟩ := hp.exists_owns h
    exact ⟨c, ⟨(hc.contains_iff h).2 hp, fun hin => hout ((hc.inside_iff h).1 hin)⟩, hc⟩
  · rintro ⟨c, ⟨hin, hhalo⟩, hc⟩
    exact ⟨(hc.contains_iff h).1 hin, fun hp => hhalo ((hc.inside_iff h).2 hp)⟩

/-- The centre of a cell is half a cell above its lower faces. -/
theorem owns_centroid (h : 0 < tile.cellLength) (c : Cell D) {x : Point ℚ}
    (hx : ∀ d : Fin D, x.along d = tile.box.lower.along d +
      ((c.get d : ℚ) - tile.layout.haloLayers + 1 / 2) * tile.cellLength) : tile.Owns c x := by
  intro d
  rw [hx]
  constructor <;> nlinarith

/-! ## Looking up cells -/

/-- The cell over a point is known from the place of the point. -/
theorem exists_cellContaining (h : tile.layout.Spans) (p : Point ℚ) :
    ∃ r, tile.cellContaining p = .ok r ∧ ∀ c, r = some c ↔ tile.layout.Contains c ∧
      ∀ d, tile.cellPlace p d = c.get d := by
  let steps : Vector ℚ D := Vector.ofFn (tile.cellSteps p)
  have hfloor (d : Fin D) : ⌊steps.get d⌋ = tile.cellPlace p d := by simp [steps, cellPlace]
  -- the bounds are compared before rounding down, and are whole numbers
  have hall : (steps.all fun q => Scalar.le (Scalar.ofNat 0) q &&
      Scalar.lt q (Scalar.ofNat tile.layout.extent)) = true ↔
        ∀ d : Fin D, 0 ≤ tile.cellPlace p d ∧ tile.cellPlace p d < tile.layout.extent := by
    rw [vector_all_iff]
    refine forall_congr' fun d => ?_
    rw [Bool.and_eq_true, ← hfloor, Int.floor_nonneg, Int.floor_lt]
    exact and_congr decide_eq_true_iff decide_eq_true_iff
  refine ⟨if steps.all fun q => Scalar.le (Scalar.ofNat 0) q &&
      Scalar.lt q (Scalar.ofNat tile.layout.extent) then some (steps.map Scalar.floor) else none,
    ?_, fun c => ?_⟩
  · unfold cellContaining
    rw [h.cellsPerLength, ok_bind, apply_ite Except.ok]
    rfl
  · have hget (d : Fin D) : (steps.map Scalar.floor).get d = (tile.cellPlace p d).toNat := by
      rw [← hfloor]
      simp only [Vector.get_eq_getElem, Vector.getElem_map]
      rfl
    rw [Option.ite_none_right_eq_some, Option.some.injEq, hall]
    constructor
    · rintro ⟨hin, rfl⟩
      refine ⟨fun d => ?_, fun d => ?_⟩
      · have := hin d
        rw [hget]
        omega
      · rw [hget]
        exact (Int.toNat_of_nonneg (hin d).1).symm
    · rintro ⟨hc, hplace⟩
      refine ⟨fun d => ?_, Vector.ext fun i hi => ?_⟩
      · rw [hplace]
        exact ⟨Int.natCast_nonneg _, Int.ofNat_lt.2 (hc d)⟩
      · refine (hget ⟨i, hi⟩).trans ?_
        rw [hplace]
        exact Int.toNat_natCast _

omit [Dimension D] in
/-- A cell that was found is kept if it passes a test that cells of the tile are not refused. -/
theorem exists_kept {r : Option (Cell D)} {test : Cell D → Except Fault Bool} {P Q : Cell D → Prop}
    (hr : ∀ c, r = some c ↔ tile.layout.Contains c ∧ Q c)
    (htest : ∀ c, tile.layout.Contains c → ∃ b, test c = .ok b ∧ (b = true ↔ P c)) :
    ∃ r', (r.elim (.ok none) fun c => do return if ← test c then some c else none) =
        (.ok r' : Except Fault (Option (Cell D))) ∧
      ∀ c, r' = some c ↔ (tile.layout.Contains c ∧ P c) ∧ Q c := by
  cases r with
  | none =>
    refine ⟨none, rfl, fun c => iff_of_false (by simp) fun hc => ?_⟩
    cases (hr c).2 ⟨hc.1.1, hc.2⟩
  | some c =>
    obtain ⟨hc, hq⟩ := (hr c).1 rfl
    obtain ⟨b, hb, hp⟩ := htest c hc
    refine ⟨if b then some c else none, ?_, fun c' => ?_⟩
    · show (do return if ← test c then some c else none) = _
      rw [hb]
      rfl
    · rw [Option.ite_none_right_eq_some, Option.some.injEq, hp]
      constructor
      · rintro ⟨hpc, rfl⟩
        exact ⟨⟨hc, hpc⟩, hq⟩
      · rintro ⟨⟨hc', hpc'⟩, hq'⟩
        obtain rfl := Option.some.inj ((hr c').2 ⟨hc', hq'⟩)
        exact ⟨hpc', rfl⟩

theorem exists_internalCellContaining (h : tile.layout.Spans) (p : Point ℚ) :
    ∃ r, tile.internalCellContaining p = .ok r ∧
      ∀ c, r = some c ↔ tile.layout.Inside c ∧ ∀ d, tile.cellPlace p d = c.get d := by
  obtain ⟨r, hr, hcell⟩ := exists_cellContaining h p
  obtain ⟨r', hr', hkept⟩ := exists_kept hcell fun c hc => h.isInternal hc
  simp only [and_iff_right_of_imp TileLayout.Inside.contains] at hkept
  refine ⟨r', ?_, hkept⟩
  rw [internalCellContaining, hr, ok_bind, ← hr']
  cases r <;> rfl

theorem exists_haloCellContaining (h : tile.layout.Spans) (p : Point ℚ) :
    ∃ r, tile.haloCellContaining p = .ok r ∧
      ∀ c, r = some c ↔ (tile.layout.Contains c ∧ ¬ tile.layout.Inside c) ∧
        ∀ d, tile.cellPlace p d = c.get d := by
  obtain ⟨r, hr, hcell⟩ := exists_cellContaining h p
  have hhalo (c : Cell D) (hc : tile.layout.Contains c) :
      ∃ b, tile.layout.isHalo c = .ok b ∧ (b = true ↔ ¬ tile.layout.Inside c) := by
    obtain ⟨b, hb, hinside⟩ := h.isInternal hc
    refine ⟨!b, ?_, ?_⟩
    · rw [TileLayout.isHalo, hb]
      rfl
    · rw [← hinside, Bool.not_eq_true', Bool.not_eq_true]
  obtain ⟨r', hr', hkept⟩ := exists_kept hcell hhalo
  refine ⟨r', ?_, hkept⟩
  rw [haloCellContaining, hr, ok_bind, ← hr']
  cases r <;> rfl

end Tile

/-! ## Cells and boxes -/

/-- What looking up cells under points answers. A cell of the tile is found for the points it owns,
and nothing is found outside the reach of the tile, which the cells divide among them. The centre
of a cell leads back to it. The internal cells divide the box of the leaf, and the halo cells what
is left. -/
structure LooksUpCells (tile : Tile D ℚ) : Prop where
  cellContaining (p : Point ℚ) : ∃ r, tile.cellContaining p = .ok r ∧
    (∀ c, r = some c ↔ tile.layout.Contains c ∧ tile.Owns c p) ∧ (r = none ↔ ¬ tile.Reaches p)
  existsUnique_owns (p : Point ℚ) : tile.Reaches p → ∃! c, tile.layout.Contains c ∧ tile.Owns c p
  reaches (c : Cell D) (p : Point ℚ) : tile.layout.Contains c → tile.Owns c p → tile.Reaches p
  cellCentroid (c : Cell D) : tile.layout.Contains c →
    ∃ x, tile.cellCentroid c = .ok x ∧ tile.cellContaining x = .ok (some c)
  internalCellContaining (p : Point ℚ) : ∃ r, tile.internalCellContaining p = .ok r ∧
    (∀ c, r = some c ↔ tile.layout.Inside c ∧ tile.Owns c p) ∧
      (r.isSome = true ↔ tile.box.LiesOver p)
  haloCellContaining (p : Point ℚ) : ∃ r, tile.haloCellContaining p = .ok r ∧
    (∀ c, r = some c ↔ (tile.layout.Contains c ∧ ¬ tile.layout.Inside c) ∧ tile.Owns c p) ∧
      (r.isSome = true ↔ tile.Reaches p ∧ ¬ tile.box.LiesOver p)

/-- A tile over a box that is not empty finds the cell under each point, and no other. -/
theorem Tile.Made.looksUpCells {tile : Tile D ℚ} (hmade : tile.Made)
    (hlength : 0 < tile.box.length) : LooksUpCells tile := by
  have hspans := hmade.hasRoom.fits.spans
  have h := Tile.cellLength_pos hlength
  have hcell (p : Point ℚ) := Tile.exists_cellContaining hspans p
  have hinternal (p : Point ℚ) := Tile.exists_internalCellContaining hspans p
  have hhalo (p : Point ℚ) := Tile.exists_haloCellContaining hspans p
  simp only [← Tile.owns_iff h] at hcell hinternal hhalo
  refine ⟨fun p => ?_, fun p hp => ?_, fun c p hc ho => (ho.contains_iff h).1 hc, fun c hc => ?_,
    fun p => ?_, fun p => ?_⟩
  · obtain ⟨r, hr, hiff⟩ := hcell p
    refine ⟨r, hr, hiff, ?_⟩
    rw [Tile.reaches_iff_exists_owns h, Option.eq_none_iff_forall_ne_some, ← not_exists]
    simp only [hiff]
  · obtain ⟨c, hc, ho⟩ := (Tile.reaches_iff_exists_owns h).1 hp
    exact ⟨c, ⟨hc, ho⟩, fun c' hc' => hc'.2.eq h ho⟩
  · obtain ⟨r, hr, hiff⟩ := hcell _
    refine ⟨_, hmade.hasRoom.cellCentroid_eq hc, ?_⟩
    rw [hr, (hiff c).2 ⟨hc, Tile.owns_centroid h c fun d => Point.along_mapAxes _ _ _⟩]
  · obtain ⟨r, hr, hiff⟩ := hinternal p
    refine ⟨r, hr, hiff, ?_⟩
    rw [Tile.liesOver_iff_exists_owns h, Option.isSome_iff_exists]
    simp only [hiff]
  · obtain ⟨r, hr, hiff⟩ := hhalo p
    refine ⟨r, hr, hiff, ?_⟩
    rw [Tile.halo_iff_exists_owns h, Option.isSome_iff_exists]
    simp only [hiff]

/-- A point on the upper face of the box lies in the halo, and one on the upper face of the halo
lies in no cell. -/
theorem looksUpCells_square : ∃ tile : Tile 2 ℚ, tile.Made ∧ 0 < tile.box.length ∧
    LooksUpCells tile ∧ tile.haloCellContaining #v[0, 2, 0] = .ok (some #v[1, 3]) ∧
      tile.internalCellContaining #v[0, 2, 0] = .ok none ∧
        tile.cellContaining #v[0, 3, 0] = .ok none := by
  let tile : Tile 2 ℚ := {
    node := 0
    level := 0
    box := ⟨#v[1, 1, 0], 2⟩
    layout := ⟨2, 1, by decide, by decide⟩
    state := ⟨1, Array.replicate 16 0, by decide⟩ }
  have hmade : tile.Made := Tile.made_of_size rfl (by decide +kernel)
  have hlength : 0 < tile.box.length := by decide +kernel
  exact ⟨tile, hmade, hlength, hmade.looksUpCells hlength, by decide +kernel, by decide +kernel,
    by decide +kernel⟩

end AdaptiveMesh
