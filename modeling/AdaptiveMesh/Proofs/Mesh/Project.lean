import AdaptiveMesh.Proofs.Mesh.Gather

/-!
# Projection

A projection reads a cell and its two neighbours along each axis. `plane` is what it computes from
them, and in exact arithmetic each variable is the value of the cell plus, for each axis, a limited
slope times the way from the cell's centre.
-/

namespace AdaptiveMesh

open LocationCode

variable {D : Nat} {L S : Type} [LocationCode D L]

section Plane

variable [Scalar S]

/-- One axis of a projection. -/
def addSlope (limiter : Limiter) (center : Array S) (lower upper : Fin D → Array S)
    (delta : Fin D → S) (values : Array S) (d : Fin D) : Array S :=
  Array.zipWith (fun value slope => value + slope * delta d) values
    (Array.zipWith limiter.slope (Array.zipWith (· - ·) center (lower d))
      (Array.zipWith (· - ·) (upper d) center))

/-- The values on the plane through a cell's values with limited slopes. -/
def plane (limiter : Limiter) (center : Array S) (lower upper : Fin D → Array S)
    (delta : Fin D → S) : Array S :=
  (List.finRange D).foldl (addSlope limiter center lower upper delta) center

variable {limiter : Limiter} {center values : Array S} {lower upper : Fin D → Array S}
  {delta : Fin D → S} {k : Nat}

theorem size_addSlope (hcenter : center.size = k) (hlower : ∀ d, (lower d).size = k)
    (hupper : ∀ d, (upper d).size = k) (hvalues : values.size = k) (d : Fin D) :
    (addSlope limiter center lower upper delta values d).size = k := by
  unfold addSlope
  simp only [Array.size_zipWith, hcenter, hlower, hupper, hvalues, Nat.min_self]

theorem size_plane (hcenter : center.size = k) (hlower : ∀ d, (lower d).size = k)
    (hupper : ∀ d, (upper d).size = k) : (plane limiter center lower upper delta).size = k := by
  have hfold (ds : List (Fin D)) {values : Array S} (hvalues : values.size = k) :
      (ds.foldl (addSlope limiter center lower upper delta) values).size = k := by
    induction ds generalizing values with
    | nil => exact hvalues
    | cons d ds ih => exact ih (size_addSlope hcenter hlower hupper hvalues d)
  exact hfold _ hcenter

end Plane

/-- The value of one variable on the plane. -/
theorem getD_plane {limiter : Limiter} {center : Array ℚ} {lower upper : Fin D → Array ℚ}
    {delta : Fin D → ℚ} {k v : Nat} (hv : v < k) (hcenter : center.size = k)
    (hlower : ∀ d, (lower d).size = k) (hupper : ∀ d, (upper d).size = k) :
    (plane limiter center lower upper delta).getD v 0 = center.getD v 0 +
      ∑ d, limiter.slope (center.getD v 0 - (lower d).getD v 0)
        ((upper d).getD v 0 - center.getD v 0) * delta d := by
  have hfold (ds : List (Fin D)) {values : Array ℚ} (hvalues : values.size = k) :
      (ds.foldl (addSlope limiter center lower upper delta) values).getD v 0 = values.getD v 0 +
        (ds.map fun d => limiter.slope (center.getD v 0 - (lower d).getD v 0)
          ((upper d).getD v 0 - center.getD v 0) * delta d).sum := by
    induction ds generalizing values with
    | nil => simp
    | cons d ds ih =>
      rw [List.foldl_cons, ih (size_addSlope hcenter hlower hupper hvalues d), List.map_cons,
        List.sum_cons, ← add_assoc]
      congr 1
      unfold addSlope
      simp [Array.getD, hcenter, hlower, hupper, hvalues, hv]
  rw [plane, hfold _ hcenter, ← List.ofFn_eq_map, List.sum_ofFn]

/-! ## Tiles with room -/

section Room

open Mesh

variable [Scalar S] [Dimension D] {tile : Tile D S} {source : Cell D} {x centroid : Point S}
  {limiter : Limiter}

namespace Tile.HasRoom

theorem project_eq (h : tile.HasRoom) (hs : tile.layout.Inside source)
    (hcentroid : tile.cellCentroid source = .ok centroid) {center : Array S}
    (hcenter : tile.get source = .ok center) {lower upper : Fin D → Array S}
    (hlower : ∀ d, tile.get (TileLayout.stepped source d (-1)) = .ok (lower d))
    (hupper : ∀ d, tile.get (TileLayout.stepped source d 1) = .ok (upper d)) :
    project tile source x limiter = .ok (plane limiter center lower upper fun d =>
      (x.along d - centroid.along d) / tile.cellLength) := by
  unfold project
  rw [hcentroid, ok_bind, hcenter, ok_bind]
  refine foldlM_eq_ok_foldl fun d _ values => ?_
  rw [h.fits.spans.movedAlong hs d (by decide), ok_bind, hlower, ok_bind,
    h.fits.spans.movedAlong hs d (by decide), ok_bind, hupper]
  rfl

omit [Scalar S] in
/-- The values next to an internal cell along each axis. -/
theorem exists_around (h : tile.HasRoom) (hs : tile.layout.Inside source) :
    ∃ lower upper : Fin D → Array S,
      (∀ d, tile.get (TileLayout.stepped source d (-1)) = .ok (lower d)) ∧
      (∀ d, tile.get (TileLayout.stepped source d 1) = .ok (upper d)) ∧
      (∀ d, (lower d).size = tile.state.variableCount) ∧
      ∀ d, (upper d).size = tile.state.variableCount := by
  have hlower (d : Fin D) := h.exists_get
    (hs.contains_stepped d (show (-1 : Int).natAbs ≤ 1 by decide))
  have hupper (d : Fin D) := h.exists_get
    (hs.contains_stepped d (show (1 : Int).natAbs ≤ 1 by decide))
  choose lower hlower hlowersize using hlower
  choose upper hupper huppersize using hupper
  exact ⟨lower, upper, hlower, hupper, hlowersize, huppersize⟩

/-- A projection from an internal cell is not refused. -/
theorem exists_project (h : tile.HasRoom) (hs : tile.layout.Inside source) (x : Point S)
    (limiter : Limiter) : ∃ values, project tile source x limiter = .ok values ∧
      values.size = tile.state.variableCount := by
  have hcentroid := h.cellCentroid_eq hs.contains
  obtain ⟨center, hcenter, hsize⟩ := h.exists_get hs.contains
  obtain ⟨lower, upper, hlower, hupper, hlowersize, huppersize⟩ := h.exists_around hs
  exact ⟨_, h.project_eq hs hcentroid hcenter hlower hupper,
    size_plane hsize hlowersize huppersize⟩

end Tile.HasRoom

end Room

namespace Mesh

variable [Scalar S] [Dimension D] {mesh : Mesh D L S} {b : mesh.tree.Node} {tile : Tile D S}
  {source : Cell D} {x centroid : Point S} {limiter : Limiter}

theorem IsTileOf.project_eq (hof : mesh.IsTileOf b tile) (hs : mesh.layout.Inside source)
    (hcentroid : tile.cellCentroid source = .ok centroid) {center : Array S}
    (hcenter : tile.get source = .ok center) {lower upper : Fin D → Array S}
    (hlower : ∀ d, tile.get (TileLayout.stepped source d (-1)) = .ok (lower d))
    (hupper : ∀ d, tile.get (TileLayout.stepped source d 1) = .ok (upper d)) :
    project tile source x limiter = .ok (plane limiter center lower upper fun d =>
      (x.along d - centroid.along d) / tile.cellLength) :=
  hof.hasRoom.project_eq (hof.layout ▸ hs) hcentroid hcenter hlower hupper

theorem IsTileOf.exists_around (hof : mesh.IsTileOf b tile) (hs : mesh.layout.Inside source) :
    ∃ lower upper : Fin D → Array S,
      (∀ d, tile.get (TileLayout.stepped source d (-1)) = .ok (lower d)) ∧
      (∀ d, tile.get (TileLayout.stepped source d 1) = .ok (upper d)) ∧
      (∀ d, (lower d).size = mesh.config.variableCount) ∧
      ∀ d, (upper d).size = mesh.config.variableCount :=
  hof.variableCount ▸ hof.hasRoom.exists_around (hof.layout ▸ hs)

theorem IsTileOf.exists_project (hof : mesh.IsTileOf b tile) (hs : mesh.layout.Inside source)
    (x : Point S) (limiter : Limiter) : ∃ values, project tile source x limiter = .ok values ∧
      values.size = mesh.config.variableCount :=
  hof.variableCount ▸ hof.hasRoom.exists_project (hof.layout ▸ hs) x limiter

/-- The cell that a halo cell is projected from, and its tile. -/
def projectionSource (mesh : Mesh D L S) (leaf : mesh.tree.Node) (halo : Cell D) :
    Except Fault (Option (Tile D S × Cell D)) := do
  let some tile := mesh.tile? leaf | return none
  let (neighbors, _) ← mesh.neighborTiles leaf
  firstSource (neighbors.filter fun n => n.level < tile.level) (← tile.cellCentroid halo)

theorem projectionSource_eq_some_iff {n : mesh.tree.Node} {c : Cell D} {r : Tile D S × Cell D} :
    mesh.projectionSource n c = .ok (some r) ↔ ∃ tile neighbors absent x,
      mesh.tile? n = some tile ∧ mesh.neighborTiles n = .ok (neighbors, absent) ∧
        tile.cellCentroid c = .ok x ∧
          firstSource (neighbors.filter fun n => n.level < tile.level) x = .ok (some r) := by
  unfold projectionSource
  constructor
  · intro h
    rcases htile : mesh.tile? n with _ | tile
    · rw [htile] at h
      cases Except.ok.inj h
    · rw [htile] at h
      obtain ⟨⟨neighbors, absent⟩, hns, h⟩ := bind_eq_ok_iff.1 h
      obtain ⟨x, hx, h⟩ := bind_eq_ok_iff.1 h
      exact ⟨tile, neighbors, absent, x, rfl, hns, hx, h⟩
  · rintro ⟨tile, neighbors, absent, x, htile, hns, hx, h⟩
    rw [htile]
    exact bind_eq_ok_iff.2 ⟨_, hns, bind_eq_ok_iff.2 ⟨x, hx, h⟩⟩

variable [LawfulLocation L] {n : mesh.tree.Node} {c : Cell D}

/-- Phase two projects from the source of a halo cell, if there is one. -/
theorem phaseTwoAt_eq (ht : mesh.tree.Valid) (hn : mesh.tree.isLeaf n = true)
    (htile : mesh.tile? n = some tile) (hof : mesh.IsTileOf n tile) (hc : mesh.layout.Contains c)
    (hx : tile.cellCentroid c = .ok x) {r : Option (Tile D S × Cell D)}
    (hr : mesh.projectionSource n c = .ok r) : mesh.phaseTwoAt limiter n c =
      r.elim (.ok none) fun (coarse, source) =>
        (fun values => some ⟨mesh.layout.offset c, values, .projected⟩) <$>
          project coarse source x limiter := by
  obtain ⟨tiles, absent, hns, -⟩ := mesh.exists_neighborTiles ht hn
  unfold projectionSource at hr
  unfold phaseTwoAt phaseTwoUpdate
  simp only [htile, hns, ok_bind, hx, hof.layout, hof.fits.index hc] at hr ⊢
  rw [hr]
  rcases r with _ | ⟨coarse, source⟩ <;> rfl

end Mesh

end AdaptiveMesh
