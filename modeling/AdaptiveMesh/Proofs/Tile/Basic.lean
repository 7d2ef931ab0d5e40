import AdaptiveMesh.Proofs.Tile.Layout
import AdaptiveMesh.Proofs.Tile.State
import AdaptiveMesh.Tile.Basic

/-!
# Tiles that can be made

A tile is made if it is what `Tile.make` returns for its leaf, box, layout and variables, up to the
values of its cells. A made tile has room for every cell, so no question about the values or the
centre of a cell is refused.
-/

namespace AdaptiveMesh

variable {D : Nat} {S : Type} [Scalar S]

namespace Tile

/-- The tile with zeros for all values. -/
def blank (tile : Tile D S) : Tile D S :=
  { tile with state := tile.state.fill (Scalar.ofNat 0) }

/-- The tile is one that can be made, with any values in its cells. -/
def Made (tile : Tile D S) : Prop :=
  make tile.node tile.level tile.box tile.layout tile.state.variableCount = .ok tile.blank

omit [Scalar S] in
/-- The layout fits, and the tile has the values of its cells. -/
structure HasRoom (tile : Tile D S) : Prop where
  fits : tile.layout.Fits
  holds : tile.state.Holds (tile.layout.extent ^ D)

/-- What a tile is made from, and the room it has. -/
theorem of_make_eq_blank {tile : Tile D S} {node level : Nat} {box : Box D S}
    {layout : TileLayout D} {variableCount : Nat}
    (h : make node level box layout variableCount = .ok tile.blank) :
    tile.node = node ∧ tile.level = level ∧ tile.box = box ∧ tile.layout = layout ∧
      tile.state.variableCount = variableCount ∧ tile.HasRoom := by
  unfold make at h
  obtain ⟨size, hsize, h⟩ := bind_eq_ok_iff.1 h
  obtain ⟨zeros, hzeros, h⟩ := bind_eq_ok_iff.1 h
  obtain ⟨rfl, rfl, rfl, rfl, hstate⟩ := Tile.mk.inj (Except.ok.inj h)
  obtain ⟨hcount, hdata, hbytes⟩ := StateBuffer.make_eq_ok hzeros
  rw [hstate] at hcount hdata
  change tile.state.variableCount = variableCount at hcount
  subst hcount
  have hvalue : 0 < StateBuffer.valueBytes := by decide
  obtain ⟨hfits, rfl⟩ := TileLayout.fits_of_size hsize
    (Nat.mul_pos tile.state.variableCount_pos hvalue) (by rwa [← Nat.mul_assoc])
  have hsame : tile.state.data.size = tile.layout.extent ^ D * tile.state.variableCount := by
    have := congrArg Array.size hdata
    rwa [Array.size_replicate, StateBuffer.fill, Array.size_map] at this
  have hbound : tile.layout.extent ^ D * tile.state.variableCount < Word.bound :=
    (Nat.le_mul_of_pos_right _ hvalue).trans_lt (hbytes.trans Word.half_bound_lt)
  exact ⟨rfl, rfl, rfl, rfl, rfl, hfits, hsame, hsame ▸ hbound⟩

/-- A tile can be made if its buffer has the values of its cells and a signed word counts their
bytes. -/
theorem made_of_size [Dimension D] {tile : Tile D S}
    (hsize : tile.state.data.size = tile.layout.extent ^ D * tile.state.variableCount)
    (hbytes : tile.state.data.size * StateBuffer.valueBytes < 2 ^ (Word.width - 1)) :
    tile.Made := by
  have hcount := tile.state.variableCount_pos
  have hbound : tile.state.data.size < 2 ^ (Word.width - 1) :=
    (Nat.le_mul_of_pos_right _ (by decide)).trans_lt hbytes
  have hfits : tile.layout.Fits :=
    (Nat.le_mul_of_pos_right _ hcount).trans_lt (hsize ▸ hbound)
  have hmul : Word.mul (tile.layout.extent ^ D) tile.state.variableCount =
      .ok tile.state.data.size := by
    rw [hsize]
    exact Word.mul_eq_ok (hsize ▸ hbound.trans Word.half_bound_lt)
  have hzeros : tile.state.data.map (fun _ => Scalar.ofNat 0) =
      Array.replicate tile.state.data.size (Scalar.ofNat 0 : S) := Array.map_const'
  unfold Made make StateBuffer.make
  rw [hfits.size, ok_bind, dif_pos hcount, hmul, ok_bind, Word.arraySize_eq_ok_iff.2 ⟨hbytes, rfl⟩,
    ok_bind, ← hzeros]
  rfl

theorem Made.hasRoom {tile : Tile D S} (h : tile.Made) : tile.HasRoom :=
  (of_make_eq_blank h).2.2.2.2.2

namespace HasRoom

variable [Dimension D] {tile : Tile D S} {c : Cell D}

omit [Scalar S] in
theorem get_eq (h : tile.HasRoom) (hc : tile.layout.Contains c) :
    tile.get c = tile.state.get (tile.layout.offset c) := by
  unfold Tile.get
  rw [h.fits.index hc, ok_bind]

omit [Scalar S] in
theorem exists_get (h : tile.HasRoom) (hc : tile.layout.Contains c) :
    ∃ values, tile.get c = .ok values ∧ values.size = tile.state.variableCount := by
  rw [h.get_eq hc]
  obtain ⟨values, hvalues⟩ := h.holds.exists_get (TileLayout.offset_lt hc)
  exact ⟨values, hvalues, StateBuffer.size_of_get hvalues⟩

theorem cellCentroid_eq (h : tile.HasRoom) (hc : tile.layout.Contains c) :
    tile.cellCentroid c = .ok (tile.box.lower.mapAxes D fun d low => low +
      (Scalar.ofNat (c.get d) - Scalar.ofNat tile.layout.haloLayers + Scalar.half) *
        tile.cellLength) := by
  obtain ⟨b, hcontains, hb⟩ := h.fits.spans.contains (c := c)
  unfold Tile.cellCentroid
  rw [hcontains, ok_bind, hb.2 hc]
  rfl

end HasRoom

end Tile

end AdaptiveMesh
