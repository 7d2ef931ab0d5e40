import AdaptiveMesh.Mesh.Basic
import AdaptiveMesh.Proofs.Grid
import AdaptiveMesh.Proofs.Tile.Basic
import AdaptiveMesh.Proofs.Tile.Cells

/-!
# Meshes that can be made

A mesh is built if it is what `Mesh.make` returns for its tree and configuration, up to the values
of its cells. Every leaf of a built mesh has a tile of the leaf's level and box, in the layout of
the mesh and with room for every cell; no other node has one.
-/

namespace AdaptiveMesh

open LocationCode

variable {D : Nat} {L S : Type} [LocationCode D L] [Scalar S]

theorem mapError_eq_ok_iff {ε ε' α : Type} {x : Except ε α} {f : ε → ε'} {a : α} :
    x.mapError f = .ok a ↔ x = .ok a := by
  cases x <;> simp [Except.mapError]

theorem ofFnM_eq_ok {ε α : Type} {n : Nat} {f : Fin n → Except ε α} {v : Vector α n}
    (h : Vector.ofFnM f = .ok v) (i : Fin n) : f i = .ok (v.get i) := by
  induction n with
  | zero => exact i.elim0
  | succ n ih =>
    rw [Vector.ofFnM_succ] at h
    obtain ⟨xs, hxs, h⟩ := bind_eq_ok_iff.1 h
    obtain ⟨x, hx, h⟩ := bind_eq_ok_iff.1 h
    obtain rfl := Except.ok.inj h
    cases i using Fin.lastCases with
    | last => simpa using hx
    | cast i => simpa using ih hxs i

namespace Mesh

/-- The mesh with zeros for all values. -/
def blank (mesh : Mesh D L S) : Mesh D L S :=
  { mesh with tiles := mesh.tiles.map (Option.map Tile.blank) }

/-- The mesh is one that can be made, with any values in its cells. -/
def Built (mesh : Mesh D L S) : Prop := make mesh.tree mesh.config = .ok mesh.blank

/-- The tile lies on the box of a leaf and has room for the values of every cell. -/
structure IsTileOf (mesh : Mesh D L S) (n : mesh.tree.Node) (tile : Tile D S) : Prop where
  node : tile.node = n
  level : tile.level = mesh.tree.level n
  box : mesh.config.nodeBox (mesh.tree.location n) = .ok tile.box
  layout : tile.layout = mesh.layout
  fits : mesh.layout.Fits
  holds : tile.state.Holds (mesh.layout.extent ^ D)
  variableCount : tile.state.variableCount = mesh.config.variableCount

variable {mesh : Mesh D L S}

theorem IsTileOf.hasRoom {n : mesh.tree.Node} {tile : Tile D S} (h : mesh.IsTileOf n tile) :
    tile.HasRoom := ⟨h.layout ▸ h.fits, h.layout ▸ h.holds⟩

namespace Built

theorem make_eq (h : mesh.Built) : mesh.config.validate = .ok () ∧
    mesh.config.layout D = .ok mesh.layout ∧ ∀ n, makeTile? mesh.config mesh.layout mesh.tree n =
      .ok ((mesh.tile? n).map Tile.blank) := by
  unfold Built make at h
  obtain ⟨_, hvalid, h⟩ := bind_eq_ok_iff.1 h
  obtain ⟨layout, hlayout, h⟩ := bind_eq_ok_iff.1 h
  obtain ⟨tiles, htiles, h⟩ := bind_eq_ok_iff.1 h
  have hmesh := Except.ok.inj h
  simp only [blank, Mesh.mk.injEq, true_and, heq_eq_eq] at hmesh
  obtain ⟨rfl, rfl⟩ := hmesh
  refine ⟨mapError_eq_ok_iff.1 hvalid, mapError_eq_ok_iff.1 hlayout, fun n => ?_⟩
  have := ofFnM_eq_ok (mapError_eq_ok_iff.1 htiles) n
  simpa [tile?] using this

theorem validate_eq (h : mesh.Built) : mesh.config.validate = .ok () := h.make_eq.1

theorem layout_eq (h : mesh.Built) : mesh.layout.internalCells = mesh.config.internalCells ∧
    mesh.layout.haloLayers = mesh.config.haloLayers := by
  have := h.make_eq.2.1
  unfold MeshConfig.layout TileLayout.make at this
  split at this
  · split at this
    · rw [← Except.ok.inj this]
      exact ⟨rfl, rfl⟩
    · contradiction
  · contradiction

theorem tile?_eq_none (h : mesh.Built) {n : mesh.tree.Node} (hn : mesh.tree.isLeaf n = false) :
    mesh.tile? n = none := by
  have := h.make_eq.2.2 n
  unfold makeTile? at this
  rw [if_neg (by simp [hn])] at this
  exact Option.map_eq_none_iff.1 (Except.ok.inj this).symm

theorem exists_tile (h : mesh.Built) {n : mesh.tree.Node} (hn : mesh.tree.isLeaf n = true) :
    ∃ tile, mesh.tile? n = some tile ∧ mesh.IsTileOf n tile := by
  have hmake := h.make_eq.2.2 n
  unfold makeTile? at hmake
  rw [if_pos hn] at hmake
  obtain ⟨box, hbox, hmake⟩ := bind_eq_ok_iff.1 hmake
  obtain ⟨zeros, hzeros, hmake⟩ := bind_eq_ok_iff.1 hmake
  obtain ⟨tile, htile, hblank⟩ := Option.map_eq_some_iff.1 (Except.ok.inj hmake).symm
  refine ⟨tile, htile, ?_⟩
  obtain ⟨hnode, hlevel, rfl, hlayout, hcount, hroom⟩ := Tile.of_make_eq_blank (hblank ▸ hzeros)
  exact {
    node := hnode
    level := hlevel
    box := hbox
    layout := hlayout
    fits := hlayout ▸ hroom.fits
    holds := hlayout ▸ hroom.holds
    variableCount := hcount }

theorem fits (h : mesh.Built) {n : mesh.tree.Node} (hn : mesh.tree.isLeaf n = true) :
    mesh.layout.Fits := by
  obtain ⟨tile, -, hof⟩ := h.exists_tile hn
  exact hof.fits

/-- The nodes with a tile are the leaves. -/
theorem isLeaf_of_tile (h : mesh.Built) {n : mesh.tree.Node} {tile : Tile D S}
    (htile : mesh.tile? n = some tile) : mesh.tree.isLeaf n = true ∧ mesh.IsTileOf n tile := by
  rcases hn : mesh.tree.isLeaf n with _ | _
  · rw [h.tile?_eq_none hn] at htile
    contradiction
  · obtain ⟨tile', htile', hof⟩ := h.exists_tile hn
    obtain rfl := Option.some.inj (htile.symm.trans htile')
    exact ⟨rfl, hof⟩

theorem eq_of_tile (h : mesh.Built) {a b : mesh.tree.Node} {tile : Tile D S}
    (ha : mesh.tile? a = some tile) (hb : mesh.tile? b = some tile) : a = b :=
  Fin.ext ((h.isLeaf_of_tile ha).2.node.symm.trans (h.isLeaf_of_tile hb).2.node)

end Built

end Mesh

end AdaptiveMesh
