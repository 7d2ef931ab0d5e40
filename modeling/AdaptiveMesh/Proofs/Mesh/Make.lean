import AdaptiveMesh.Proofs.Mesh.Gather

/-!
# Making meshes

In exact arithmetic a mesh can be made of any tree and valid configuration if a signed word counts
the bytes of a tile. It is a built mesh, and its cells can be given any values.
-/

namespace AdaptiveMesh

open LocationCode

variable {D : Nat} {L S : Type} [LocationCode D L] [Scalar S]

theorem exists_ofFnM_eq_ok {ε α : Type} {n : Nat} {f : Fin n → Except ε α}
    (h : ∀ i, ∃ a, f i = .ok a) : ∃ v, Vector.ofFnM f = .ok v := by
  choose g hg using h
  exact ⟨Vector.ofFn g, ofFnM_eq_pure hg⟩

theorem StateBuffer.exists_make {cells variableCount : Nat} (hpos : 0 < variableCount)
    (h : cells * variableCount * valueBytes < 2 ^ (Word.width - 1)) :
    ∃ b : StateBuffer S, make cells variableCount = .ok b := by
  have hmul : cells * variableCount < Word.bound :=
    ((Nat.le_mul_of_pos_right _ (by decide)).trans_lt h).trans Word.half_bound_lt
  unfold make
  rw [dif_pos hpos, Word.mul_eq_ok hmul, ok_bind, Word.arraySize_eq_ok_iff.2 ⟨h, rfl⟩]
  exact ⟨_, rfl⟩

theorem StateBuffer.fill_of_make {cells variableCount : Nat} {b : StateBuffer S}
    (h : make cells variableCount = .ok b) : b.fill (Scalar.ofNat 0) = b := by
  obtain ⟨-, hdata, -⟩ := make_eq_ok h
  unfold fill
  rw [hdata, Array.map_replicate, ← hdata]

namespace Mesh

/-! ## Meshes of zeros -/

theorem blank_of_makeTile? {t : Tree L} {config : MeshConfig S} {layout : TileLayout D} {n : t.Node}
    {tile? : Option (Tile D S)} (h : makeTile? config layout t n = .ok tile?) :
    tile?.map Tile.blank = tile? := by
  unfold makeTile? at h
  split at h
  · obtain ⟨box, -, h⟩ := bind_eq_ok_iff.1 h
    obtain ⟨tile, htile, h⟩ := bind_eq_ok_iff.1 h
    obtain rfl := Except.ok.inj h
    unfold Tile.make at htile
    obtain ⟨size, -, htile⟩ := bind_eq_ok_iff.1 htile
    obtain ⟨state, hstate, htile⟩ := bind_eq_ok_iff.1 htile
    obtain rfl := Except.ok.inj htile
    rw [Option.map_some, Tile.blank, StateBuffer.fill_of_make hstate]
  · rw [← Except.ok.inj h]
    rfl

/-- What can be made is built. -/
theorem built_of_make {t : Tree L} {config : MeshConfig S} {mesh : Mesh D L S}
    (h : make t config = .ok mesh) : mesh.tree = t ∧ mesh.config = config ∧ mesh.Built := by
  have hmake := h
  unfold make at h
  obtain ⟨_, -, h⟩ := bind_eq_ok_iff.1 h
  obtain ⟨layout, -, h⟩ := bind_eq_ok_iff.1 h
  obtain ⟨tiles, htiles, h⟩ := bind_eq_ok_iff.1 h
  obtain rfl := Except.ok.inj h
  refine ⟨rfl, rfl, ?_⟩
  have hblank : tiles.map (Option.map Tile.blank) = tiles := Vector.ext fun i hi => by
    rw [Vector.getElem_map]
    exact blank_of_makeTile? (ofFnM_eq_ok (mapError_eq_ok_iff.1 htiles) ⟨i, hi⟩)
  unfold Built blank
  rw [hblank]
  exact hmake

/-- A mesh of zeros can be made if the bytes of a tile can be counted. -/
theorem exists_make [Dimension D] [LawfulLocation L] (t : Tree L) {config : MeshConfig ℚ}
    (hvalid : config.validate = .ok ())
    (hsize : (config.internalCells + 2 * config.haloLayers) ^ D * config.variableCount *
      StateBuffer.valueBytes < 2 ^ (Word.width - 1)) :
    ∃ mesh : Mesh D L ℚ, make t config = .ok mesh := by
  obtain ⟨⟨hinternal, -⟩, ⟨hhalo, -⟩, hcount, -, -⟩ := MeshConfig.of_validate hvalid
  have hcount := Nat.pos_of_ne_zero hcount
  let layout : TileLayout D :=
    ⟨config.internalCells, config.haloLayers, Nat.pos_of_ne_zero hinternal,
      Nat.pos_of_ne_zero hhalo⟩
  have hlayout : config.layout D = .ok layout := by
    unfold MeshConfig.layout TileLayout.make
    rw [dif_pos (Nat.pos_of_ne_zero hinternal), dif_pos (Nat.pos_of_ne_zero hhalo)]
  have hfits : layout.Fits := by
    refine Nat.lt_of_le_of_lt ?_ hsize
    rw [Nat.mul_assoc]
    exact Nat.le_mul_of_pos_right _ (Nat.mul_pos hcount (by decide))
  have htile (n : t.Node) : ∃ tile?, makeTile? config layout t n = .ok tile? := by
    unfold makeTile?
    split
    · obtain ⟨box, hbox, -⟩ := MeshConfig.exists_nodeBox hvalid (t.location n)
      obtain ⟨state, hstate⟩ := StateBuffer.exists_make (S := ℚ) hcount hsize
      have hmake : Tile.make n (t.level n) box layout config.variableCount =
          .ok ⟨n, t.level n, box, layout, state⟩ := by
        unfold Tile.make
        rw [hfits.size, ok_bind]
        exact bind_eq_ok_iff.2 ⟨state, hstate, rfl⟩
      exact ⟨_, bind_eq_ok_iff.2 ⟨box, hbox, bind_eq_ok_iff.2 ⟨_, hmake, rfl⟩⟩⟩
    · exact ⟨none, rfl⟩
  obtain ⟨tiles, htiles⟩ := exists_ofFnM_eq_ok htile
  unfold make
  refine ⟨_, bind_eq_ok_iff.2 ⟨_, mapError_eq_ok_iff.2 hvalid, bind_eq_ok_iff.2
    ⟨layout, mapError_eq_ok_iff.2 hlayout, bind_eq_ok_iff.2
      ⟨tiles, mapError_eq_ok_iff.2 htiles, rfl⟩⟩⟩⟩

/-- The mesh that is made is built, and addressable if the values of all leaves' tiles fit in memory. -/
theorem exists_make_built [Dimension D] [LawfulLocation L] (t : Tree L) {config : MeshConfig ℚ}
    (hvalid : config.validate = .ok ())
    (hsize : (config.internalCells + 2 * config.haloLayers) ^ D * config.variableCount *
      StateBuffer.valueBytes < 2 ^ (Word.width - 1)) :
    ∃ mesh : Mesh D L ℚ, mesh.tree = t ∧ mesh.config = config ∧ mesh.Built ∧
      (t.leaves.length * ((config.internalCells + 2 * config.haloLayers) ^ D *
        config.variableCount * StateBuffer.valueBytes) < 2 ^ (Word.width - 1) →
          mesh.Addressable) := by
  obtain ⟨mesh, hmake⟩ := exists_make (D := D) t hvalid hsize
  obtain ⟨htree, hconfig, hb⟩ := built_of_make hmake
  refine ⟨mesh, htree, hconfig, hb, fun hleaves => ?_⟩
  unfold Addressable TileLayout.extent
  rw [htree, hb.layout_eq.1, hb.layout_eq.2, hconfig]
  exact hleaves

/-- On the standard configuration a mesh can be made of any tree. -/
theorem exists_make_unit [Dimension D] [LawfulLocation L] (t : Tree L) :
    ∃ mesh : Mesh D L ℚ, mesh.tree = t ∧ mesh.config = .unit ∧ mesh.Built ∧
      (t.leaves.length * (6 ^ D * StateBuffer.valueBytes) < 2 ^ (Word.width - 1) →
        mesh.Addressable) := by
  have hvalid : (MeshConfig.unit : MeshConfig ℚ).validate = .ok () := by rfl
  have hpow : 6 ^ D ≤ 6 ^ 3 := Nat.pow_le_pow_right (by decide) Dimension.le_three
  obtain ⟨mesh, htree, hconfig, hb, haddr⟩ := exists_make_built (D := D) t hvalid (by
    change 6 ^ D * 1 * 8 < 2 ^ 63
    omega)
  refine ⟨mesh, htree, hconfig, hb, fun hleaves => haddr ?_⟩
  change t.leaves.length * (6 ^ D * 1 * StateBuffer.valueBytes) < _
  rwa [Nat.mul_one]

/-! ## Any values -/

variable [Dimension D] {mesh : Mesh D L S}

/-- A tile can hold any values. -/
theorem IsTileOf.exists_values {n : mesh.tree.Node} {tile : Tile D S} (hof : mesh.IsTileOf n tile)
    {f : Cell D → Array S} (hf : ∀ c, (f c).size = mesh.config.variableCount) :
    ∃ tile', tile.SameFrame tile' ∧ ∀ c, mesh.layout.Contains c → tile'.get c = .ok (f c) := by
  -- the cells are written one after the other
  let us := mesh.layout.allCells.map fun c => (⟨mesh.layout.offset c, f c, .copied⟩ : CellUpdate S)
  have hus : ∀ u ∈ us, u.index < mesh.layout.extent ^ D ∧
      u.values.size = tile.state.variableCount := by
    intro u hu
    obtain ⟨c, hc, rfl⟩ := List.mem_map.1 hu
    exact ⟨TileLayout.offset_lt (TileLayout.mem_allCells.1 hc), (hf c).trans hof.variableCount.symm⟩
  have hnodup : (us.map CellUpdate.index).Nodup := by
    rw [List.map_map]
    exact mesh.layout.nodup_allCells.map_on fun c hc e he h =>
      TileLayout.offset_injective (TileLayout.mem_allCells.1 hc) (TileLayout.mem_allCells.1 he) h
  obtain ⟨state, hstate⟩ := hof.holds.exists_writeAll hus
  have hframe : tile.SameFrame { tile with state } :=
    ⟨StateBuffer.sameShape_of_writeAll hstate, rfl⟩
  refine ⟨_, hframe, fun c hc => ?_⟩
  rw [(hof.of_sameFrame hframe).get_eq hc]
  exact StateBuffer.get_of_writeAll_of_mem hstate hnodup (List.mem_map.2 ⟨c, TileLayout.mem_allCells.2 hc, rfl⟩)

/-- The cells of a built mesh can hold any values. -/
theorem Built.exists_values (hb : mesh.Built) {f : mesh.tree.Node → Cell D → Array S}
    (hf : ∀ n c, (f n c).size = mesh.config.variableCount) : ∃ tiles, mesh.SameFrames tiles ∧
      ∀ n tile, tiles.get n = some tile → ∀ c, mesh.layout.Contains c →
        tile.get c = .ok (f n c) := by
  have htile (n : mesh.tree.Node) : ∃ tile?, Option.Rel Tile.SameFrame (mesh.tile? n) tile? ∧
      ∀ tile, tile? = some tile → ∀ c, mesh.layout.Contains c → tile.get c = .ok (f n c) := by
    rcases h : mesh.tile? n with _ | tile
    · exact ⟨none, .none, fun _ h => by contradiction⟩
    · obtain ⟨tile', hframe, hget⟩ := (hb.isLeaf_of_tile h).2.exists_values (hf n)
      exact ⟨some tile', .some hframe, fun _ h => Option.some.inj h ▸ hget⟩
  choose tile? hframe hget using htile
  refine ⟨Vector.ofFn tile?, fun n => ?_, fun n tile h => ?_⟩
  · simpa using hframe n
  · exact hget n tile (by simpa using h)

end Mesh

end AdaptiveMesh
