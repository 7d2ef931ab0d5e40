import AdaptiveMesh.Proofs.Mesh.Phase
import AdaptiveMesh.Proofs.Tree.Neighbor

/-!
# What a phase writes

Each phase makes at most one update for each halo cell of a leaf. A run puts the values of the
updates in place and leaves every other cell, the internal ones among them, as it was.
-/

namespace AdaptiveMesh

open LocationCode

variable {D : Nat} {L S : Type} [LocationCode D L] [Scalar S]

/-- The cell is one of the tile and no internal one. -/
def TileLayout.IsHaloCell (t : TileLayout D) (c : Cell D) : Prop := t.Contains c ∧ ¬ t.Inside c

/-! ## Tiles that differ in values only -/

namespace Tile

/-- The tiles are alike up to the values in their cells. -/
def SameFrame (a b : Tile D S) : Prop :=
  StateBuffer.SameShape b.state a.state ∧ b = { a with state := b.state }

omit [Scalar S] in
theorem SameFrame.refl (a : Tile D S) : SameFrame a a := ⟨StateBuffer.SameShape.refl _, rfl⟩

omit [Scalar S] in
theorem SameFrame.symm {a b : Tile D S} (h : SameFrame a b) : SameFrame b a := by
  obtain ⟨hs, he⟩ := h
  refine ⟨hs.symm, ?_⟩
  rw [he]

omit [Scalar S] in
theorem SameFrame.trans {a b c : Tile D S} (h : SameFrame a b) (h' : SameFrame b c) :
    SameFrame a c := by
  obtain ⟨hs, he⟩ := h
  obtain ⟨hs', he'⟩ := h'
  refine ⟨hs'.trans hs, ?_⟩
  rw [he', he]

omit [Scalar S] in
theorem SameFrame.layout_eq {a b : Tile D S} (h : SameFrame a b) : b.layout = a.layout := by
  rw [h.2]

theorem SameFrame.blank_eq {a b : Tile D S} (h : SameFrame a b) : b.blank = a.blank := by
  obtain ⟨⟨hcount, hsize⟩, he⟩ := h
  unfold blank StateBuffer.fill
  rw [he]
  simp only [Tile.mk.injEq, true_and, StateBuffer.mk.injEq]
  refine ⟨hcount, Array.ext (by simpa using hsize) fun i h₁ h₂ => by simp⟩

end Tile

namespace Mesh

variable {mesh : Mesh D L S}

namespace IsTileOf

variable [Dimension D] {n : mesh.tree.Node} {tile tile' : Tile D S} {c : Cell D}

theorem get_eq (ht : mesh.IsTileOf n tile) (hc : mesh.layout.Contains c) :
    tile.get c = tile.state.get (mesh.layout.offset c) := by
  rw [ht.hasRoom.get_eq (ht.layout ▸ hc), ht.layout]

theorem exists_get (ht : mesh.IsTileOf n tile) (hc : mesh.layout.Contains c) :
    ∃ values, tile.get c = .ok values ∧ values.size = mesh.config.variableCount :=
  ht.variableCount ▸ ht.hasRoom.exists_get (ht.layout ▸ hc)

omit [Dimension D] in
theorem of_sameFrame (ht : mesh.IsTileOf n tile) (h : tile.SameFrame tile') :
    mesh.IsTileOf n tile' := by
  obtain ⟨hs, he⟩ := h
  exact {
    node := by rw [he]; exact ht.node
    level := by rw [he]; exact ht.level
    box := by rw [he]; exact ht.box
    layout := by rw [he]; exact ht.layout
    fits := ht.fits
    holds := ht.holds.of_sameShape hs
    variableCount := hs.1.trans ht.variableCount }

end IsTileOf

/-- The mesh and the tiles are alike up to the values in the cells. -/
def SameFrames (mesh : Mesh D L S) (tiles : Vector (Option (Tile D S)) mesh.tree.size) : Prop :=
  ∀ n, Option.Rel Tile.SameFrame (mesh.tile? n) (tiles.get n)

omit [LocationCode D L] [Scalar S] in
theorem SameFrames.symm {tiles : Vector (Option (Tile D S)) mesh.tree.size}
    (h : mesh.SameFrames tiles) : (mesh.withTiles tiles).SameFrames mesh.tiles := fun n =>
  rel_swap (h n) fun _ _ hab => hab.symm

omit [LocationCode D L] [Scalar S] in
theorem SameFrames.trans {tiles tiles' : Vector (Option (Tile D S)) mesh.tree.size}
    (h : mesh.SameFrames tiles) (h' : (mesh.withTiles tiles).SameFrames tiles') :
    mesh.SameFrames tiles' := fun n =>
  rel_trans (h n) (h' n) fun _ _ _ hab hbc => hab.trans hbc

omit [LocationCode D L] [Scalar S] in
/-- Frames that stay the same have the same shapes. -/
theorem SameFrames.sameShapes {tiles : Vector (Option (Tile D S)) mesh.tree.size}
    (h : mesh.SameFrames tiles) : TileUpdate.SameShapes mesh.tiles tiles := fun n =>
  rel_imp (h n) fun _ _ hab => hab.1

omit [LocationCode D L] [Scalar S] in
/-- A tile with the same frame stands for each tile. -/
theorem SameFrames.exists_of_tile {tiles : Vector (Option (Tile D S)) mesh.tree.size}
    (h : mesh.SameFrames tiles) {n : mesh.tree.Node} {a : Tile D S} (ha : mesh.tile? n = some a) :
    ∃ b, tiles.get n = some b ∧ a.SameFrame b := by
  have hrel := h n
  rw [ha] at hrel
  generalize tiles.get n = tile at hrel
  cases hrel with
  | some hab => exact ⟨_, rfl, hab⟩

omit [LocationCode D L] [Scalar S] in
theorem SameFrames.tile?_eq_none {tiles : Vector (Option (Tile D S)) mesh.tree.size}
    (h : mesh.SameFrames tiles) {n : mesh.tree.Node} (hn : mesh.tile? n = none) :
    tiles.get n = none := by
  have hrel := h n
  rw [hn] at hrel
  generalize tiles.get n = tile at hrel
  cases hrel
  rfl

theorem Built.withTiles (hb : mesh.Built) {tiles : Vector (Option (Tile D S)) mesh.tree.size}
    (h : mesh.SameFrames tiles) : (mesh.withTiles tiles).Built := by
  have hblank : (mesh.withTiles tiles).blank = mesh.blank := by
    unfold blank Mesh.withTiles
    simp only [Mesh.mk.injEq, heq_eq_eq, true_and]
    refine Vector.ext fun i hi => ?_
    simp only [Vector.getElem_map]
    have := h ⟨i, hi⟩
    simp only [tile?, Vector.get_eq_getElem] at this
    generalize mesh.tiles[i] = a at this
    generalize tiles[i] = b at this
    cases this with
    | some h => exact congrArg some h.blank_eq
    | none => rfl
  unfold Built
  rw [hblank]
  exact hb

/-! ## Updates cell by cell -/

variable [Dimension D]

/-- What phase one writes to a halo cell of a leaf. -/
def phaseOneAt (mesh : Mesh D L S) (leaf : mesh.tree.Node) (halo : Cell D) :
    Except Fault (Option (CellUpdate S)) := do
  let some tile := mesh.tile? leaf | return none
  let (neighbors, _) ← mesh.neighborTiles leaf
  mesh.phaseOneUpdate tile (neighbors.filter fun n => n.level = tile.level)
    (neighbors.any fun n => tile.level < n.level) halo

/-- What phase two writes to a halo cell of a leaf. -/
def phaseTwoAt (mesh : Mesh D L S) (limiter : Limiter) (leaf : mesh.tree.Node) (halo : Cell D) :
    Except Fault (Option (CellUpdate S)) := do
  let some tile := mesh.tile? leaf | return none
  let (neighbors, _) ← mesh.neighborTiles leaf
  phaseTwoUpdate tile (neighbors.filter fun n => n.level < tile.level) limiter halo

/-- A leaf is gathered from updates for its halo cells, one by one. -/
def GathersFrom (mesh : Mesh D L S) (gather : mesh.tree.Node → Except Fault (TileUpdate mesh.tree S))
    (at' : mesh.tree.Node → Cell D → Except Fault (Option (CellUpdate S))) : Prop :=
  ∀ n, mesh.tree.isLeaf n = true → ∃ absent, absent ≤ (Direction.all D).length ∧
    gather n = do
      let halos ← mesh.layout.haloCellList
      let us ← halos.mapM (at' n)
      return ⟨n, us.filterMap id, absent⟩

theorem IsTileOf.exists_cellCentroid {n : mesh.tree.Node} {tile : Tile D S} {c : Cell D}
    (ht : mesh.IsTileOf n tile) (hc : mesh.layout.Contains c) :
    ∃ x, tile.cellCentroid c = .ok x :=
  ⟨_, ht.hasRoom.cellCentroid_eq (ht.layout ▸ hc)⟩

omit [Scalar S] in
/-- The updates for a leaf's halo cells, each at the storage place of its cell. -/
theorem GathersFrom.exists_updates {gather : mesh.tree.Node → Except Fault (TileUpdate mesh.tree S)}
    {at' : mesh.tree.Node → Cell D → Except Fault (Option (CellUpdate S))}
    (hg : mesh.GathersFrom gather at') {n : mesh.tree.Node} (hn : mesh.tree.isLeaf n = true)
    {u : TileUpdate mesh.tree S} (h : gather n = .ok u) (hfits : mesh.layout.Fits) :
    ∃ halos us, mesh.layout.haloCellList = .ok halos ∧ halos.Nodup ∧
      (∀ c, c ∈ halos ↔ mesh.layout.IsHaloCell c) ∧ halos.mapM (at' n) = .ok us ∧
      u.node = n ∧ u.cells = us.filterMap id ∧ u.absent ≤ (Direction.all D).length := by
  obtain ⟨absent, habsent, hgather⟩ := hg n hn
  obtain ⟨halos, hhalos, hnodup, hmem⟩ := hfits.exists_haloCellList
  rw [hgather, hhalos, ok_bind] at h
  obtain ⟨us, hus, h⟩ := bind_eq_ok_iff.1 h
  obtain rfl := Except.ok.inj h
  exact ⟨halos, us, hhalos, hnodup, hmem, hus, rfl, rfl, habsent⟩

omit [Scalar S] [Dimension D] in
theorem mem_filterMap_of_mapM {f : Cell D → Except Fault (Option (CellUpdate S))}
    {cs : List (Cell D)} {us : List (Option (CellUpdate S))} (h : cs.mapM f = .ok us)
    {w : CellUpdate S} : w ∈ us.filterMap id ↔ ∃ c ∈ cs, f c = .ok (some w) := by
  rw [List.mem_filterMap]
  simp only [id, exists_eq_right, mem_of_mapM_eq_ok h]

omit [Scalar S] [Dimension D] in
/-- Updates of different cells are at different places. -/
theorem nodup_index_of_mapM {layout : TileLayout D}
    {f : Cell D → Except Fault (Option (CellUpdate S))} {cs : List (Cell D)}
    {us : List (Option (CellUpdate S))} (h : cs.mapM f = .ok us) (hnodup : cs.Nodup)
    (hcs : ∀ c ∈ cs, layout.Contains c)
    (hplace : ∀ c ∈ cs, ∀ w, f c = .ok (some w) → w.index = layout.offset c) :
    ((us.filterMap id).map CellUpdate.index).Nodup := by
  induction mapM_eq_ok_iff.1 h with
  | nil => exact List.nodup_nil
  | @cons c r cs us hr hus ih =>
    obtain ⟨hc, hnodup⟩ := List.nodup_cons.1 hnodup
    have hus' := mapM_eq_ok_iff.2 hus
    have hrest := ih hus' hnodup (fun e he => hcs e (List.mem_cons_of_mem c he))
      (fun e he => hplace e (List.mem_cons_of_mem c he))
    rcases r with _ | w
    · exact hrest
    · rw [List.filterMap_cons_some (f := id) (b := w) rfl, List.map_cons, List.nodup_cons]
      refine ⟨fun hmem => ?_, hrest⟩
      obtain ⟨w', hw', hindex⟩ := List.mem_map.1 hmem
      obtain ⟨e, he, hfe⟩ := (mem_filterMap_of_mapM hus').1 hw'
      have hec := TileLayout.offset_injective (hcs e (List.mem_cons_of_mem c he))
        (hcs c List.mem_cons_self) (by
          rw [← hplace e (List.mem_cons_of_mem c he) w' hfe, hindex,
            hplace c List.mem_cons_self w hr])
      exact hc (hec ▸ he)

/-- Writing the updates for the halo cells of a tile sets each to the values of its update, if it
has one, and leaves the internal cells. -/
theorem IsTileOf.get_of_writeAll {n : mesh.tree.Node} {tile : Tile D S} {state : StateBuffer S}
    {f : Cell D → Except Fault (Option (CellUpdate S))} {halos : List (Cell D)}
    {us : List (Option (CellUpdate S))} (hof : mesh.IsTileOf n tile) (hnodup : halos.Nodup)
    (hmem : ∀ c, c ∈ halos ↔ mesh.layout.IsHaloCell c) (hus : halos.mapM f = .ok us)
    (hplace : ∀ c w, mesh.layout.IsHaloCell c → f c = .ok (some w) →
      w.index = mesh.layout.offset c)
    (hstate : tile.state.writeAll (us.filterMap id) = .ok state) :
    (∀ c, mesh.layout.Inside c → ({ tile with state } : Tile D S).get c = tile.get c) ∧
      ∀ c, mesh.layout.IsHaloCell c → ∃ r, f c = .ok r ∧
        ({ tile with state } : Tile D S).get c = r.elim (tile.get c) fun w => .ok w.values := by
  have hof' : mesh.IsTileOf n { tile with state } :=
    hof.of_sameFrame ⟨StateBuffer.sameShape_of_writeAll hstate, rfl⟩
  -- a cell keeps its values unless an update is for it
  have hkeep {c : Cell D} (hc : mesh.layout.Contains c)
      (hno : mesh.layout.IsHaloCell c → f c = .ok none) :
      ({ tile with state } : Tile D S).get c = tile.get c := by
    rw [hof.get_eq hc, hof'.get_eq hc]
    refine StateBuffer.get_of_writeAll_of_forall_ne hstate fun w hw he => ?_
    obtain ⟨e, hehalo, hw⟩ := (mem_filterMap_of_mapM hus).1 hw
    have hhalo := (hmem e).1 hehalo
    rw [hplace e w hhalo hw] at he
    obtain rfl := TileLayout.offset_injective hhalo.1 hc he
    have := hno hhalo
    rw [hw] at this
    simp at this
  refine ⟨fun c hc => hkeep hc.contains fun hhalo => absurd hc hhalo.2, fun c hc => ?_⟩
  obtain ⟨r, hr, hf⟩ := exists_of_mapM_eq_ok hus ((hmem c).2 hc)
  refine ⟨r, hf, ?_⟩
  rcases r with _ | w
  · exact hkeep hc.1 fun _ => hf
  · have hw : w ∈ us.filterMap id := (mem_filterMap_of_mapM hus).2 ⟨c, (hmem c).2 hc, hf⟩
    have hindex := nodup_index_of_mapM hus hnodup (fun e he => ((hmem e).1 he).1)
      fun e he w hw => hplace e w ((hmem e).1 he) hw
    have := StateBuffer.get_of_writeAll_of_mem hstate hindex hw
    rw [hplace c w hc hf] at this
    rw [hof'.get_eq hc.1, this]
    rfl

/-- What a run of a phase does to the tiles, told by its update for each halo cell. -/
structure PhaseResult (mesh : Mesh D L S)
    (at' : mesh.tree.Node → Cell D → Except Fault (Option (CellUpdate S)))
    (tiles : Vector (Option (Tile D S)) mesh.tree.size) : Prop where
  frames : mesh.SameFrames tiles
  inside {n : mesh.tree.Node} {a b : Tile D S} : mesh.tile? n = some a → tiles.get n = some b →
    ∀ c, mesh.layout.Inside c → b.get c = a.get c
  halo {n : mesh.tree.Node} {a b : Tile D S} : mesh.tile? n = some a → tiles.get n = some b →
    ∀ c, mesh.layout.IsHaloCell c → ∃ r, at' n c = .ok r ∧
      b.get c = r.elim (a.get c) fun w => .ok w.values

/-- Every update is at the storage place of its cell. -/
def AtPlace (mesh : Mesh D L S)
    (at' : mesh.tree.Node → Cell D → Except Fault (Option (CellUpdate S))) : Prop :=
  ∀ n c w, mesh.layout.IsHaloCell c → at' n c = .ok (some w) → w.index = mesh.layout.offset c

omit [Scalar S] in
/-- The updates of a leaf are at storage places of halo cells. -/
theorem GathersFrom.exists_place {gather : mesh.tree.Node → Except Fault (TileUpdate mesh.tree S)}
    {at' : mesh.tree.Node → Cell D → Except Fault (Option (CellUpdate S))}
    (hg : mesh.GathersFrom gather at') (hplace : mesh.AtPlace at') {n : mesh.tree.Node}
    (hn : mesh.tree.isLeaf n = true) {u : TileUpdate mesh.tree S} (h : gather n = .ok u)
    (hfits : mesh.layout.Fits) :
    ∀ w ∈ u.cells, ∃ c, mesh.layout.IsHaloCell c ∧ w.index = mesh.layout.offset c := by
  intro w hw
  obtain ⟨halos, us, -, -, hmem, hus, -, hcells, -⟩ := hg.exists_updates hn h hfits
  rw [hcells, mem_filterMap_of_mapM hus] at hw
  obtain ⟨c, hc, hw⟩ := hw
  have hhalo := (hmem c).1 hc
  exact ⟨c, hhalo, hplace n c w hhalo hw⟩

theorem phaseResult_of_runPhase {gather : mesh.tree.Node → Except Fault (TileUpdate mesh.tree S)}
    {at' : mesh.tree.Node → Cell D → Except Fault (Option (CellUpdate S))} (hb : mesh.Built)
    (hg : mesh.GathersFrom gather at') (hplace : mesh.AtPlace at') {stats : ExchangeStats}
    {after : Mesh D L S} (h : mesh.runPhase gather = .ok (stats, after)) :
    ∃ tiles, after = mesh.withTiles tiles ∧ mesh.PhaseResult at' tiles ∧
      ∃ us, mesh.tree.leaves.mapM gather = .ok us ∧ ∀ field ∈ ExchangeStats.fields,
        field stats = (us.map fun u => field u.stats).sum := by
  obtain ⟨tiles, rfl, hleaf, hother, hstats⟩ := runPhase_eq_ok (fun n hn u hu => by
    obtain ⟨-, -, -, -, -, -, hnode, -⟩ := hg.exists_updates hn hu (hb.fits hn)
    exact hnode) h
  have hwritten {n : mesh.tree.Node} {a : Tile D S} (ha : mesh.tile? n = some a) :
      ∃ state, StateBuffer.SameShape state a.state ∧ tiles.get n = some { a with state } ∧
        (∀ c, mesh.layout.Inside c → ({ a with state } : Tile D S).get c = a.get c) ∧
        ∀ c, mesh.layout.IsHaloCell c → ∃ r, at' n c = .ok r ∧
          ({ a with state } : Tile D S).get c = r.elim (a.get c) fun w => .ok w.values := by
    obtain ⟨hn, hof⟩ := hb.isLeaf_of_tile ha
    obtain ⟨u, hu, hwrites⟩ := hleaf n hn
    rw [ha] at hwrites
    obtain ⟨state, hstate, htiles⟩ := hwrites
    obtain ⟨halos, us, -, hnodup, hmem, hus, -, hcells, -⟩ :=
      hg.exists_updates hn hu (hb.fits hn)
    rw [hcells] at hstate
    exact ⟨state, StateBuffer.sameShape_of_writeAll hstate, htiles,
      hof.get_of_writeAll hnodup hmem hus (hplace n) hstate⟩
  refine ⟨tiles, rfl, ⟨fun n => ?_, fun {n a b} ha hb' => ?_, fun {n a b} ha hb' => ?_⟩, hstats⟩
  · rcases ha : mesh.tile? n with _ | a
    · rcases hn : mesh.tree.isLeaf n with _ | _
      · rw [hother n hn, ha]
        exact Option.Rel.none
      · obtain ⟨tile, htile, -⟩ := hb.exists_tile hn
        rw [ha] at htile
        contradiction
    · obtain ⟨state, hshape, htiles, -⟩ := hwritten ha
      rw [htiles]
      exact Option.Rel.some ⟨hshape, rfl⟩
  · obtain ⟨state, -, htiles, hinside, -⟩ := hwritten ha
    obtain rfl := Option.some.inj (hb'.symm.trans htiles)
    exact hinside
  · obtain ⟨state, -, htiles, -, hhalo⟩ := hwritten ha
    obtain rfl := Option.some.inj (hb'.symm.trans htiles)
    exact hhalo

/-! ## Counts -/

/-- The values of all tiles together take fewer bytes than a signed word counts, as they do where
they are held at one time. -/
def Addressable (mesh : Mesh D L S) : Prop :=
  mesh.tree.leaves.length * (mesh.layout.extent ^ D * mesh.config.variableCount *
    StateBuffer.valueBytes) < 2 ^ (Word.width - 1)

/-- A word counts the values of all tiles together. -/
def ValuesFit (mesh : Mesh D L S) : Prop :=
  mesh.tree.leaves.length * (mesh.layout.extent ^ D * mesh.config.variableCount) < Word.bound

omit [Scalar S] [Dimension D] in
theorem Addressable.valuesFit (h : mesh.Addressable) : mesh.ValuesFit := by
  have hle : mesh.tree.leaves.length * (mesh.layout.extent ^ D * mesh.config.variableCount) ≤
      mesh.tree.leaves.length * (mesh.layout.extent ^ D * mesh.config.variableCount *
        StateBuffer.valueBytes) :=
    Nat.mul_le_mul_left _ (Nat.le_mul_of_pos_right _ (by decide))
  exact hle.trans_lt (h.trans Word.half_bound_lt)

omit [Dimension D] in
theorem length_le_of_contains {layout : TileLayout D} {cs : List (Cell D)} (hnodup : cs.Nodup)
    (hcs : ∀ c ∈ cs, layout.Contains c) : cs.length ≤ layout.extent ^ D := by
  have hmap : (cs.map layout.offset).Nodup := hnodup.map_on fun c hc e he h =>
    TileLayout.offset_injective (hcs c hc) (hcs e he) h
  have hsub : cs.map layout.offset ⊆ List.range (layout.extent ^ D) := by
    intro i hi
    obtain ⟨c, hc, rfl⟩ := List.mem_map.1 hi
    exact List.mem_range.2 (TileLayout.offset_lt (hcs c hc))
  have := (hmap.subperm hsub).length_le
  rwa [List.length_map, List.length_range] at this

omit [Scalar S] in
/-- No count of a leaf exceeds the number of its cells. -/
theorem GathersFrom.field_le {gather : mesh.tree.Node → Except Fault (TileUpdate mesh.tree S)}
    {at' : mesh.tree.Node → Cell D → Except Fault (Option (CellUpdate S))}
    (hg : mesh.GathersFrom gather at') {n : mesh.tree.Node} (hn : mesh.tree.isLeaf n = true)
    {u : TileUpdate mesh.tree S} (h : gather n = .ok u) (hfits : mesh.layout.Fits)
    {field : ExchangeStats → Nat} (hf : field ∈ ExchangeStats.fields) :
    field u.stats ≤ mesh.layout.extent ^ D := by
  obtain ⟨halos, us, -, hnodup, hmem, hus, -, hcells, habsent⟩ := hg.exists_updates hn h hfits
  have hlength : u.cells.length ≤ mesh.layout.extent ^ D := by
    calc u.cells.length ≤ us.length := hcells ▸ List.length_filterMap_le _ _
      _ = halos.length := (mapM_eq_ok_iff.1 hus).length_eq.symm
      _ ≤ mesh.layout.extent ^ D := length_le_of_contains hnodup fun c hc => ((hmem c).1 hc).1
  have hcount (transfer : Transfer) : u.count transfer ≤ mesh.layout.extent ^ D :=
    List.countP_le_length.trans hlength
  have hdirections : u.absent ≤ mesh.layout.extent ^ D := by
    refine (habsent.trans Direction.length_all_le).trans (Nat.pow_le_pow_left ?_ D)
    have := mesh.layout.internalCells_pos
    have := mesh.layout.haloLayers_pos
    unfold TileLayout.extent
    omega
  simp only [ExchangeStats.fields, List.mem_cons, List.not_mem_nil, or_false] at hf
  rcases hf with rfl | rfl | rfl | rfl | rfl | rfl
  · exact hcount .copied
  · exact hcount .restricted
  · exact hcount .projected
  · exact hdirections
  · exact Nat.zero_le _
  · exact Nat.zero_le _

/-- The counts of a phase over all leaves fit a word. -/
theorem GathersFrom.sum_lt {gather : mesh.tree.Node → Except Fault (TileUpdate mesh.tree S)}
    {at' : mesh.tree.Node → Cell D → Except Fault (Option (CellUpdate S))} (hb : mesh.Built)
    (hg : mesh.GathersFrom gather at') (hfit : mesh.ValuesFit)
    {us : List (TileUpdate mesh.tree S)} (hus : mesh.tree.leaves.mapM gather = .ok us)
    {field : ExchangeStats → Nat} (hf : field ∈ ExchangeStats.fields) :
    (us.map fun u => field u.stats).sum < Word.bound := by
  have hsum : (us.map fun u => field u.stats).sum ≤
      mesh.tree.leaves.length * mesh.layout.extent ^ D := by
    rw [(mapM_eq_ok_iff.1 hus).length_eq]
    refine List.sum_le_card_nsmul _ _ ?_ |>.trans_eq (by rw [List.length_map, smul_eq_mul])
    intro k hk
    obtain ⟨u, hu, rfl⟩ := List.mem_map.1 hk
    obtain ⟨n, hn, hgather⟩ := (mem_of_mapM_eq_ok hus).1 hu
    have hleaf := Tree.Valid.mem_leaves_iff.1 hn
    exact hg.field_le hleaf hgather (hb.fits hleaf) hf
  have hcount : 0 < mesh.config.variableCount :=
    Nat.pos_of_ne_zero (MeshConfig.of_validate hb.validate_eq).2.2.1
  calc (us.map fun u => field u.stats).sum
      ≤ mesh.tree.leaves.length * mesh.layout.extent ^ D := hsum
    _ ≤ mesh.tree.leaves.length * (mesh.layout.extent ^ D * mesh.config.variableCount) :=
      Nat.mul_le_mul_left _ (Nat.le_mul_of_pos_right _ hcount)
    _ < Word.bound := hfit

/-- A phase runs if it makes an update, or none, for each halo cell. -/
theorem GathersFrom.exists_runPhase
    {gather : mesh.tree.Node → Except Fault (TileUpdate mesh.tree S)}
    {at' : mesh.tree.Node → Cell D → Except Fault (Option (CellUpdate S))} (hb : mesh.Built)
    (hg : mesh.GathersFrom gather at') (hplace : mesh.AtPlace at') (hfit : mesh.ValuesFit)
    (hat : ∀ n, mesh.tree.isLeaf n = true → ∀ c, mesh.layout.IsHaloCell c →
      ∃ r, at' n c = .ok r ∧ ∀ w, r = some w → w.values.size = mesh.config.variableCount) :
    ∃ r, mesh.runPhase gather = .ok r := by
  refine Mesh.exists_runPhase (fun n hn u hu => ?_) (fun n hn => ?_) fun us hus field hf => ?_
  · obtain ⟨-, -, -, -, -, -, hnode, -⟩ := hg.exists_updates hn hu (hb.fits hn)
    exact hnode
  · obtain ⟨tile, htile, hof⟩ := hb.exists_tile hn
    obtain ⟨absent, -, hgather⟩ := hg n hn
    obtain ⟨halos, hhalos, -, hmem⟩ := hof.fits.exists_haloCellList
    obtain ⟨us, hus⟩ := exists_mapM_eq_ok (at' n) halos fun c hc =>
      (hat n hn c ((hmem c).1 hc)).imp fun _ h => h.1
    rw [hhalos, ok_bind, hus, ok_bind] at hgather
    refine ⟨_, hgather, ?_⟩
    have hcells : ∀ w ∈ us.filterMap id, w.index < mesh.layout.extent ^ D ∧
        w.values.size = tile.state.variableCount := by
      intro w hw
      obtain ⟨c, hc, hw⟩ := (mem_filterMap_of_mapM hus).1 hw
      have hhalo := (hmem c).1 hc
      obtain ⟨r, hr, hsize⟩ := hat n hn c hhalo
      obtain rfl := Except.ok.inj (hr.symm.trans hw)
      rw [hplace n c w hhalo hw, hof.variableCount]
      exact ⟨TileLayout.offset_lt hhalo.1, hsize w rfl⟩
    obtain ⟨state, hstate⟩ := hof.holds.exists_writeAll hcells
    rw [htile]
    exact ⟨_, state, hstate, rfl⟩
  · exact hg.sum_lt hb hfit hus hf

variable [LawfulLocation L]

omit [Scalar S] [Dimension D] in
theorem exists_neighborTiles_eq_ok {n : mesh.tree.Node} (hn : mesh.tree.isLeaf n = true) :
    ∃ tiles absent, mesh.neighborTiles n = .ok (tiles, absent) ∧
      absent ≤ (Direction.all D).length := by
  obtain ⟨found, hfound⟩ := exists_mapM_eq_ok (mesh.tree.leafNeighbors n) (Direction.all D)
    fun d _ => Tree.exists_leafNeighbors_eq_ok hn d
  refine ⟨_, _, by unfold neighborTiles; rw [hfound]; rfl, ?_⟩
  exact List.countP_le_length.trans_eq (mapM_eq_ok_iff.1 hfound).length_eq.symm

omit [Scalar S] in
/-- The tiles next to a leaf are those of the leaves that touch it. -/
theorem exists_neighborTiles (ht : mesh.tree.Valid) {n : mesh.tree.Node}
    (hn : mesh.tree.isLeaf n = true) : ∃ tiles absent,
      mesh.neighborTiles n = .ok (tiles, absent) ∧
      ∀ tile, tile ∈ tiles ↔ ∃ b, (mesh.tree.isLeaf b = true ∧ b ≠ n ∧
        Adjoins (mesh.tree.location n) (mesh.tree.location b)) ∧ mesh.tile? b = some tile := by
  obtain ⟨ns, hns, -, hmem⟩ := ht.exists_allLeafNeighbors hn
  unfold Tree.allLeafNeighbors at hns
  obtain ⟨found, hfound, hns⟩ := bind_eq_ok_iff.1 hns
  obtain rfl := Except.ok.inj hns
  refine ⟨_, _, by unfold neighborTiles; rw [hfound]; rfl, fun tile => ?_⟩
  rw [List.mem_filterMap]
  simp only [hmem]

theorem gathersFrom_phaseOne (hb : mesh.Built) :
    mesh.GathersFrom mesh.gatherPhaseOne mesh.phaseOneAt := by
  intro n hn
  obtain ⟨tile, htile, hof⟩ := hb.exists_tile hn
  obtain ⟨neighbors, absent, hns, habsent⟩ := mesh.exists_neighborTiles_eq_ok hn
  refine ⟨absent, habsent, ?_⟩
  have hat : mesh.phaseOneAt n = mesh.phaseOneUpdate tile
      (neighbors.filter fun n => n.level = tile.level)
      (neighbors.any fun n => tile.level < n.level) := by
    funext c
    unfold phaseOneAt
    rw [htile, hns]
    rfl
  unfold gatherPhaseOne
  rw [htile, hns, hat]
  simp only [ok_bind, hof.layout]

theorem gathersFrom_phaseTwo (hb : mesh.Built) (limiter : Limiter) :
    mesh.GathersFrom (mesh.gatherPhaseTwo limiter) (mesh.phaseTwoAt limiter) := by
  intro n hn
  obtain ⟨tile, htile, hof⟩ := hb.exists_tile hn
  obtain ⟨neighbors, absent, hns, -⟩ := mesh.exists_neighborTiles_eq_ok hn
  obtain ⟨halos, hhalos, -, hmem⟩ := hof.fits.exists_haloCellList
  refine ⟨0, Nat.zero_le _, ?_⟩
  have hat : mesh.phaseTwoAt limiter n = phaseTwoUpdate tile
      (neighbors.filter fun n => n.level < tile.level) limiter := by
    funext c
    unfold phaseTwoAt
    rw [htile, hns]
    rfl
  unfold gatherPhaseTwo
  rw [htile, hns, hat, hhalos]
  simp only [ok_bind, hof.layout, hhalos]
  split
  · next hempty =>
    -- without coarser tiles no cell has a source
    rw [List.isEmpty_iff.1 hempty, mapM_eq_ok_map (g := fun _ => none)]
    · rw [ok_bind, List.filterMap_map]
      simp
    · intro c hc
      obtain ⟨x, hx⟩ := hof.exists_cellCentroid ((hmem c).1 hc).1
      unfold phaseTwoUpdate
      rw [hx]
      rfl
  · rfl

omit [LawfulLocation L] in
/-- Phase one copies and restricts. -/
theorem of_phaseOneUpdate {tile : Tile D S} {same : List (Tile D S)} {hasFiner : Bool}
    {c : Cell D} {w : CellUpdate S}
    (h : mesh.phaseOneUpdate tile same hasFiner c = .ok (some w)) :
    tile.layout.index c = .ok w.index ∧ w.transfer ≠ .projected := by
  unfold phaseOneUpdate at h
  obtain ⟨x, -, h⟩ := bind_eq_ok_iff.1 h
  obtain ⟨source, -, h⟩ := bind_eq_ok_iff.1 h
  rcases source with _ | ⟨neighbor, source⟩
  · simp only at h
    split at h
    · cases Except.ok.inj h
    · rcases hcover : mesh.leafContaining x with _ | covering
      · rw [hcover] at h
        cases Except.ok.inj h
      · rw [hcover] at h
        simp only at h
        split at h
        · cases Except.ok.inj h
        · obtain ⟨values, -, h⟩ := bind_eq_ok_iff.1 h
          rcases values with _ | values
          · cases Except.ok.inj h
          · obtain ⟨i, hi, h⟩ := bind_eq_ok_iff.1 h
            rw [hi, ← Option.some.inj (Except.ok.inj h)]
            exact ⟨rfl, by simp⟩
  · obtain ⟨i, hi, h⟩ := bind_eq_ok_iff.1 h
    obtain ⟨values, -, h⟩ := bind_eq_ok_iff.1 h
    rw [hi, ← Option.some.inj (Except.ok.inj h)]
    exact ⟨rfl, by simp⟩

omit [LawfulLocation L] in
/-- Phase two projects. -/
theorem of_phaseTwoUpdate {tile : Tile D S} {coarser : List (Tile D S)} {limiter : Limiter}
    {c : Cell D} {w : CellUpdate S} (h : phaseTwoUpdate tile coarser limiter c = .ok (some w)) :
    tile.layout.index c = .ok w.index ∧ w.transfer = .projected := by
  unfold phaseTwoUpdate at h
  obtain ⟨x, -, h⟩ := bind_eq_ok_iff.1 h
  obtain ⟨source, -, h⟩ := bind_eq_ok_iff.1 h
  rcases source with _ | ⟨neighbor, source⟩
  · cases Except.ok.inj h
  · obtain ⟨i, hi, h⟩ := bind_eq_ok_iff.1 h
    obtain ⟨values, -, h⟩ := bind_eq_ok_iff.1 h
    rw [hi, ← Option.some.inj (Except.ok.inj h)]
    exact ⟨rfl, rfl⟩

omit [LawfulLocation L] in
/-- What phase one writes, it writes to a tile, from those next to it. -/
theorem exists_phaseOneUpdate_of_phaseOneAt {n : mesh.tree.Node} {c : Cell D} {w : CellUpdate S}
    (h : mesh.phaseOneAt n c = .ok (some w)) : ∃ tile neighbors absent, mesh.tile? n = some tile ∧
      mesh.neighborTiles n = .ok (neighbors, absent) ∧
        mesh.phaseOneUpdate tile (neighbors.filter fun n => n.level = tile.level)
          (neighbors.any fun n => tile.level < n.level) c = .ok (some w) := by
  unfold phaseOneAt at h
  rcases htile : mesh.tile? n with _ | tile
  · rw [htile] at h
    cases Except.ok.inj h
  · rw [htile] at h
    obtain ⟨⟨neighbors, absent⟩, hns, h⟩ := bind_eq_ok_iff.1 h
    exact ⟨tile, neighbors, absent, rfl, hns, h⟩

omit [LawfulLocation L] in
theorem exists_phaseTwoUpdate_of_phaseTwoAt {limiter : Limiter} {n : mesh.tree.Node} {c : Cell D}
    {w : CellUpdate S} (h : mesh.phaseTwoAt limiter n c = .ok (some w)) :
    ∃ tile neighbors absent, mesh.tile? n = some tile ∧
      mesh.neighborTiles n = .ok (neighbors, absent) ∧
        phaseTwoUpdate tile (neighbors.filter fun n => n.level < tile.level) limiter c =
          .ok (some w) := by
  unfold phaseTwoAt at h
  rcases htile : mesh.tile? n with _ | tile
  · rw [htile] at h
    cases Except.ok.inj h
  · rw [htile] at h
    obtain ⟨⟨neighbors, absent⟩, hns, h⟩ := bind_eq_ok_iff.1 h
    exact ⟨tile, neighbors, absent, rfl, hns, h⟩

omit [LawfulLocation L] in
/-- Phase one writes to the storage places of the cells, and projects nothing. -/
theorem Built.of_phaseOneAt (hb : mesh.Built) {n : mesh.tree.Node} {c : Cell D}
    {w : CellUpdate S} (hc : mesh.layout.Contains c) (h : mesh.phaseOneAt n c = .ok (some w)) :
    w.index = mesh.layout.offset c ∧ w.transfer ≠ .projected := by
  obtain ⟨tile, neighbors, absent, htile, -, h⟩ := exists_phaseOneUpdate_of_phaseOneAt h
  have hof := (hb.isLeaf_of_tile htile).2
  obtain ⟨hindex, htransfer⟩ := of_phaseOneUpdate h
  rw [hof.layout, hof.fits.index hc] at hindex
  exact ⟨(Except.ok.inj hindex).symm, htransfer⟩

omit [LawfulLocation L] in
/-- Phase two writes to the storage places of the cells, and only projects. -/
theorem Built.of_phaseTwoAt (hb : mesh.Built) {limiter : Limiter} {n : mesh.tree.Node} {c : Cell D}
    {w : CellUpdate S} (hc : mesh.layout.Contains c)
    (h : mesh.phaseTwoAt limiter n c = .ok (some w)) :
    w.index = mesh.layout.offset c ∧ w.transfer = .projected := by
  obtain ⟨tile, neighbors, absent, htile, -, h⟩ := exists_phaseTwoUpdate_of_phaseTwoAt h
  have hof := (hb.isLeaf_of_tile htile).2
  obtain ⟨hindex, htransfer⟩ := of_phaseTwoUpdate h
  rw [hof.layout, hof.fits.index hc] at hindex
  exact ⟨(Except.ok.inj hindex).symm, htransfer⟩

omit [LawfulLocation L] in
theorem atPlace_phaseOne (hb : mesh.Built) : mesh.AtPlace mesh.phaseOneAt :=
  fun _ _ _ hc hw => (hb.of_phaseOneAt hc.1 hw).1

omit [LawfulLocation L] in
theorem atPlace_phaseTwo (hb : mesh.Built) (limiter : Limiter) :
    mesh.AtPlace (mesh.phaseTwoAt limiter) :=
  fun _ _ _ hc hw => (hb.of_phaseTwoAt hc.1 hw).1

/-! ## Which phase counts what -/

omit [Scalar S] [LawfulLocation L] in
/-- A transfer by which no cell of a leaf is updated is not counted for it. -/
theorem GathersFrom.count_eq_zero
    {gather : mesh.tree.Node → Except Fault (TileUpdate mesh.tree S)}
    {at' : mesh.tree.Node → Cell D → Except Fault (Option (CellUpdate S))}
    (hg : mesh.GathersFrom gather at') {n : mesh.tree.Node} (hn : mesh.tree.isLeaf n = true)
    {u : TileUpdate mesh.tree S} (h : gather n = .ok u) (hfits : mesh.layout.Fits)
    {transfer : Transfer} (hnot : ∀ c w, mesh.layout.Contains c → at' n c = .ok (some w) →
      w.transfer ≠ transfer) : u.count transfer = 0 := by
  obtain ⟨halos, us, -, -, hmem, hus, -, hcells, -⟩ := hg.exists_updates hn h hfits
  refine List.countP_eq_zero.2 fun w hw => ?_
  rw [hcells, mem_filterMap_of_mapM hus] at hw
  obtain ⟨c, hc, hw⟩ := hw
  simpa using hnot c w ((hmem c).1 hc).1 hw

/-- Phase one counts no projection. -/
theorem Built.projected_of_gatherPhaseOne (hb : mesh.Built) {n : mesh.tree.Node}
    (hn : mesh.tree.isLeaf n = true) {u : TileUpdate mesh.tree S}
    (h : mesh.gatherPhaseOne n = .ok u) : u.stats.projected = 0 :=
  (gathersFrom_phaseOne hb).count_eq_zero hn h (hb.fits hn) fun _ _ hc hw =>
    (hb.of_phaseOneAt hc hw).2

/-- Phase two counts projections alone. -/
theorem Built.of_gatherPhaseTwo (hb : mesh.Built) {limiter : Limiter} {n : mesh.tree.Node}
    (hn : mesh.tree.isLeaf n = true) {u : TileUpdate mesh.tree S}
    (h : mesh.gatherPhaseTwo limiter n = .ok u) :
    u.stats.copied = 0 ∧ u.stats.restricted = 0 ∧ u.stats.absent = 0 := by
  have hcount {transfer : Transfer} (ht : transfer ≠ .projected) : u.count transfer = 0 :=
    (gathersFrom_phaseTwo hb limiter).count_eq_zero hn h (hb.fits hn) fun _ _ hc hw =>
      (hb.of_phaseTwoAt hc hw).2 ▸ ht.symm
  refine ⟨hcount (by decide), hcount (by decide), ?_⟩
  obtain ⟨tile, htile, -⟩ := hb.exists_tile hn
  unfold gatherPhaseTwo at h
  rw [htile] at h
  obtain ⟨_, -, h⟩ := bind_eq_ok_iff.1 h
  simp only at h
  split at h
  · rw [← Except.ok.inj h]
    rfl
  · obtain ⟨_, -, h⟩ := bind_eq_ok_iff.1 h
    obtain ⟨_, -, h⟩ := bind_eq_ok_iff.1 h
    rw [← Except.ok.inj h]
    rfl

end Mesh

end AdaptiveMesh
