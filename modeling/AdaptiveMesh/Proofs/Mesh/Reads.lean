import AdaptiveMesh.Proofs.Mesh.Project

/-!
# What an exchange reads

Phase one reads internal cells alone, so it gathers the same on two meshes that differ in halo cells
only. Phase two reads one more kind of cell, the halo cells next to the source of a projection.
-/

namespace AdaptiveMesh

open LocationCode

variable {D : Nat} {L S : Type} [LocationCode D L]

/-! ## Tiles that differ in halo cells -/

namespace Tile

theorem SameFrame.level_eq {a b : Tile D S} (h : a.SameFrame b) : b.level = a.level := by rw [h.2]

/-- The tiles are alike up to the values in halo cells. -/
def SameInside (a b : Tile D S) : Prop :=
  a.SameFrame b ∧ ∀ c, a.layout.Inside c → b.get c = a.get c

theorem SameInside.refl (a : Tile D S) : a.SameInside a := ⟨SameFrame.refl a, fun _ _ => rfl⟩

theorem SameInside.trans {a b c : Tile D S} (h : a.SameInside b) (h' : b.SameInside c) :
    a.SameInside c := by
  refine ⟨h.1.trans h'.1, fun e he => ?_⟩
  rw [h'.2 e (h.1.layout_eq ▸ he), h.2 e he]

variable [Scalar S]

section Frame

variable {a b : Tile D S}

theorem SameFrame.cellLength_eq (h : a.SameFrame b) : b.cellLength = a.cellLength := by
  rw [h.2]
  rfl

theorem SameFrame.cellCentroid_eq (h : a.SameFrame b) (c : Cell D) :
    b.cellCentroid c = a.cellCentroid c := by
  rw [h.2]
  rfl

theorem SameFrame.internalCellContaining_eq [Dimension D] (h : a.SameFrame b) (x : Point S) :
    b.internalCellContaining x = a.internalCellContaining x := by
  rw [h.2]
  rfl

end Frame

/-- The internal cell over a point is one. -/
theorem inside_of_internalCellContaining [Dimension D] {tile : Tile D S} {x : Point S} {c : Cell D}
    (h : tile.internalCellContaining x = .ok (some c)) : tile.layout.Inside c := by
  unfold internalCellContaining at h
  obtain ⟨r, -, h⟩ := bind_eq_ok_iff.1 h
  rcases r with _ | c'
  · cases Except.ok.inj h
  · obtain ⟨internal, hinternal, h⟩ := bind_eq_ok_iff.1 h
    have hsome := Except.ok.inj h
    rw [Option.ite_none_right_eq_some] at hsome
    obtain ⟨rfl, hcell⟩ := hsome
    obtain rfl := Option.some.inj hcell
    unfold TileLayout.isInternal at hinternal
    obtain ⟨_, -, hinternal⟩ := bind_eq_ok_iff.1 hinternal
    obtain ⟨last, hlast, hinternal⟩ := bind_eq_ok_iff.1 hinternal
    unfold TileLayout.lastInternal at hlast
    obtain ⟨stop, hstop, hlast⟩ := bind_eq_ok_iff.1 hlast
    obtain ⟨-, rfl⟩ := Word.add_eq_ok_iff.1 hstop
    obtain ⟨hle, rfl⟩ := Word.sub_eq_ok_iff.1 hlast
    have hall := vector_all_iff.1 (Except.ok.inj hinternal)
    intro d
    have hd := of_decide_eq_true (hall d)
    unfold TileLayout.firstInternal at hd
    omega

end Tile

namespace Mesh

variable [Scalar S] {mesh : Mesh D L S} {tiles : Vector (Option (Tile D S)) mesh.tree.size}

/-- Tiles in a relation to those of a mesh are their images under one function. -/
theorem Built.exists_map (hb : mesh.Built) {r : Tile D S → Tile D S → Prop} (hr : ∀ a, r a a)
    (h : ∀ n, Option.Rel r (mesh.tile? n) (tiles.get n)) :
    ∃ g : Tile D S → Tile D S, (∀ a, r a (g a)) ∧ ∀ n, tiles.get n = (mesh.tile? n).map g := by
  classical
  have hpick (a : Tile D S) : ∃ b, r a b ∧ ∀ n, mesh.tile? n = some a → tiles.get n = some b := by
    by_cases ha : ∃ n, mesh.tile? n = some a
    · obtain ⟨n, hn⟩ := ha
      have hrel := h n
      rw [hn] at hrel
      generalize htile : tiles.get n = tile at hrel
      cases hrel with
      | some hab => exact ⟨_, hab, fun m hm => hb.eq_of_tile hn hm ▸ htile⟩
    · exact ⟨a, hr a, fun n hn => absurd ⟨n, hn⟩ ha⟩
  choose g hg hget using hpick
  refine ⟨g, hg, fun n => ?_⟩
  rcases hn : mesh.tile? n with _ | a
  · have hrel := h n
    rw [hn] at hrel
    generalize tiles.get n = tile at hrel
    cases hrel
    rfl
  · exact hget a n hn

/-- The mesh and the tiles are alike up to the values in halo cells. -/
def SameInsides (mesh : Mesh D L S) (tiles : Vector (Option (Tile D S)) mesh.tree.size) : Prop :=
  ∀ n, Option.Rel Tile.SameInside (mesh.tile? n) (tiles.get n)

omit [LocationCode D L] [Scalar S] in
theorem SameInsides.refl (mesh : Mesh D L S) : mesh.SameInsides mesh.tiles := by
  intro n
  change Option.Rel _ (mesh.tile? n) (mesh.tile? n)
  cases mesh.tile? n with
  | none => exact .none
  | some a => exact .some (Tile.SameInside.refl a)

omit [LocationCode D L] [Scalar S] in
theorem SameInsides.trans {tiles' : Vector (Option (Tile D S)) mesh.tree.size}
    (h : mesh.SameInsides tiles) (h' : (mesh.withTiles tiles).SameInsides tiles') :
    mesh.SameInsides tiles' := fun n =>
  rel_trans (h n) (h' n) fun _ _ _ hab hbc => hab.trans hbc

omit [LocationCode D L] [Scalar S] in
theorem SameInsides.frames (h : mesh.SameInsides tiles) : mesh.SameFrames tiles := fun n =>
  rel_imp (h n) fun _ _ hab => hab.1

theorem Built.sameInsides (hb : mesh.Built) (hframes : mesh.SameFrames tiles)
    (hget : ∀ n a b, mesh.tile? n = some a → tiles.get n = some b → ∀ c, mesh.layout.Inside c →
      b.get c = a.get c) : mesh.SameInsides tiles := by
  intro n
  have hrel := hframes n
  have hcells := hget n
  have hlayout (a : Tile D S) (ha : mesh.tile? n = some a) := (hb.isLeaf_of_tile ha).2.layout
  generalize mesh.tile? n = a at hrel hcells hlayout
  generalize tiles.get n = b at hrel hcells
  cases hrel with
  | none => exact .none
  | @some a b hab => exact .some ⟨hab, fun c hc => hcells a b rfl rfl c (hlayout a rfl ▸ hc)⟩

theorem Built.exists_map_sameInside (hb : mesh.Built) (h : mesh.SameInsides tiles) :
    ∃ g : Tile D S → Tile D S, (∀ a : Tile D S, a.SameInside (g a)) ∧
      ∀ n, tiles.get n = (mesh.tile? n).map g :=
  hb.exists_map Tile.SameInside.refl h

/-! ## Sources -/

omit [Scalar S] in
theorem neighborTiles_map {g : Tile D S → Tile D S}
    (htiles : ∀ n, tiles.get n = (mesh.tile? n).map g) (n : mesh.tree.Node) :
    (mesh.withTiles tiles).neighborTiles n =
      (fun r => (r.1.map g, r.2)) <$> mesh.neighborTiles n := by
  have htile : (mesh.withTiles tiles).tile? = fun n => (mesh.tile? n).map g := funext htiles
  unfold neighborTiles
  rw [htile]
  change ((Direction.all D).mapM (mesh.tree.leafNeighbors n) >>= fun found => Except.ok
    (found.flatten.eraseDups.filterMap fun n => (mesh.tile? n).map g, found.countP List.isEmpty)) = _
  rcases (Direction.all D).mapM (mesh.tree.leafNeighbors n) with e | found
  · rfl
  · exact congrArg Except.ok (Prod.ext (List.map_filterMap ..).symm rfl)

variable [Dimension D]

omit [LocationCode D L] in
theorem firstSource_map {g : Tile D S → Tile D S} (hg : ∀ a : Tile D S, a.SameFrame (g a))
    (ts : List (Tile D S)) (x : Point S) :
    firstSource (ts.map g) x = Option.map (Prod.map g id) <$> firstSource ts x := by
  induction ts with
  | nil => rfl
  | cons t ts ih =>
    unfold firstSource at ih ⊢
    rw [List.map_cons, List.findSomeM?_cons, List.findSomeM?_cons, ih,
      (hg t).internalCellContaining_eq]
    rcases t.internalCellContaining x with _ | _ | c <;> rfl

omit [LocationCode D L] in
theorem of_firstSource {ts : List (Tile D S)} {x : Point S} {tile : Tile D S} {c : Cell D}
    (h : firstSource ts x = .ok (some (tile, c))) : tile ∈ ts ∧ tile.layout.Inside c := by
  induction ts with
  | nil => cases Except.ok.inj h
  | cons t ts ih =>
    unfold firstSource at ih h
    rw [List.findSomeM?_cons] at h
    rcases hcell : t.internalCellContaining x with _ | _ | c'
    · rw [hcell] at h
      contradiction
    · rw [hcell] at h
      exact (ih h).imp_left (List.mem_cons_of_mem t)
    · rw [hcell] at h
      obtain ⟨rfl, rfl⟩ := Prod.mk.inj (Option.some.inj (Except.ok.inj h))
      exact ⟨List.mem_cons_self, Tile.inside_of_internalCellContaining hcell⟩

/-! ## Phase one -/

section PhaseOne

variable {g : Tile D S → Tile D S} (hg : ∀ a : Tile D S, a.SameInside (g a))
  (htiles : ∀ n, tiles.get n = (mesh.tile? n).map g)

include hg htiles

theorem restrictWithin_map_of (k : Nat) (ih : ∀ j, k = j + 1 →
    (mesh.withTiles tiles).restrictWithin j = mesh.restrictWithin j) :
    (mesh.withTiles tiles).restrictWithin k = mesh.restrictWithin k := by
  have htile : (mesh.withTiles tiles).tile? = fun n => (mesh.tile? n).map g := funext htiles
  have hleaf : (mesh.withTiles tiles).leafContaining = mesh.leafContaining := rfl
  funext x length
  unfold restrictWithin
  simp only [htile, hleaf]
  rcases mesh.leafContaining x with _ | leaf
  · rfl
  · simp only
    rcases mesh.tile? leaf with _ | tile
    · rfl
    · simp only [Option.map_some, (hg tile).1.cellLength_eq, (hg tile).1.internalCellContaining_eq,
        (hg tile).1.1.1]
      split
      · rcases hcell : tile.internalCellContaining x with _ | _ | c
        · rfl
        · rfl
        · simp only [ok_bind, (hg tile).2 c (Tile.inside_of_internalCellContaining hcell)]
      · rcases k with _ | j
        · rfl
        · simp only [ih j rfl]

theorem restrictWithin_map (k : Nat) :
    (mesh.withTiles tiles).restrictWithin k = mesh.restrictWithin k := by
  induction k with
  | zero => exact restrictWithin_map_of hg htiles 0 fun j hj => by contradiction
  | succ k ih =>
    exact restrictWithin_map_of hg htiles (k + 1) fun j hj => Nat.succ.inj hj ▸ ih

theorem phaseOneUpdate_map (tile : Tile D S) (same : List (Tile D S)) (hasFiner : Bool) :
    (mesh.withTiles tiles).phaseOneUpdate (g tile) (same.map g) hasFiner =
      mesh.phaseOneUpdate tile same hasFiner := by
  have hrestrict : (mesh.withTiles tiles).restrict = mesh.restrict := by
    unfold restrict
    rw [restrictWithin_map hg htiles]
  have hleaf : (mesh.withTiles tiles).leafContaining = mesh.leafContaining := rfl
  funext c
  unfold phaseOneUpdate
  rw [(hg tile).1.cellCentroid_eq, (hg tile).1.layout_eq, (hg tile).1.level_eq,
    (hg tile).1.cellLength_eq]
  rcases tile.cellCentroid c with e | x
  · rfl
  · rw [ok_bind, ok_bind, firstSource_map fun a => (hg a).1]
    rcases hsource : firstSource same x with _ | _ | ⟨neighbor, source⟩
    · rfl
    · rcases hasFiner with _ | _
      · rfl
      · simp only [hrestrict, hleaf]
        rcases mesh.leafContaining x with _ | covering
        · rfl
        · change (if mesh.tree.level covering ≤ tile.level then _ else _) =
            (if mesh.tree.level covering ≤ tile.level then _ else _)
          split <;> rfl
    · have hget := (hg neighbor).2 source ((of_firstSource hsource).2)
      change (tile.layout.index c >>= fun i => (g neighbor).get source >>= fun values => _) = _
      rw [hget]
      rfl

/-- Phase one gathers the same on tiles with the same internal cells. -/
theorem gatherPhaseOne_map : (mesh.withTiles tiles).gatherPhaseOne = mesh.gatherPhaseOne := by
  funext (n : mesh.tree.Node)
  have htile : (mesh.withTiles tiles).tile? n = (mesh.tile? n).map g := htiles n
  have hns := neighborTiles_map htiles n
  unfold gatherPhaseOne
  rw [htile, hns]
  rcases mesh.tile? n with _ | tile
  · rfl
  · rcases mesh.neighborTiles n with e | ⟨neighbors, absent⟩
    · rfl
    · have hsame : (neighbors.map g).filter (fun t => t.level = (g tile).level) =
          (neighbors.filter fun t => t.level = tile.level).map g := by
        rw [List.filter_map]
        simp only [Function.comp_def, fun a => (hg a).1.level_eq]
      have hfiner : ((neighbors.map g).any fun t => (g tile).level < t.level) =
          neighbors.any fun t => tile.level < t.level := by
        rw [List.any_map]
        simp only [Function.comp_def, fun a => (hg a).1.level_eq]
      change ((g tile).layout.haloCellList >>= fun halos => halos.mapM
        ((mesh.withTiles tiles).phaseOneUpdate (g tile)
          ((neighbors.map g).filter fun t => t.level = (g tile).level)
          ((neighbors.map g).any fun t => (g tile).level < t.level)) >>= fun updates =>
        (Except.ok ⟨n, updates.filterMap id, absent⟩ : Except Fault (TileUpdate mesh.tree S))) = _
      rw [hsame, hfiner, phaseOneUpdate_map hg htiles, (hg tile).1.layout_eq]
      rfl

end PhaseOne

/-- Phase one reads internal cells alone. -/
theorem Built.gatherPhaseOne_eq (hb : mesh.Built) (h : mesh.SameInsides tiles) :
    (mesh.withTiles tiles).gatherPhaseOne = mesh.gatherPhaseOne := by
  obtain ⟨g, hg, htiles⟩ := hb.exists_map_sameInside h
  exact gatherPhaseOne_map hg htiles

/-! ## Phase two -/

/-- A cell is projected from an internal cell of a tile. -/
theorem of_projectionSource {n : mesh.tree.Node} {c : Cell D} {coarse : Tile D S} {source : Cell D}
    (h : mesh.projectionSource n c = .ok (some (coarse, source))) :
    (∃ b, mesh.tile? b = some coarse) ∧ coarse.layout.Inside source := by
  obtain ⟨tile, neighbors, absent, x, -, hns, -, h⟩ := projectionSource_eq_some_iff.1 h
  obtain ⟨hmem, hinside⟩ := of_firstSource h
  refine ⟨?_, hinside⟩
  unfold neighborTiles at hns
  obtain ⟨found, -, hns⟩ := bind_eq_ok_iff.1 hns
  obtain ⟨rfl, -⟩ := Prod.mk.inj (Except.ok.inj hns)
  obtain ⟨b, -, hb⟩ := List.mem_filterMap.1 (List.mem_filter.1 hmem).1
  exact ⟨b, hb⟩

/-- What phase two writes is projected from a source. -/
theorem exists_projectionSource_of_phaseTwoAt {limiter : Limiter} {n : mesh.tree.Node} {c : Cell D}
    {w : CellUpdate S} (h : mesh.phaseTwoAt limiter n c = .ok (some w)) :
    ∃ r, mesh.projectionSource n c = .ok (some r) := by
  obtain ⟨tile, neighbors, absent, htile, hns, h⟩ := exists_phaseTwoUpdate_of_phaseTwoAt h
  unfold phaseTwoUpdate at h
  obtain ⟨x, hx, h⟩ := bind_eq_ok_iff.1 h
  obtain ⟨r, hr, h⟩ := bind_eq_ok_iff.1 h
  rcases r with _ | r
  · cases Except.ok.inj h
  · exact ⟨r, projectionSource_eq_some_iff.2 ⟨tile, neighbors, absent, x, htile, hns, hx, hr⟩⟩

/-- A projection reads its source and the neighbours of that along each axis. -/
theorem IsTileOf.project_congr {b : mesh.tree.Node} {tile tile' : Tile D S} {source : Cell D}
    (hof : mesh.IsTileOf b tile) (hframe : tile.SameFrame tile') (hs : mesh.layout.Inside source)
    (hcenter : tile'.get source = tile.get source) (hstep : ∀ d steps, steps = 1 ∨ steps = -1 →
      tile'.get (TileLayout.stepped source d steps) = tile.get (TileLayout.stepped source d steps))
    (x : Point S) (limiter : Limiter) :
    project tile' source x limiter = project tile source x limiter := by
  obtain ⟨centroid, hcentroid⟩ := hof.exists_cellCentroid hs.contains
  obtain ⟨center, hvalues, -⟩ := hof.exists_get hs.contains
  obtain ⟨lower, upper, hlower, hupper, -, -⟩ := hof.exists_around hs
  rw [hof.project_eq hs hcentroid hvalues hlower hupper, (hof.of_sameFrame hframe).project_eq hs
    ((hframe.cellCentroid_eq source).trans hcentroid) (hcenter.trans hvalues)
    (fun d => (hstep d (-1) (Or.inr rfl)).trans (hlower d))
    (fun d => (hstep d 1 (Or.inl rfl)).trans (hupper d)), hframe.cellLength_eq]

section PhaseTwo

variable {g : Tile D S → Tile D S} (hg : ∀ a : Tile D S, a.SameFrame (g a))
  (htiles : ∀ n, tiles.get n = (mesh.tile? n).map g)

include hg

omit [LocationCode D L] [Scalar S] [Dimension D] in
theorem filter_coarser_map (tile : Tile D S) (tiles : List (Tile D S)) :
    ((tiles.map g).filter fun t => t.level < (g tile).level) =
      (tiles.filter fun t => t.level < tile.level).map g := by
  rw [List.filter_map]
  simp only [Function.comp_def, fun a => (hg a).level_eq]

omit [LocationCode D L] in
theorem phaseTwoUpdate_map {tile : Tile D S} {coarser : List (Tile D S)} {limiter : Limiter}
    {c : Cell D} (hread : ∀ x coarse source, tile.cellCentroid c = .ok x →
      firstSource coarser x = .ok (some (coarse, source)) →
        project (g coarse) source x limiter = project coarse source x limiter) :
    phaseTwoUpdate (g tile) (coarser.map g) limiter c = phaseTwoUpdate tile coarser limiter c := by
  unfold phaseTwoUpdate
  rw [(hg tile).cellCentroid_eq, (hg tile).layout_eq]
  rcases hx : tile.cellCentroid c with e | x
  · rfl
  · rw [ok_bind, ok_bind, firstSource_map hg]
    rcases hsource : firstSource coarser x with _ | _ | ⟨coarse, source⟩
    · rfl
    · rfl
    · change (tile.layout.index c >>= fun i => project (g coarse) source x limiter >>= _) = _
      rw [hread x coarse source hx hsource]
      rfl

include htiles

/-- The sources of projections do not depend on values. -/
theorem projectionSource_map (n : mesh.tree.Node) (c : Cell D) :
    (mesh.withTiles tiles).projectionSource n c =
      Option.map (Prod.map g id) <$> mesh.projectionSource n c := by
  have htile : (mesh.withTiles tiles).tile? n = (mesh.tile? n).map g := htiles n
  have hns := neighborTiles_map htiles n
  unfold projectionSource
  rw [htile, hns]
  rcases mesh.tile? n with _ | tile
  · rfl
  · rcases mesh.neighborTiles n with e | ⟨neighbors, absent⟩
    · rfl
    · have hcoarser := filter_coarser_map hg tile neighbors
      change ((g tile).cellCentroid c >>= fun x =>
        firstSource ((neighbors.map g).filter fun t => t.level < (g tile).level) x) = _ <$>
          (tile.cellCentroid c >>= fun x =>
            firstSource (neighbors.filter fun t => t.level < tile.level) x)
      rw [hcoarser, (hg tile).cellCentroid_eq]
      rcases tile.cellCentroid c with e | x
      · rfl
      · exact firstSource_map hg _ x

/-- Phase two gathers the same if it projects the same from every source. -/
theorem gatherPhaseTwo_map (hb : mesh.Built) {limiter : Limiter}
    (hread : ∀ n c coarse source x, mesh.layout.IsHaloCell c →
      mesh.projectionSource n c = .ok (some (coarse, source)) →
        project (g coarse) source x limiter = project coarse source x limiter) :
    (mesh.withTiles tiles).gatherPhaseTwo limiter = mesh.gatherPhaseTwo limiter := by
  funext (n : mesh.tree.Node)
  have htile : (mesh.withTiles tiles).tile? n = (mesh.tile? n).map g := htiles n
  have hns := neighborTiles_map htiles n
  unfold gatherPhaseTwo
  rw [htile, hns]
  rcases hn : mesh.tile? n with _ | tile
  · rfl
  · rcases hneighbors : mesh.neighborTiles n with e | ⟨neighbors, absent⟩
    · rfl
    · have hcoarser := filter_coarser_map hg tile neighbors
      have hof := (hb.isLeaf_of_tile hn).2
      obtain ⟨halos, hhalos, -, hmem⟩ := hof.fits.exists_haloCellList
      have hupdates : halos.mapM (phaseTwoUpdate (g tile)
          ((neighbors.filter fun t => t.level < tile.level).map g) limiter) = halos.mapM
            (phaseTwoUpdate tile (neighbors.filter fun t => t.level < tile.level) limiter) :=
        mapM_congr fun c hc => phaseTwoUpdate_map hg fun x coarse source hx hsource =>
          hread n c coarse source x ((hmem c).1 hc)
            (projectionSource_eq_some_iff.2 ⟨tile, neighbors, absent, x, hn, hneighbors, hx, hsource⟩)
      change (if ((neighbors.map g).filter fun t => t.level < (g tile).level).isEmpty then _ else
        (g tile).layout.haloCellList >>= fun halos => halos.mapM (phaseTwoUpdate (g tile)
          ((neighbors.map g).filter fun t => t.level < (g tile).level) limiter) >>= fun updates =>
        (Except.ok ⟨n, updates.filterMap id, 0⟩ : Except Fault (TileUpdate mesh.tree S))) = _
      rw [hcoarser, List.isEmpty_map, (hg tile).layout_eq, hof.layout, hhalos, ok_bind, hupdates]
      change _ = (if (neighbors.filter fun t => t.level < tile.level).isEmpty then _ else
        tile.layout.haloCellList >>= _)
      rw [hof.layout, hhalos]
      exact if_congr Iff.rfl rfl rfl

end PhaseTwo

/-! ## Meshes known from their cells -/

theorem IsTileOf.ext {n : mesh.tree.Node} {tile tile' : Tile D S} (hof : mesh.IsTileOf n tile)
    (hframe : tile.SameFrame tile') (hget : ∀ c, mesh.layout.Contains c → tile'.get c = tile.get c) :
    tile' = tile := by
  have hstate : tile'.state = tile.state := by
    refine hof.holds.ext hframe.1 fun j hj => ?_
    obtain ⟨c, hc, rfl⟩ := TileLayout.exists_offset_eq hj
    rw [← hof.get_eq hc, ← (hof.of_sameFrame hframe).get_eq hc]
    exact hget c hc
  rw [hframe.2, hstate]

/-- A mesh is known from the values of its cells. -/
theorem Built.eq_of_get (hb : mesh.Built) (hframes : mesh.SameFrames tiles)
    (hget : ∀ n a b, mesh.tile? n = some a → tiles.get n = some b → ∀ c, mesh.layout.Contains c →
      b.get c = a.get c) : tiles = mesh.tiles := by
  refine Vector.ext fun i hi => ?_
  have hrel := hframes ⟨i, hi⟩
  have hcells := hget ⟨i, hi⟩
  have hbefore : mesh.tile? ⟨i, hi⟩ = mesh.tiles[i] := rfl
  have hafter : tiles.get ⟨i, hi⟩ = tiles[i] := rfl
  rw [← hbefore, ← hafter]
  generalize hb' : tiles.get ⟨i, hi⟩ = b at hrel hcells
  generalize ha : mesh.tile? ⟨i, hi⟩ = a at hrel hcells
  cases hrel with
  | none => rfl
  | some hframe =>
    exact congrArg some ((hb.isLeaf_of_tile ha).2.ext hframe (hcells _ _ rfl rfl))

end Mesh

end AdaptiveMesh
