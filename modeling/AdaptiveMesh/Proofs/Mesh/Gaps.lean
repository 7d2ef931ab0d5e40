import AdaptiveMesh.Proofs.Mesh.Coverage
import AdaptiveMesh.Proofs.Mesh.Make
import AdaptiveMesh.Proofs.Mesh.Volume

/-!
# Cells over partly refined nodes

Phase one looks for finer leaves under a leaf's halo only if one of them touches the leaf. It
restricts a halo cell exactly if finer leaves cover the cell and one touches the leaf. On a complete
tree the first implies the second. On a tree with gaps it does not: a deep halo reaches over the gap
next to the leaf to finer leaves behind it, and the cells there are left as they were.
-/

namespace AdaptiveMesh

open LocationCode

variable {D : Nat} {L : Type} [LocationCode D L] [Dimension D]

namespace Mesh

/-- Leaves finer than the tile lie over every point of one of its cells. -/
def CoveredByFiner (mesh : Mesh D L ℚ) (tile : Tile D ℚ) (c : Cell D) : Prop :=
  ∀ p, tile.CellLiesOver c p →
    ∃ b fine, mesh.tile? b = some fine ∧ tile.level < fine.level ∧ fine.box.LiesOver p

/-- The closed box of a finer leaf shares a point with that of the leaf. -/
def TouchedByFiner (mesh : Mesh D L ℚ) (n : mesh.tree.Node) : Prop :=
  ∃ b, mesh.tree.isLeaf b = true ∧ mesh.tree.level n < mesh.tree.level b ∧
    Touches mesh.tree.maxLevel (mesh.tree.location n) (mesh.tree.location b)

variable [LawfulLocation L] {mesh : Mesh D L ℚ} {n b : mesh.tree.Node} {a tile : Tile D ℚ}
  {c : Cell D}

theorem IsTileOf.coveredByFiner_iff (hof : mesh.IsTileOf n tile) (hb : mesh.Built)
    (hc : mesh.layout.Contains c) : mesh.CoveredByFiner tile c ↔
      ∀ p, mesh.config.InBox (mesh.tree.level n) (mesh.config.cellIndex (mesh.tree.location n) c) p →
        ∃ b, mesh.tree.isLeaf b = true ∧ mesh.tree.level n < mesh.tree.level b ∧
          mesh.config.LiesIn p (mesh.tree.location b) := by
  refine forall_congr' fun p => imp_congr (hof.cellLiesOver_iff hb hc) (exists_congr fun b => ?_)
  constructor
  · rintro ⟨fine, hfine, hlevel, hlies⟩
    obtain ⟨hleaf, hof'⟩ := hb.isLeaf_of_tile hfine
    rw [hof.level, hof'.level] at hlevel
    exact ⟨hleaf, hlevel, (hof'.liesOver_iff hb).1 hlies⟩
  · rintro ⟨hleaf, hlevel, hlies⟩
    obtain ⟨fine, hfine, hof'⟩ := hb.exists_tile hleaf
    rw [← hof.level, ← hof'.level] at hlevel
    exact ⟨fine, hfine, hlevel, (hof'.liesOver_iff hb).2 hlies⟩

omit [Dimension D] [LawfulLocation L] in
theorem touchedByFiner_iff : mesh.TouchedByFiner n ↔ ∃ b, mesh.tree.isLeaf b = true ∧
    Adjoins (mesh.tree.location n) (mesh.tree.location b) ∧
      mesh.tree.level n < mesh.tree.level b := by
  refine exists_congr fun b => and_congr_right fun _ => ?_
  rw [touches_iff_adjoins (Tree.level_le_maxLevel n) (Tree.level_le_maxLevel b), and_comm]

namespace CoveredByFiner

/-- A finer leaf lies over the centre of the cell. -/
theorem exists_leaf_centre (h : mesh.CoveredByFiner tile c) (hb : mesh.Built)
    (hof : mesh.IsTileOf n tile) (hc : mesh.layout.Contains c) :
    ∃ b, mesh.tree.isLeaf b = true ∧ mesh.tree.level n < mesh.tree.level b ∧
      mesh.config.LiesIn (mesh.centre n c) (mesh.tree.location b) :=
  (hof.coveredByFiner_iff hb hc).1 h _ (hb.inBox_gridPoint _ _)

/-- No leaf of the cell's level or a coarser one lies over the centre. -/
theorem level_lt (h : mesh.CoveredByFiner tile c) (ht : mesh.tree.Valid) (hb : mesh.Built)
    (hof : mesh.IsTileOf n tile) (hc : mesh.layout.Contains c)
    (hleaf : mesh.tree.isLeaf b = true)
    (hlies : mesh.config.LiesIn (mesh.centre n c) (mesh.tree.location b)) :
    mesh.tree.level n < mesh.tree.level b := by
  obtain ⟨b', hleaf', hlevel, hlies'⟩ := h.exists_leaf_centre hb hof hc
  rwa [eq_of_liesIn ht hleaf hleaf' hlies hlies']

/-- On a complete tree finer leaves cover a halo cell only next to one that touches the leaf. -/
theorem touchedByFiner (h : mesh.CoveredByFiner tile c) (ht : mesh.tree.Valid)
    (hcomplete : mesh.tree.Complete) (hb : mesh.Built) (hof : mesh.IsTileOf n tile)
    (hc : mesh.layout.Contains c) : mesh.TouchedByFiner n := by
  obtain ⟨b, -, hlevel, hlies⟩ := h.exists_leaf_centre hb hof hc
  -- the node of the leaf's level over the centre is an internal one, and touches the leaf
  obtain ⟨y, hy, hylies⟩ := hlies.inDomain.exists_liesIn (L := L) hb.internalCells_pos
    (LawfulLocation.level_le (mesh.tree.location n))
  have hyb : isAncestorOf y (mesh.tree.location b) = true := by
    rcases covers_iff.1 (hylies.covers hlies (hy.trans_le hlevel.le)) with rfl | hanc
    · exact absurd hy hlevel.ne'
    · exact hanc
  obtain ⟨s, rfl⟩ := Tree.mem_locations_iff.1 (ht.mem_of_isAncestorOf (mesh.tree.location_mem b) hyb)
  obtain ⟨e, heleaf, hbelow, hadj⟩ :=
    hcomplete.exists_leaf_adjoins ht (ht.isLeaf_eq_false hyb) (hb.adjoins_of_liesIn hc hy.le hylies)
  exact touchedByFiner_iff.2 ⟨e, heleaf, hadj, hy.symm.trans_lt (isAncestorOf_iff.1 hbelow).1⟩

end CoveredByFiner

/-- Under a leaf that is finer than a halo cell, restriction finds something exactly if finer leaves
cover the cell. -/
theorem exists_restrict_of_level_lt (ht : mesh.tree.Valid) (hb : mesh.Built)
    (hof : mesh.IsTileOf n tile) (hc : mesh.layout.Contains c) (hleaf : mesh.tree.isLeaf b = true)
    (hlies : mesh.config.LiesIn (mesh.centre n c) (mesh.tree.location b))
    (hlevel : mesh.tree.level n < mesh.tree.level b) : ∃ r,
      mesh.restrict (mesh.centre n c) (mesh.config.spacing (mesh.tree.level n)) = .ok r ∧
        (r.isSome = true ↔ mesh.CoveredByFiner tile c) ∧ ∀ values, r = some values →
          mesh.IsMean (mesh.tree.level n) (mesh.config.cellIndex (mesh.tree.location n) c) values := by
  have hfine {e : mesh.tree.Node} (he : mesh.tree.isLeaf e = true)
      (helies : mesh.config.LiesIn (mesh.centre n c) (mesh.tree.location e)) :
      mesh.tree.level n < mesh.tree.level e := by
    rwa [eq_of_liesIn ht he hleaf helies hlies]
  obtain ⟨r, hr, hcovered, hmean⟩ := restrictsCell ht hb
    (n := mostHalvings ℚ) (l := mesh.tree.level n)
    (g := mesh.config.cellIndex (mesh.tree.location n) c) (le_add_left maxLevel_le_mostHalvings)
    fun e he helies => (hfine he helies).le
  refine ⟨r, hr, hcovered.trans ?_, fun values hv => (hmean values hv).2⟩
  rw [hof.coveredByFiner_iff hb hc]
  refine forall_congr' fun p => imp_congr_right fun hp => exists_congr fun e => ?_
  refine and_congr_right fun he => ⟨fun helies => ⟨?_, helies⟩, And.right⟩
  -- a leaf that is no finer than the cell lies over the whole cell or none of it
  by_contra hle
  exact hle (hfine he ((hp.liesIn_iff (hb.inBox_gridPoint _ _) (not_lt.1 hle)).1 helies))

/-- The update for a halo cell is a restriction exactly if finer leaves cover the cell and one of the
finer leaves touches the cell's leaf. A restriction gives the mean. -/
structure RestrictedIff (mesh : Mesh D L ℚ) (n : mesh.tree.Node) (tile : Tile D ℚ) (c : Cell D)
    (r : Option (CellUpdate ℚ)) : Prop where
  restricted_iff : (∃ w, r = some w ∧ w.transfer = .restricted) ↔
    mesh.CoveredByFiner tile c ∧ mesh.TouchedByFiner n
  isMean (w : CellUpdate ℚ) : r = some w → w.transfer = .restricted →
    mesh.IsMean (mesh.tree.level n) (mesh.config.cellIndex (mesh.tree.location n) c) w.values

omit [LawfulLocation L] in
/-- Any other update, or none, is right where one of the two conditions fails. -/
theorem restrictedIff_of_not {r : Option (CellUpdate ℚ)}
    (h : ¬ (mesh.CoveredByFiner tile c ∧ mesh.TouchedByFiner n))
    (hr : ∀ w, r = some w → w.transfer ≠ .restricted) : mesh.RestrictedIff n tile c r where
  restricted_iff := iff_of_false (fun ⟨w, hw, hrestricted⟩ => hr w hw hrestricted) h
  isMean w hw hrestricted := absurd hrestricted (hr w hw)

theorem exists_phaseOneAt_restrictedIff (ht : mesh.tree.Valid) (hb : mesh.Built)
    (hof : mesh.IsTileOf n tile) (hn : mesh.tree.isLeaf n = true) (hc : mesh.layout.IsHaloCell c) :
    ∃ r, mesh.phaseOneAt n c = .ok r ∧ mesh.RestrictedIff n tile c r := by
  obtain ⟨source, hasFiner, hsource, hfiner, heq⟩ := exists_phaseOneAt_eq ht hb hn hc
  rw [← touchedByFiner_iff] at hfiner
  rw [heq]
  have hnone (h : ¬ (mesh.CoveredByFiner tile c ∧ mesh.TouchedByFiner n)) :
      mesh.RestrictedIff n tile c none := restrictedIff_of_not h (by simp)
  cases source with
  | some found =>
    obtain ⟨neighbor, source⟩ := found
    obtain ⟨b, hb', hlies, hlevel, rfl⟩ := (hsource neighbor source).1 rfl
    obtain ⟨hbleaf, hof'⟩ := hb.isLeaf_of_tile hb'
    obtain ⟨values, hvalues, -⟩ := hof'.exists_get
      (hb.inside_internalCellAt (mesh.tree.level b) (mesh.centre n c)).contains
    simp only [Option.elim_some, hvalues]
    refine ⟨_, rfl, restrictedIff_of_not (fun h => ?_) fun w hw => ?_⟩
    · exact absurd hlevel (h.1.level_lt ht hb hof hc.1 hbleaf hlies).ne'
    · rw [← Option.some.inj hw]
      simp
  | none =>
    rw [Option.elim_none]
    cases hasFiner with
    | false => exact ⟨none, rfl, hnone fun h => Bool.false_ne_true (hfiner.2 h.2)⟩
    | true =>
      have htouched := hfiner.1 rfl
      rw [if_pos rfl]
      cases hcentre : mesh.leafContaining (mesh.centre n c) with
      | none =>
        refine ⟨none, rfl, hnone fun h => ?_⟩
        obtain ⟨b, hbleaf, -, hlies⟩ := h.1.exists_leaf_centre hb hof hc.1
        rw [(leafContaining_eq_some_iff ht hb).2 ⟨hbleaf, hlies⟩] at hcentre
        contradiction
      | some b =>
        obtain ⟨hbleaf, hlies⟩ := (leafContaining_eq_some_iff ht hb).1 hcentre
        rw [Option.elim_some]
        by_cases hlevel : mesh.tree.level b ≤ mesh.tree.level n
        · rw [if_pos hlevel]
          exact ⟨none, rfl, hnone fun h =>
            (h.1.level_lt ht hb hof hc.1 hbleaf hlies).not_ge hlevel⟩
        · obtain ⟨r, hr, hcovered, hmean⟩ :=
            exists_restrict_of_level_lt ht hb hof hc.1 hbleaf hlies (not_le.1 hlevel)
          rw [if_neg hlevel, hr]
          refine ⟨_, rfl, ?_, fun w hw _ => ?_⟩
          · rw [← hcovered]
            cases r with
            | none => simp
            | some values => simpa using htouched
          · obtain ⟨values, hv, rfl⟩ := Option.map_eq_some_iff.1 hw
            exact hmean values hv

/-- A covered halo cell of a leaf that no finer one touches is left alone. -/
theorem CoveredByFiner.phaseOneAt_eq_none (h : mesh.CoveredByFiner tile c) (ht : mesh.tree.Valid)
    (hb : mesh.Built) (hof : mesh.IsTileOf n tile) (hn : mesh.tree.isLeaf n = true)
    (hc : mesh.layout.IsHaloCell c) (huntouched : ¬ mesh.TouchedByFiner n) :
    mesh.phaseOneAt n c = .ok none := by
  obtain ⟨source, hasFiner, hsource, hfiner, heq⟩ := exists_phaseOneAt_eq ht hb hn hc
  have hnone : source = none := by
    refine Option.eq_none_iff_forall_ne_some.2 fun found hfound => ?_
    obtain ⟨b, hb', hlies, hlevel, -⟩ := (hsource found.1 found.2).1 hfound
    exact (h.level_lt ht hb hof hc.1 (hb.isLeaf_of_tile hb').1 hlies).ne' hlevel
  have hfalse : hasFiner = false := by
    by_contra htrue
    exact huntouched (touchedByFiner_iff.2 (hfiner.1 (Bool.eq_true_of_not_eq_false htrue)))
  rw [heq, hnone, hfalse]
  rfl

/-- What a run of phase one restricts. The search for finer leaves under the whole halo is left out
where none touches the leaf. That is a shortcut on complete trees; on others it also leaves out
cells that finer leaves cover, and these keep what they held. -/
theorem phaseOne_restricts_iff (ht : mesh.tree.Valid) (hb : mesh.Built) :
    (mesh.Addressable → ∃ r, mesh.phaseOne = .ok r) ∧
    ∀ stats after, mesh.phaseOne = .ok (stats, after) → ∃ tiles, after = mesh.withTiles tiles ∧
      ∀ n a, mesh.tile? n = some a → ∃ b u, tiles.get n = some b ∧
        mesh.gatherPhaseOne n = .ok u ∧ ∀ c, mesh.layout.IsHaloCell c → ∃ i,
          mesh.layout.index c = .ok i ∧
          ((∃ w, u.forCell i = [w] ∧ w.transfer = .restricted) ↔
            mesh.CoveredByFiner a c ∧ mesh.TouchedByFiner n) ∧
          (∀ w, u.forCell i = [w] → w.transfer = .restricted →
            b.get c = .ok w.values ∧ mesh.IsVolumeMean a c w.values) ∧
          (mesh.CoveredByFiner a c → ¬ mesh.TouchedByFiner n →
            u.forCell i = [] ∧ b.get c = a.get c) ∧
          (mesh.tree.Complete → mesh.CoveredByFiner a c → mesh.TouchedByFiner n) := by
  refine ⟨exists_phaseOne ht hb, fun stats after h => ?_⟩
  obtain ⟨tiles, rfl, hcells⟩ :=
    (gathersFrom_phaseOne hb).exists_forCell (atPlace_phaseOne hb) hb h
  refine ⟨tiles, rfl, fun n a ha => ?_⟩
  obtain ⟨hn, hof⟩ := hb.isLeaf_of_tile ha
  obtain ⟨b, u, hb', hu, hcells⟩ := hcells n a ha
  refine ⟨b, u, hb', hu, fun c hc => ?_⟩
  obtain ⟨i, r, hi, hr, hcell, hget⟩ := hcells c hc
  obtain ⟨r', hr', hrestricted, hmean⟩ := exists_phaseOneAt_restrictedIff ht hb hof hn hc
  obtain rfl := Except.ok.inj (hr.symm.trans hr')
  have hsome (w : CellUpdate ℚ) : r.toList = [w] ↔ r = some w := by cases r <;> simp
  refine ⟨i, hi, ?_, fun w hw htransfer => ?_, fun hcovered huntouched => ?_,
    fun hcomplete hcovered => hcovered.touchedByFiner ht hcomplete hb hof hc.1⟩
  · simp only [hcell, hsome, hrestricted]
  · rw [hcell, hsome] at hw
    rw [hget, hw]
    exact ⟨rfl, hof.isVolumeMean ht hb hc.1 (hmean w hw htransfer)⟩
  · have hnone := hcovered.phaseOneAt_eq_none ht hb hof hn hc huntouched
    obtain rfl := Except.ok.inj (hr.symm.trans hnone)
    exact ⟨hcell, hget⟩

end Mesh

/-! ## A leaf behind a gap -/

/-- The unit cube with halos as deep as the tiles. -/
def MeshConfig.deep : MeshConfig ℚ := { MeshConfig.unit with internalCells := 2, haloLayers := 2 }

namespace Mesh

section Gapped

variable {mesh : Mesh 2 (GridLocation 2) ℚ} {n fine : mesh.tree.Node} {p : Vector Nat 2}
  {tile : Tile 2 ℚ} {c : Cell 2}

theorem exists_isLeafAt_gapped : ∃ left upper fine, Tree.gapped.IsLeafAt left 1 #v[0, 0] ∧
    Tree.gapped.IsLeafAt upper 1 #v[1, 1] ∧ Tree.gapped.IsLeafAt fine 2 #v[3, 1] ∧
      ∀ b, Tree.gapped.isLeaf b = true → 1 < Tree.gapped.level b → b = fine := by
  refine ⟨⟨1, by decide⟩, ⟨4, by decide⟩, ⟨3, by decide⟩, ?_⟩
  unfold Tree.IsLeafAt
  decide +kernel

theorem exists_make_gapped : ∃ mesh : Mesh 2 (GridLocation 2) ℚ, mesh.tree = Tree.gapped ∧
    mesh.config = .deep ∧ mesh.tree.Valid ∧ mesh.Built ∧ mesh.Addressable ∧
      ∃ left upper fine, mesh.tree.IsLeafAt left 1 #v[0, 0] ∧ mesh.tree.IsLeafAt upper 1 #v[1, 1] ∧
        mesh.tree.IsLeafAt fine 2 #v[3, 1] ∧
          ∀ b, mesh.tree.isLeaf b = true → 1 < mesh.tree.level b → b = fine := by
  have hvalid : MeshConfig.deep.validate = .ok () := by rfl
  obtain ⟨mesh, htree, hconfig, hb, haddr⟩ :=
    exists_make_built (D := 2) Tree.gapped hvalid (by decide +kernel)
  refine ⟨mesh, htree, hconfig, ?_, hb, haddr (by decide +kernel), ?_⟩
  · rw [htree]
    decide +kernel
  · rw [htree]
    exact exists_isLeafAt_gapped

theorem isHaloCell_deep_iff (hconfig : mesh.config = .deep) (hb : mesh.Built) :
    mesh.layout.IsHaloCell c ↔
      (∀ d, c.get d < 6) ∧ ¬ ∀ d, 2 ≤ c.get d ∧ c.get d < 4 := by
  unfold TileLayout.IsHaloCell TileLayout.Contains TileLayout.Inside TileLayout.extent
  rw [hb.layout_eq.1, hb.layout_eq.2, hconfig]
  rfl

/-- The leaf of the second level covers a cell of the first. -/
theorem coveredByFiner_gapped (hconfig : mesh.config = .deep) (hb : mesh.Built)
    (hof : mesh.IsTileOf n tile) (hc : mesh.layout.Contains c) (hn : mesh.tree.IsLeafAt n 1 p)
    (hfine : mesh.tree.IsLeafAt fine 2 #v[3, 1])
    (hindex : ∀ d, (p.get d * 2 + c.get d - 2 : ℤ) = (#v[3, 1] : Vector Nat 2).get d) :
    mesh.CoveredByFiner tile c := by
  have hcells : mesh.config.internalCells = 2 := congrArg MeshConfig.internalCells hconfig
  have hlayers : mesh.config.haloLayers = 2 := congrArg MeshConfig.haloLayers hconfig
  obtain ⟨-, hlevel, hplace⟩ := hn
  obtain ⟨hleaf, hfinelevel, hfineplace⟩ := hfine
  refine (hof.coveredByFiner_iff hb hc).2 fun q hq => ⟨fine, hleaf, by omega, fun d => ?_⟩
  have hgrid := hq d
  rw [MeshConfig.cellIndex, hplace, hcells, hlayers, hlevel, mesh.config.gridIndex_of_add 1 1] at hgrid
  change mesh.config.gridIndex (mesh.tree.level fine) q d / _ = _
  rw [hfinelevel, hcells, hfineplace, ← hindex]
  exact hgrid

theorem phaseOne_restricts_iff_gapped : ∃ mesh : Mesh 2 (GridLocation 2) ℚ,
    mesh.tree = Tree.gapped ∧ mesh.config = .deep ∧ mesh.tree.Valid ∧ mesh.Built ∧
      ∃ stats tiles, mesh.phaseOne = .ok (stats, mesh.withTiles tiles) ∧
        ∃ n a b u i w, mesh.tile? n = some a ∧ tiles.get n = some b ∧
          mesh.gatherPhaseOne n = .ok u ∧ mesh.layout.index #v[3, 1] = .ok i ∧
          u.forCell i = [w] ∧ w.transfer = .restricted ∧ b.get #v[3, 1] = .ok w.values ∧
          mesh.IsVolumeMean a #v[3, 1] w.values := by
  obtain ⟨mesh, htree, hconfig, ht, hb, haddr, -, upper, fine, -, hupper, hfine, -⟩ :=
    exists_make_gapped
  have hc : mesh.layout.IsHaloCell #v[3, 1] := (isHaloCell_deep_iff hconfig hb).2 (by decide)
  obtain ⟨hrun, hall⟩ := phaseOne_restricts_iff ht hb
  obtain ⟨⟨stats, after⟩, h⟩ := hrun haddr
  obtain ⟨tiles, rfl, hleaves⟩ := hall stats after h
  obtain ⟨a, ha, hof⟩ := hb.exists_tile hupper.1
  obtain ⟨b, u, hb', hu, hcells⟩ := hleaves upper a ha
  obtain ⟨i, hi, hiff, hmean, -⟩ := hcells _ hc
  have hcovered := coveredByFiner_gapped hconfig hb hof hc.1 hupper hfine (by decide)
  have htouched : mesh.TouchedByFiner upper := by
    refine touchedByFiner_iff.2 ⟨fine, hfine.1, fun d => ?_, ?_⟩
    · change _ * 2 ^ mesh.tree.level fine ≤ _ * 2 ^ mesh.tree.level upper ∧
        _ * 2 ^ mesh.tree.level upper ≤ _ * 2 ^ mesh.tree.level fine
      rw [hupper.2.1, hfine.2.1, hupper.2.2, hfine.2.2]
      revert d
      decide
    · rw [hupper.2.1, hfine.2.1]
      decide
  obtain ⟨w, hw, htransfer⟩ := hiff.2 ⟨hcovered, htouched⟩
  obtain ⟨hget, hvolume⟩ := hmean w hw htransfer
  exact ⟨mesh, htree, hconfig, ht, hb, stats, tiles, h, upper, a, b, u, i, w, ha, hb', hu, hi, hw,
    htransfer, hget, hvolume⟩

/-- The leaf next to the gap is not touched by the leaf behind it, and phase one leaves the cell
over that leaf as it was. -/
theorem phaseOne_leaves_gapped : ∃ mesh : Mesh 2 (GridLocation 2) ℚ,
    mesh.tree = Tree.gapped ∧ mesh.config = .deep ∧ mesh.tree.Valid ∧ mesh.Built ∧
      ∃ stats tiles, mesh.phaseOne = .ok (stats, mesh.withTiles tiles) ∧
        ∃ n a b u i, mesh.tile? n = some a ∧ tiles.get n = some b ∧
          mesh.gatherPhaseOne n = .ok u ∧ mesh.layout.IsHaloCell #v[5, 3] ∧
          mesh.layout.index #v[5, 3] = .ok i ∧ mesh.CoveredByFiner a #v[5, 3] ∧
          u.forCell i = [] ∧ b.get #v[5, 3] = a.get #v[5, 3] := by
  obtain ⟨mesh, htree, hconfig, ht, hb, haddr, left, -, fine, hleft, -, hfine, honly⟩ :=
    exists_make_gapped
  have hc : mesh.layout.IsHaloCell #v[5, 3] := (isHaloCell_deep_iff hconfig hb).2 (by decide)
  obtain ⟨⟨stats, after⟩, h⟩ := exists_phaseOne ht hb haddr
  obtain ⟨tiles, rfl, hleaves⟩ :=
    (gathersFrom_phaseOne hb).exists_forCell (atPlace_phaseOne hb) hb h
  obtain ⟨a, ha, hof⟩ := hb.exists_tile hleft.1
  obtain ⟨b, u, hb', hu, hcells⟩ := hleaves left a ha
  obtain ⟨i, r, hi, hr, hcell, hget⟩ := hcells _ hc
  have hcovered := coveredByFiner_gapped hconfig hb hof hc.1 hleft hfine (by decide)
  have huntouched : ¬ mesh.TouchedByFiner left := by
    rw [touchedByFiner_iff]
    rintro ⟨e, heleaf, hadj, hlevel⟩
    rw [hleft.2.1] at hlevel
    obtain rfl := honly e heleaf hlevel
    have hfar := (hadj 0).2
    change _ * 2 ^ mesh.tree.level left ≤ _ * 2 ^ mesh.tree.level e at hfar
    rw [hleft.2.1, hfine.2.1, hleft.2.2, hfine.2.2] at hfar
    exact absurd hfar (by decide)
  have hnone := hcovered.phaseOneAt_eq_none ht hb hof hleft.1 hc huntouched
  obtain rfl := Except.ok.inj (hr.symm.trans hnone)
  exact ⟨mesh, htree, hconfig, ht, hb, stats, tiles, h, left, a, b, u, i, ha, hb', hu, hc, hi,
    hcovered, hcell, hget⟩

end Gapped

end Mesh

end AdaptiveMesh
