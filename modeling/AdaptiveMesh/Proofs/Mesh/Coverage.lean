import AdaptiveMesh.Proofs.Mesh.Exchange
import AdaptiveMesh.Proofs.Mesh.Make
import AdaptiveMesh.Proofs.Tree.Grown

/-!
# Coverage of the halo

On a complete tree every halo cell inside the root is set exactly once by an exchange, and where its
values come from is told by the node of the leaf's own level that the cell lies in: a copy if that is
a leaf, a mean if it is an internal node, a projection if a coarser leaf lies above it. The counts
of an exchange are the numbers of such cells.
-/

namespace AdaptiveMesh

open LocationCode

variable {D : Nat} {L S : Type}

/-! ## Updates for one cell -/

/-- The updates for the cell at a place in storage. -/
def TileUpdate.forCell {t : Tree L} (u : TileUpdate t S) (i : Nat) : List (CellUpdate S) :=
  u.cells.filter fun w => w.index = i

theorem filterMap_ite_eq {α β : Type} [DecidableEq α] {xs : List α} (hnodup : xs.Nodup) {x : α}
    (hx : x ∈ xs) (r : Option β) : (xs.filterMap fun y => if y = x then r else none) = r.toList := by
  induction xs with
  | nil => contradiction
  | cons y xs ih =>
    obtain ⟨hy, hnodup⟩ := List.nodup_cons.1 hnodup
    rw [List.filterMap_cons]
    rcases List.mem_cons.1 hx with rfl | hx
    · have hrest : (xs.filterMap fun y => if y = x then r else none) = [] :=
        List.filterMap_eq_nil_iff.2 fun z hz => if_neg fun (h : z = x) => hy (h ▸ hz)
      rw [if_pos rfl, hrest]
      cases r <;> rfl
    · rw [if_neg fun (h : y = x) => hy (h ▸ hx)]
      exact ih hnodup hx

theorem sum_countP_eq_ncard {α β : Type} {xs : List α} {ys : List β} (hxs : xs.Nodup)
    (hys : ys.Nodup) (p : α → β → Bool) : (xs.map fun x => ys.countP (p x)).sum =
      {q : α × β | q.1 ∈ xs ∧ q.2 ∈ ys ∧ p q.1 q.2 = true}.ncard := by
  classical
  have hset : {q : α × β | q.1 ∈ xs ∧ q.2 ∈ ys ∧ p q.1 q.2 = true} =
      (((xs ×ˢ ys).filter fun q => p q.1 q.2).toFinset : Set (α × β)) := by
    ext ⟨x, y⟩
    rw [List.coe_toFinset, Set.mem_ofPred_eq, Set.mem_ofPred_eq, List.mem_filter, List.mem_product,
      and_assoc]
  rw [hset, Set.ncard_coe_finset, List.toFinset_card_of_nodup ((hxs.product hys).filter _),
    ← List.countP_eq_length_filter]
  change _ = List.countP _ (xs.flatMap fun x => ys.map (Prod.mk x))
  rw [List.countP_flatMap]
  refine congrArg List.sum (List.map_congr_left fun x _ => ?_)
  rw [Function.comp_apply, List.countP_map]
  rfl

namespace Mesh

variable [LocationCode D L]

section Updates

variable {mesh : Mesh D L S}
  {gather : mesh.tree.Node → Except Fault (TileUpdate mesh.tree S)}
  {at' : mesh.tree.Node → Cell D → Except Fault (Option (CellUpdate S))}

/-- The halo cells of leaves that are set in a given way. -/
def setCells (mesh : Mesh D L S) (at' : mesh.tree.Node → Cell D → Except Fault (Option (CellUpdate S)))
    (transfer : Transfer) : Set (mesh.tree.Node × Cell D) :=
  {q | mesh.tree.isLeaf q.1 = true ∧ mesh.layout.IsHaloCell q.2 ∧
    ∃ w, at' q.1 q.2 = .ok (some w) ∧ w.transfer = transfer}

/-- The updates for a leaf, as a list over its halo cells. -/
theorem GathersFrom.cells_eq (hg : mesh.GathersFrom gather at') {n : mesh.tree.Node}
    (hn : mesh.tree.isLeaf n = true) {u : TileUpdate mesh.tree S} (h : gather n = .ok u)
    {halos : List (Cell D)} (hhalos : mesh.layout.haloCellList = .ok halos) :
    u.cells = halos.filterMap fun c => (at' n c).toOption.join := by
  obtain ⟨absent, -, hgather⟩ := hg n hn
  rw [hgather, hhalos, ok_bind] at h
  obtain ⟨us, hus, h⟩ := bind_eq_ok_iff.1 h
  obtain rfl := Except.ok.inj h
  have hmap : us.map id = halos.map fun c => (at' n c).toOption.join :=
    map_eq_map_of_mapM_eq_ok (fun c _ r hr => by rw [hr]; rfl) hus
  rw [← List.map_id us, hmap, List.filterMap_map]
  rfl

variable [Dimension D]

theorem GathersFrom.forCell_eq (hg : mesh.GathersFrom gather at') (hplace : mesh.AtPlace at')
    (hfits : mesh.layout.Fits) {n : mesh.tree.Node} (hn : mesh.tree.isLeaf n = true)
    {u : TileUpdate mesh.tree S} (h : gather n = .ok u) {c : Cell D}
    (hc : mesh.layout.IsHaloCell c) {r : Option (CellUpdate S)} (hr : at' n c = .ok r) :
    u.forCell (mesh.layout.offset c) = r.toList := by
  obtain ⟨halos, hhalos, hnodup, hmem⟩ := hfits.exists_haloCellList
  unfold TileUpdate.forCell
  rw [hg.cells_eq hn h hhalos, List.filter_filterMap, ← filterMap_ite_eq hnodup ((hmem c).2 hc) r]
  refine List.filterMap_congr fun e he => ?_
  have hplace' (w : CellUpdate S) (hw : at' n e = .ok (some w)) :
      w.index = mesh.layout.offset c ↔ e = c := by
    rw [hplace n e w ((hmem e).1 he) hw]
    exact ⟨TileLayout.offset_injective ((hmem e).1 he).1 hc.1, congrArg _⟩
  rcases he' : at' n e with _ | _ | w
  · rw [if_neg fun h => by rw [h, hr] at he'; contradiction]
    rfl
  · split
    · next hec =>
      rw [hec, hr] at he'
      rw [Except.ok.inj he']
      rfl
    · rfl
  · simp only [Except.toOption, Option.join_some, Option.filter_some, hplace' w he', decide_eq_true_eq]
    split
    · next hec =>
      rw [hec, hr] at he'
      exact (Except.ok.inj he').symm
    · rfl

/-- The updates of a run of a phase, halo cell by halo cell. -/
theorem GathersFrom.exists_forCell [Scalar S] (hg : mesh.GathersFrom gather at')
    (hplace : mesh.AtPlace at') (hb : mesh.Built) {stats : ExchangeStats} {after : Mesh D L S}
    (h : mesh.runPhase gather = .ok (stats, after)) : ∃ tiles, after = mesh.withTiles tiles ∧
      ∀ n a, mesh.tile? n = some a → ∃ b u, tiles.get n = some b ∧ gather n = .ok u ∧
        ∀ c, mesh.layout.IsHaloCell c → ∃ i r, mesh.layout.index c = .ok i ∧ at' n c = .ok r ∧
          u.forCell i = r.toList ∧ b.get c = r.elim (a.get c) fun w => .ok w.values := by
  obtain ⟨tiles, rfl, hresult, us, hus, -⟩ := phaseResult_of_runPhase hb hg hplace h
  refine ⟨tiles, rfl, fun n a ha => ?_⟩
  obtain ⟨hn, hof⟩ := hb.isLeaf_of_tile ha
  obtain ⟨b, hb', -⟩ := hresult.frames.exists_of_tile ha
  obtain ⟨u, -, hu⟩ := exists_of_mapM_eq_ok hus (Tree.Valid.mem_leaves_iff.2 hn)
  refine ⟨b, u, hb', hu, fun c hc => ?_⟩
  obtain ⟨r, hr, hget⟩ := hresult.halo ha hb' c hc
  exact ⟨_, r, hof.fits.index hc.1, hr, hg.forCell_eq hplace hof.fits hn hu hc hr, hget⟩

/-- The number of the updates of a kind, over all leaves. -/
theorem GathersFrom.sum_countP_eq_ncard [Scalar S] (hg : mesh.GathersFrom gather at')
    (hb : mesh.Built) {us : List (TileUpdate mesh.tree S)}
    (hus : mesh.tree.leaves.mapM gather = .ok us) (kind : CellUpdate S → Bool) :
    (us.map fun u => u.cells.countP kind).sum =
      {q : mesh.tree.Node × Cell D | mesh.tree.isLeaf q.1 = true ∧ mesh.layout.IsHaloCell q.2 ∧
        ∃ w, at' q.1 q.2 = .ok (some w) ∧ kind w = true}.ncard := by
  classical
  by_cases hleaf : ∃ n, mesh.tree.isLeaf n = true
  · obtain ⟨n₀, hn₀⟩ := hleaf
    obtain ⟨halos, hhalos, hnodup, hmem⟩ := (hb.fits hn₀).exists_haloCellList
    let p (n : mesh.tree.Node) (c : Cell D) : Bool := (at' n c).toOption.join.any kind
    have hcount : us.map (fun u => u.cells.countP kind) =
        mesh.tree.leaves.map fun n => halos.countP (p n) :=
      map_eq_map_of_mapM_eq_ok (fun n hn u hu => by
        rw [hg.cells_eq (Tree.Valid.mem_leaves_iff.1 hn) hu hhalos, List.countP_filterMap]
        refine List.countP_congr fun c _ => ?_
        rcases h : (at' n c).toOption.join with _ | w <;> simp [p, h]) hus
    have hp (n : mesh.tree.Node) (c : Cell D) : p n c = true ↔
        ∃ w, at' n c = .ok (some w) ∧ kind w = true := by
      rcases h : at' n c with _ | _ | w <;> simp [p, h, Except.toOption]
    rw [hcount, AdaptiveMesh.sum_countP_eq_ncard Tree.Valid.nodup_leaves hnodup]
    simp only [hp, hmem, Tree.Valid.mem_leaves_iff]
    rfl
  · have hempty : mesh.tree.leaves = [] := by
      refine List.eq_nil_iff_forall_not_mem.2 fun n hn => hleaf ⟨n, Tree.Valid.mem_leaves_iff.1 hn⟩
    rw [hempty] at hus
    rw [← Except.ok.inj hus]
    refine Eq.trans ?_ (congrArg Set.ncard <|
      Set.eq_empty_of_forall_notMem fun q hq => hleaf ⟨q.1, hq.1⟩).symm
    exact (Set.ncard_empty _).symm

/-- The counts of a phase. -/
theorem GathersFrom.sum_count_eq_ncard [Scalar S] (hg : mesh.GathersFrom gather at')
    (hb : mesh.Built) {us : List (TileUpdate mesh.tree S)}
    (hus : mesh.tree.leaves.mapM gather = .ok us) (transfer : Transfer) :
    (us.map fun u => u.count transfer).sum = (mesh.setCells at' transfer).ncard := by
  have h := hg.sum_countP_eq_ncard hb hus fun w => w.transfer = transfer
  simp only [decide_eq_true_eq] at h
  exact h

end Updates

/-! ## Where a halo cell lies -/

/-- The numbers of the cell, on the grid of its leaf's level, are those of a cell of the root. -/
def OnGrid (mesh : Mesh D L S) (n : mesh.tree.Node) (c : Cell D) : Prop :=
  ∀ d, 0 ≤ mesh.config.cellIndex (mesh.tree.location n) c d ∧
    mesh.config.cellIndex (mesh.tree.location n) c d <
      mesh.config.internalCells * 2 ^ mesh.tree.level n

/-- The location of a leaf's level that a cell of the leaf's tile lies in. -/
def IsOver (mesh : Mesh D L S) (y : L) (n : mesh.tree.Node) (c : Cell D) : Prop :=
  level y = mesh.tree.level n ∧ ∀ d, (place y d : ℤ) =
    mesh.config.cellIndex (mesh.tree.location n) c d / mesh.config.internalCells

variable [Dimension D]

section Cases

variable {mesh : Mesh D L ℚ} {n b s : mesh.tree.Node} {c : Cell D} {y : L}

theorem Built.isOver_iff (hb : mesh.Built) : mesh.IsOver y n c ↔
    level y = mesh.tree.level n ∧ mesh.config.LiesIn (mesh.centre n c) y := by
  refine and_congr_right fun hl => ?_
  rw [hb.liesIn_centre_iff hl.le, hl, Nat.sub_self, pow_zero]
  simp only [Int.ediv_one, eq_comm]

theorem Built.onGrid_iff (hb : mesh.Built) :
    mesh.OnGrid n c ↔ mesh.config.InDomain D (mesh.centre n c) := by
  rw [MeshConfig.inDomain_iff hb.internalCells_pos (mesh.tree.level n)]
  simp only [hb.gridIndex_centre]
  rfl

variable [LawfulLocation L]

/-- A location at which a complete tree has no node lies strictly inside a leaf. -/
theorem Built.exists_isOver (hb : mesh.Built) (ht : mesh.tree.Valid) (hc : mesh.tree.Complete)
    (h : mesh.OnGrid n c) : ∃ y : L, mesh.IsOver y n c ∧ ((∃ s, mesh.tree.location s = y) ∨
      ∃ b, mesh.tree.isLeaf b = true ∧ isAncestorOf (mesh.tree.location b) y = true) := by
  obtain ⟨y, hy, hlies⟩ := (hb.onGrid_iff.1 h).exists_liesIn (L := L) hb.internalCells_pos
    (LawfulLocation.level_le (mesh.tree.location n))
  refine ⟨y, hb.isOver_iff.2 ⟨hy, hlies⟩, ?_⟩
  rw [← Tree.mem_locations_iff]
  exact hc.mem_or_exists_leaf ht y

/-- A copy from the leaf of the same level is all that happens to a cell over one. -/
theorem phases_of_isLeaf (hb : mesh.Built) (ht : mesh.tree.Valid) (limiter : Limiter)
    (hn : mesh.tree.isLeaf n = true) (hc : mesh.layout.IsHaloCell c)
    (hover : mesh.IsOver (mesh.tree.location s) n c) (hs : mesh.tree.isLeaf s = true) :
    (∃ tile values, mesh.tile? s = some tile ∧
      tile.get (mesh.config.internalCellAt (mesh.tree.level n) (mesh.centre n c)) = .ok values ∧
        mesh.phaseOneAt n c = .ok (some ⟨mesh.layout.offset c, values, .copied⟩)) ∧
      mesh.phaseTwoAt limiter n c = .ok none := by
  obtain ⟨hlevel, hlies⟩ := hb.isOver_iff.1 hover
  constructor
  · obtain ⟨tile, values, htile, hvalues, -, heq⟩ :=
      exists_phaseOneAt_copied ht hb hn hc hs hlevel hlies
    exact ⟨tile, values, htile, hvalues, heq⟩
  · refine phaseTwoAt_eq_none ht hb limiter hn hc fun a ha halies => ?_
    rw [eq_of_liesIn ht ha hs halies hlies]
    exact hlevel.ge

/-- A restriction is all that happens to a cell over an internal node. -/
theorem phases_of_not_isLeaf (hb : mesh.Built) (ht : mesh.tree.Valid)
    (hcomplete : mesh.tree.Complete) (limiter : Limiter) (hn : mesh.tree.isLeaf n = true)
    (hc : mesh.layout.IsHaloCell c) (hover : mesh.IsOver (mesh.tree.location s) n c)
    (hs : mesh.tree.isLeaf s = false) :
    (∃ values, mesh.restrict (mesh.centre n c) (mesh.config.spacing (mesh.tree.level n)) =
        .ok (some values) ∧
      mesh.IsMean (mesh.tree.level n) (mesh.config.cellIndex (mesh.tree.location n) c) values ∧
        mesh.phaseOneAt n c = .ok (some ⟨mesh.layout.offset c, values, .restricted⟩)) ∧
      mesh.phaseTwoAt limiter n c = .ok none := by
  obtain ⟨hlevel, hlies⟩ := hb.isOver_iff.1 hover
  constructor
  · obtain ⟨values, hvalues, -, hmean, heq⟩ :=
      exists_phaseOneAt_restricted ht hcomplete hb hn hc hs hlevel hlies
    exact ⟨values, hvalues, hmean, heq⟩
  · refine phaseTwoAt_eq_none ht hb limiter hn hc fun a ha halies => ?_
    have := level_lt_of_liesIn ht hs ha hlies halies
    change level _ = mesh.tree.level n at hlevel
    unfold Tree.level at *
    omega

/-- A projection from the leaf above is all that happens to a cell over a location inside one. -/
theorem phases_of_isAncestorOf (hb : mesh.Built) (ht : mesh.tree.Valid) (limiter : Limiter)
    (hn : mesh.tree.isLeaf n = true) (hc : mesh.layout.IsHaloCell c) (hover : mesh.IsOver y n c)
    (hbleaf : mesh.tree.isLeaf b = true) (hby : isAncestorOf (mesh.tree.location b) y = true) :
    mesh.phaseOneAt n c = .ok none ∧ ∃ tile values, mesh.tile? b = some tile ∧
      project tile (mesh.config.internalCellAt (mesh.tree.level b) (mesh.centre n c))
        (mesh.centre n c) limiter = .ok values ∧
      mesh.phaseTwoAt limiter n c = .ok (some ⟨mesh.layout.offset c, values, .projected⟩) := by
  obtain ⟨hlevel, hlies⟩ := hb.isOver_iff.1 hover
  have hlt : mesh.tree.level b < mesh.tree.level n := hlevel ▸ (isAncestorOf_iff.1 hby).1
  have hblies := hlies.of_covers (covers_iff.2 (Or.inr hby))
  constructor
  · refine phaseOneAt_eq_none ht hb hn hc fun a ha halies => ?_
    rwa [eq_of_liesIn ht ha hbleaf halies hblies]
  · exact exists_phaseTwoAt_projected ht hb limiter hn hc hbleaf hlt hblies

/-- Nothing happens to a cell outside the root. -/
theorem phases_of_not_onGrid (hb : mesh.Built) (ht : mesh.tree.Valid) (limiter : Limiter)
    (hn : mesh.tree.isLeaf n = true) (hc : mesh.layout.IsHaloCell c) (h : ¬ mesh.OnGrid n c) :
    mesh.phaseOneAt n c = .ok none ∧ mesh.phaseTwoAt limiter n c = .ok none := by
  rw [hb.onGrid_iff] at h
  exact ⟨phaseOneAt_eq_none ht hb hn hc fun a _ halies => absurd halies.inDomain h,
    phaseTwoAt_eq_none ht hb limiter hn hc fun a _ halies => absurd halies.inDomain h⟩

/-! ## Counts -/

theorem exists_phaseOneAt_transfer_iff (hb : mesh.Built) (ht : mesh.tree.Valid)
    (hcomplete : mesh.tree.Complete) (hn : mesh.tree.isLeaf n = true)
    (hc : mesh.layout.IsHaloCell c) (transfer : Transfer) :
    (∃ w, mesh.phaseOneAt n c = .ok (some w) ∧ w.transfer = transfer) ↔
      (transfer = .copied ∧
        ∃ s, mesh.IsOver (mesh.tree.location s) n c ∧ mesh.tree.isLeaf s = true) ∨
      (transfer = .restricted ∧
        ∃ s, mesh.IsOver (mesh.tree.location s) n c ∧ mesh.tree.isLeaf s = false) := by
  constructor
  · rintro ⟨w, hw, rfl⟩
    by_cases hgrid : mesh.OnGrid n c
    · obtain ⟨y, hover, ⟨s, rfl⟩ | ⟨b, hbleaf, hby⟩⟩ := hb.exists_isOver ht hcomplete hgrid
      · rcases hs : mesh.tree.isLeaf s with _ | _
        · obtain ⟨⟨values, -, -, heq⟩, -⟩ :=
            phases_of_not_isLeaf hb ht hcomplete .unlimited hn hc hover hs
          rw [← Option.some.inj (Except.ok.inj (heq.symm.trans hw))]
          exact Or.inr ⟨rfl, s, hover, hs⟩
        · obtain ⟨⟨tile, values, -, -, heq⟩, -⟩ :=
            phases_of_isLeaf hb ht .unlimited hn hc hover hs
          rw [← Option.some.inj (Except.ok.inj (heq.symm.trans hw))]
          exact Or.inl ⟨rfl, s, hover, hs⟩
      · obtain ⟨heq, -⟩ := phases_of_isAncestorOf hb ht .unlimited hn hc hover hbleaf hby
        rw [heq] at hw
        cases Except.ok.inj hw
    · rw [(phases_of_not_onGrid hb ht .unlimited hn hc hgrid).1] at hw
      cases Except.ok.inj hw
  · rintro (⟨rfl, s, hover, hs⟩ | ⟨rfl, s, hover, hs⟩)
    · obtain ⟨⟨tile, values, -, -, heq⟩, -⟩ := phases_of_isLeaf hb ht .unlimited hn hc hover hs
      exact ⟨_, heq, rfl⟩
    · obtain ⟨⟨values, -, -, heq⟩, -⟩ :=
        phases_of_not_isLeaf hb ht hcomplete .unlimited hn hc hover hs
      exact ⟨_, heq, rfl⟩

theorem exists_phaseTwoAt_transfer_iff (hb : mesh.Built) (ht : mesh.tree.Valid)
    (hcomplete : mesh.tree.Complete) (limiter : Limiter) (hn : mesh.tree.isLeaf n = true)
    (hc : mesh.layout.IsHaloCell c) (transfer : Transfer) :
    (∃ w, mesh.phaseTwoAt limiter n c = .ok (some w) ∧ w.transfer = transfer) ↔
      transfer = .projected ∧ ∃ y b, mesh.IsOver y n c ∧ mesh.tree.isLeaf b = true ∧
        isAncestorOf (mesh.tree.location b) y = true := by
  constructor
  · rintro ⟨w, hw, rfl⟩
    by_cases hgrid : mesh.OnGrid n c
    · obtain ⟨y, hover, ⟨s, rfl⟩ | ⟨b, hbleaf, hby⟩⟩ := hb.exists_isOver ht hcomplete hgrid
      · have heq : mesh.phaseTwoAt limiter n c = .ok none := by
          rcases hs : mesh.tree.isLeaf s with _ | _
          · exact (phases_of_not_isLeaf hb ht hcomplete limiter hn hc hover hs).2
          · exact (phases_of_isLeaf hb ht limiter hn hc hover hs).2
        rw [heq] at hw
        cases Except.ok.inj hw
      · obtain ⟨-, tile, values, -, -, heq⟩ :=
          phases_of_isAncestorOf hb ht limiter hn hc hover hbleaf hby
        rw [← Option.some.inj (Except.ok.inj (heq.symm.trans hw))]
        exact ⟨rfl, y, b, hover, hbleaf, hby⟩
    · rw [(phases_of_not_onGrid hb ht limiter hn hc hgrid).2] at hw
      cases Except.ok.inj hw
  · rintro ⟨rfl, y, b, hover, hbleaf, hby⟩
    obtain ⟨-, tile, values, -, -, heq⟩ :=
      phases_of_isAncestorOf hb ht limiter hn hc hover hbleaf hby
    exact ⟨_, heq, rfl⟩

theorem setCells_phaseOneAt (hb : mesh.Built) (ht : mesh.tree.Valid)
    (hcomplete : mesh.tree.Complete) (transfer : Transfer) :
    mesh.setCells mesh.phaseOneAt transfer = {q | mesh.tree.isLeaf q.1 = true ∧
      mesh.layout.IsHaloCell q.2 ∧ ((transfer = .copied ∧
        ∃ s, mesh.IsOver (mesh.tree.location s) q.1 q.2 ∧ mesh.tree.isLeaf s = true) ∨
      (transfer = .restricted ∧
        ∃ s, mesh.IsOver (mesh.tree.location s) q.1 q.2 ∧ mesh.tree.isLeaf s = false))} :=
  Set.ext fun _ => and_congr_right fun hn => and_congr_right fun hc =>
    exists_phaseOneAt_transfer_iff hb ht hcomplete hn hc transfer

theorem setCells_phaseTwoAt (hb : mesh.Built) (ht : mesh.tree.Valid)
    (hcomplete : mesh.tree.Complete) (limiter : Limiter) (transfer : Transfer) :
    mesh.setCells (mesh.phaseTwoAt limiter) transfer = {q | mesh.tree.isLeaf q.1 = true ∧
      mesh.layout.IsHaloCell q.2 ∧ transfer = .projected ∧
        ∃ y b, mesh.IsOver y q.1 q.2 ∧ mesh.tree.isLeaf b = true ∧
          isAncestorOf (mesh.tree.location b) y = true} :=
  Set.ext fun _ => and_congr_right fun hn => and_congr_right fun hc =>
    exists_phaseTwoAt_transfer_iff hb ht hcomplete limiter hn hc transfer

variable {limiter : Limiter} {one two stats : ExchangeStats}
  {tiles tiles' : Vector (Option (Tile D ℚ)) mesh.tree.size}

/-- The counts of a run are the numbers of halo cells over leaves of the same level, over internal
nodes and over locations inside leaves. -/
theorem ExchangeResult.counts (hr : mesh.ExchangeResult limiter one two tiles tiles')
    (hb : mesh.Built) (ht : mesh.tree.Valid) (hcomplete : mesh.tree.Complete)
    (hstats : one.merge two = .ok stats) :
    stats.copied = {q : mesh.tree.Node × Cell D | mesh.tree.isLeaf q.1 = true ∧
      mesh.layout.IsHaloCell q.2 ∧
        ∃ s, mesh.IsOver (mesh.tree.location s) q.1 q.2 ∧ mesh.tree.isLeaf s = true}.ncard ∧
    stats.restricted = {q : mesh.tree.Node × Cell D | mesh.tree.isLeaf q.1 = true ∧
      mesh.layout.IsHaloCell q.2 ∧
        ∃ s, mesh.IsOver (mesh.tree.location s) q.1 q.2 ∧ mesh.tree.isLeaf s = false}.ncard ∧
    stats.projected = {q : mesh.tree.Node × Cell D | mesh.tree.isLeaf q.1 = true ∧
      mesh.layout.IsHaloCell q.2 ∧ ∃ y b, mesh.IsOver y q.1 q.2 ∧ mesh.tree.isLeaf b = true ∧
        isAncestorOf (mesh.tree.location b) y = true}.ncard := by
  obtain ⟨us, hus, hsum⟩ := hr.sum_one
  obtain ⟨us', hus', hsum'⟩ := hr.sum_two
  have hmerge := (ExchangeStats.merge_eq_ok_iff.1 hstats).2
  have hone (transfer : Transfer) :=
    (gathersFrom_phaseOne hb).sum_count_eq_ncard hb hus transfer
  have ht' : (mesh.withTiles tiles).tree.Valid := ht
  have htwo (transfer : Transfer) :=
    (gathersFrom_phaseTwo hr.built limiter).sum_count_eq_ncard
      hr.built hus' transfer
  have hset := setCells_phaseOneAt hb ht hcomplete
  have hset' := setCells_phaseTwoAt hr.built ht' hcomplete limiter
  have hfield (field : ExchangeStats → Nat) (hf : field ∈ ExchangeStats.fields) :
      field stats = (us.map fun u => field u.stats).sum + (us'.map fun u => field u.stats).sum := by
    rw [hmerge field hf, hsum field hf, hsum' field hf]
  refine ⟨?_, ?_, ?_⟩
  · refine (hfield ExchangeStats.copied (by simp [ExchangeStats.fields])).trans ?_
    refine (congrArg₂ (· + ·) (hone .copied) (htwo .copied)).trans ?_
    rw [hset, hset']
    simp
  · refine (hfield ExchangeStats.restricted (by simp [ExchangeStats.fields])).trans ?_
    refine (congrArg₂ (· + ·) (hone .restricted) (htwo .restricted)).trans ?_
    rw [hset, hset']
    simp
  · refine (hfield ExchangeStats.projected (by simp [ExchangeStats.fields])).trans ?_
    refine (congrArg₂ (· + ·) (hone .projected) (htwo .projected)).trans ?_
    rw [hset, hset']
    simp
    rfl

end Cases

/-! ## Coverage -/

/-- What phase one and phase two write to a halo cell of a leaf, given the tiles after phase one. -/
structure CellWrites (mesh : Mesh D L ℚ) (tiles : Vector (Option (Tile D ℚ)) mesh.tree.size)
    (limiter : Limiter) (n : mesh.tree.Node) (c : Cell D) (one two : List (CellUpdate ℚ)) :
    Prop where
  /-- A cell outside the root is not written. -/
  outside : ¬ mesh.OnGrid n c → one = [] ∧ two = []
  /-- Over a leaf of the same level the cell under the same numbers is copied. -/
  copied {s : mesh.tree.Node} : mesh.IsOver (mesh.tree.location s) n c →
    mesh.tree.isLeaf s = true → two = [] ∧ ∃ tile source values, mesh.tile? s = some tile ∧
      (∀ d : Fin D, (source.get d : ℤ) = mesh.config.cellIndex (mesh.tree.location n) c d %
        mesh.config.internalCells + mesh.config.haloLayers) ∧
      tile.get source = .ok values ∧ one = [⟨mesh.layout.offset c, values, .copied⟩]
  /-- Over an internal node the leaf cells below it are averaged. -/
  restricted {s : mesh.tree.Node} : mesh.IsOver (mesh.tree.location s) n c →
    mesh.tree.isLeaf s = false → two = [] ∧ ∃ values,
      mesh.restrict (mesh.centre n c) (mesh.config.spacing (mesh.tree.level n)) =
        .ok (some values) ∧
      mesh.IsMean (mesh.tree.level n) (mesh.config.cellIndex (mesh.tree.location n) c) values ∧
        one = [⟨mesh.layout.offset c, values, .restricted⟩]
  /-- Inside a coarser leaf the cell around it is projected from. -/
  projected {y : L} {b : mesh.tree.Node} : mesh.IsOver y n c → mesh.tree.isLeaf b = true →
    isAncestorOf (mesh.tree.location b) y = true → one = [] ∧ ∃ tile source values,
      tiles.get b = some tile ∧ mesh.layout.Inside source ∧
      (∀ d, mesh.config.cellIndex (mesh.tree.location b) source d =
        mesh.config.cellIndex (mesh.tree.location n) c d /
          2 ^ (mesh.tree.level n - mesh.tree.level b)) ∧
      project tile source (mesh.centre n c) limiter = .ok values ∧
        two = [⟨mesh.layout.offset c, values, .projected⟩]
  /-- One of the three cases is met inside the root, and the cell is written once. -/
  once : mesh.OnGrid n c → (∃ y, mesh.IsOver y n c ∧ ((∃ s, mesh.tree.location s = y) ∨
    ∃ b, mesh.tree.isLeaf b = true ∧ isAncestorOf (mesh.tree.location b) y = true)) ∧
      (one ++ two).length = 1

variable [LawfulLocation L] {mesh : Mesh D L ℚ} {n : mesh.tree.Node} {c : Cell D}
  {limiter : Limiter} {tiles tiles' : Vector (Option (Tile D ℚ)) mesh.tree.size}

omit [LawfulLocation L] in
/-- The cell of a coarser leaf around a halo cell is found by division. -/
theorem Built.cellIndex_internalCellAt (hb : mesh.Built) {b : mesh.tree.Node}
    (hlevel : mesh.tree.level b ≤ mesh.tree.level n)
    (hlies : mesh.config.LiesIn (mesh.centre n c) (mesh.tree.location b)) (d : Fin D) :
    mesh.config.cellIndex (mesh.tree.location b)
      (mesh.config.internalCellAt (mesh.tree.level b) (mesh.centre n c)) d =
        mesh.config.cellIndex (mesh.tree.location n) c d /
          2 ^ (mesh.tree.level n - mesh.tree.level b) := by
  have hindex := ((MeshConfig.forall_gridIndex_eq_iff hb.internalCells_pos).2 ⟨hlies, rfl⟩).2 d
  refine hindex.symm.trans ?_
  change mesh.config.gridIndex (mesh.tree.level b) _ d = _
  rw [mesh.config.gridIndex_of_add (mesh.tree.level b) (mesh.tree.level n - mesh.tree.level b),
    Nat.add_sub_of_le hlevel, hb.gridIndex_centre]

omit [LawfulLocation L] in
/-- The cell of a leaf of the same level around a halo cell is that cell, on the grid of the level. -/
theorem Built.cellIndex_internalCellAt_of_level_eq (hb : mesh.Built) {b : mesh.tree.Node}
    (hlevel : mesh.tree.level b = mesh.tree.level n)
    (hlies : mesh.config.LiesIn (mesh.centre n c) (mesh.tree.location b)) :
    mesh.config.cellIndex (mesh.tree.location b)
      (mesh.config.internalCellAt (mesh.tree.level b) (mesh.centre n c)) =
        mesh.config.cellIndex (mesh.tree.location n) c := by
  funext d
  rw [hb.cellIndex_internalCellAt hlevel.le hlies, hlevel, Nat.sub_self, pow_zero, Int.ediv_one]

theorem exists_cellWrites (hb : mesh.Built) (ht : mesh.tree.Valid)
    (hcomplete : mesh.tree.Complete) (hb' : (mesh.withTiles tiles).Built)
    (hn : mesh.tree.isLeaf n = true) (hc : mesh.layout.IsHaloCell c) : ∃ r r',
      mesh.phaseOneAt n c = .ok r ∧ (mesh.withTiles tiles).phaseTwoAt limiter n c = .ok r' ∧
        mesh.CellWrites tiles limiter n c r.toList r'.toList := by
  have ht' : (mesh.withTiles tiles).tree.Valid := ht
  obtain ⟨r, hr, -⟩ := exists_phaseOneAt ht hb hb.keptByMeans_size hn hc
  obtain ⟨r', hr', -⟩ := exists_phaseTwoAt ht' hb' limiter hn hc
  have hone {w : Option (CellUpdate ℚ)} (h : mesh.phaseOneAt n c = .ok w) : r = w :=
    Except.ok.inj (hr.symm.trans h)
  have htwo {w : Option (CellUpdate ℚ)}
      (h : (mesh.withTiles tiles).phaseTwoAt limiter n c = .ok w) : r' = w :=
    Except.ok.inj (hr'.symm.trans h)
  refine ⟨r, r', hr, hr', ?_, ?_, ?_, ?_, ?_⟩
  · intro hgrid
    rw [hone (phases_of_not_onGrid hb ht limiter hn hc hgrid).1,
      htwo (phases_of_not_onGrid hb' ht' limiter hn hc hgrid).2]
    exact ⟨rfl, rfl⟩
  · intro s hover hs
    obtain ⟨⟨tile, values, htile, hvalues, heq⟩, -⟩ :=
      phases_of_isLeaf hb ht limiter hn hc hover hs
    rw [hone heq, htwo (phases_of_isLeaf hb' ht' limiter hn hc hover hs).2]
    refine ⟨rfl, tile, _, values, htile, fun d => ?_, hvalues, rfl⟩
    rw [MeshConfig.get_internalCellAt hb.internalCells_pos, hb.gridIndex_centre]
  · intro s hover hs
    obtain ⟨⟨values, hvalues, hmean, heq⟩, -⟩ :=
      phases_of_not_isLeaf hb ht hcomplete limiter hn hc hover hs
    rw [hone heq, htwo (phases_of_not_isLeaf hb' ht' hcomplete limiter hn hc hover hs).2]
    exact ⟨rfl, values, hvalues, hmean, rfl⟩
  · intro y b hover hbleaf hby
    obtain ⟨hlevel, hlies⟩ := hb.isOver_iff.1 hover
    have hlt : mesh.tree.level b < mesh.tree.level n := hlevel ▸ (isAncestorOf_iff.1 hby).1
    obtain ⟨-, tile, values, htile, hvalues, heq⟩ :=
      phases_of_isAncestorOf hb' ht' limiter hn hc hover hbleaf hby
    rw [hone (phases_of_isAncestorOf hb ht limiter hn hc hover hbleaf hby).1, htwo heq]
    exact ⟨rfl, tile, _, values, htile, hb.inside_internalCellAt _ _,
      hb.cellIndex_internalCellAt hlt.le (hlies.of_covers (covers_iff.2 (Or.inr hby))), hvalues, rfl⟩
  · intro hgrid
    obtain ⟨y, hover, hy⟩ := hb.exists_isOver ht hcomplete hgrid
    refine ⟨⟨y, hover, hy⟩, ?_⟩
    obtain ⟨s, rfl⟩ | ⟨b, hbleaf, hby⟩ := hy
    · rcases hs : mesh.tree.isLeaf s with _ | _
      · obtain ⟨⟨values, -, -, heq⟩, -⟩ :=
          phases_of_not_isLeaf hb ht hcomplete limiter hn hc hover hs
        rw [hone heq, htwo (phases_of_not_isLeaf hb' ht' hcomplete limiter hn hc hover hs).2]
        rfl
      · obtain ⟨⟨tile, values, -, -, heq⟩, -⟩ := phases_of_isLeaf hb ht limiter hn hc hover hs
        rw [hone heq, htwo (phases_of_isLeaf hb' ht' limiter hn hc hover hs).2]
        rfl
    · obtain ⟨-, tile, values, -, -, heq⟩ :=
        phases_of_isAncestorOf hb' ht' limiter hn hc hover hbleaf hby
      rw [hone (phases_of_isAncestorOf hb ht limiter hn hc hover hbleaf hby).1, htwo heq]
      rfl

/-- What a run of an exchange does to a leaf: its internal cells stay, and each halo cell takes the
values written to it, if any. -/
theorem ExchangeResult.exists_writes {one two : ExchangeStats}
    (hr : mesh.ExchangeResult limiter one two tiles tiles') (hb : mesh.Built)
    (ht : mesh.tree.Valid) (hcomplete : mesh.tree.Complete) (hn : mesh.tree.isLeaf n = true) :
    ∃ before after u v, mesh.tile? n = some before ∧ tiles'.get n = some after ∧
      mesh.gatherPhaseOne n = .ok u ∧ (mesh.withTiles tiles).gatherPhaseTwo limiter n = .ok v ∧
      (∀ c, mesh.layout.Inside c → after.get c = before.get c) ∧
      ∀ c, mesh.layout.IsHaloCell c → ∃ i, mesh.layout.index c = .ok i ∧
        before.cellCentroid c = .ok (mesh.centre n c) ∧
        mesh.CellWrites tiles limiter n c (u.forCell i) (v.forCell i) ∧
        after.get c = (u.forCell i ++ v.forCell i).getLast?.elim (before.get c) fun w =>
          .ok w.values := by
  have ht' : (mesh.withTiles tiles).tree.Valid := ht
  obtain ⟨before, hbefore, hof⟩ := hb.exists_tile hn
  obtain ⟨mid, hmid, -⟩ := hr.built.exists_tile hn
  obtain ⟨after, hafter, -⟩ := hr.built'.exists_tile hn
  obtain ⟨us, hus, -⟩ := hr.sum_one
  obtain ⟨us', hus', -⟩ := hr.sum_two
  obtain ⟨u, -, hu⟩ := exists_of_mapM_eq_ok hus (Tree.Valid.mem_leaves_iff.2 hn)
  obtain ⟨v, -, hv⟩ := exists_of_mapM_eq_ok hus' (Tree.Valid.mem_leaves_iff.2 hn)
  refine ⟨before, after, u, v, hbefore, hafter, hu, hv, fun c hc => ?_, fun c hc => ?_⟩
  · rw [hr.second.inside hmid hafter c hc, hr.first.inside hbefore hmid c hc]
  · obtain ⟨r, r', hone, htwo, hwrites⟩ := exists_cellWrites hb ht hcomplete hr.built hn hc
    have hcell := (gathersFrom_phaseOne hb).forCell_eq (atPlace_phaseOne hb) hof.fits hn hu hc
      hone
    have hcell' := (gathersFrom_phaseTwo hr.built limiter).forCell_eq
      (atPlace_phaseTwo hr.built limiter) hof.fits hn hv hc htwo
    change v.forCell (mesh.layout.offset c) = _ at hcell'
    refine ⟨_, hof.fits.index hc.1, hof.cellCentroid_eq hb hc.1, ?_, ?_⟩
    · rw [hcell, hcell']
      exact hwrites
    · obtain ⟨w, hw, hget⟩ := hr.first.halo hbefore hmid c hc
      obtain ⟨w', hw', hget'⟩ := hr.second.halo hmid hafter c hc
      obtain rfl := Except.ok.inj (hone.symm.trans hw)
      obtain rfl := Except.ok.inj (htwo.symm.trans hw')
      rw [hcell, hcell', hget', hget]
      rcases r' with _ | w'
      · rcases r with _ | w <;> rfl
      · rcases r with _ | w <;> rfl

/-- An exchange on a tree that was grown sets each halo cell inside the root exactly once, from the
leaf or the leaves that lie there, and no other cell. It is refused for no mesh whose values fit in
memory, and its counts are the numbers of cells of each kind. -/
theorem exchange_covers_halo (hg : mesh.tree.Grown) (hb : mesh.Built) (limiter : Limiter) :
    (mesh.Addressable → ∃ r, mesh.exchange limiter = .ok r) ∧
    ∀ stats after, mesh.exchange limiter = .ok (stats, after) → ∃ one two tiles tiles',
      mesh.phaseOne = .ok (one, mesh.withTiles tiles) ∧
      (mesh.withTiles tiles).phaseTwo limiter = .ok (two, mesh.withTiles tiles') ∧
      after = mesh.withTiles tiles' ∧
      (∀ n, mesh.tree.isLeaf n = true → ∃ a b u v, mesh.tile? n = some a ∧
        tiles'.get n = some b ∧ mesh.gatherPhaseOne n = .ok u ∧
        (mesh.withTiles tiles).gatherPhaseTwo limiter n = .ok v ∧
        (∀ c, mesh.layout.Inside c → b.get c = a.get c) ∧
        ∀ c, mesh.layout.IsHaloCell c → ∃ i, mesh.layout.index c = .ok i ∧
          a.cellCentroid c = .ok (mesh.centre n c) ∧
          mesh.CellWrites tiles limiter n c (u.forCell i) (v.forCell i) ∧
          b.get c = (u.forCell i ++ v.forCell i).getLast?.elim (a.get c) fun w =>
            .ok w.values) ∧
      stats.copied = {q : mesh.tree.Node × Cell D | mesh.tree.isLeaf q.1 = true ∧
        mesh.layout.IsHaloCell q.2 ∧
          ∃ s, mesh.IsOver (mesh.tree.location s) q.1 q.2 ∧ mesh.tree.isLeaf s = true}.ncard ∧
      stats.restricted = {q : mesh.tree.Node × Cell D | mesh.tree.isLeaf q.1 = true ∧
        mesh.layout.IsHaloCell q.2 ∧
          ∃ s, mesh.IsOver (mesh.tree.location s) q.1 q.2 ∧ mesh.tree.isLeaf s = false}.ncard ∧
      stats.projected = {q : mesh.tree.Node × Cell D | mesh.tree.isLeaf q.1 = true ∧
        mesh.layout.IsHaloCell q.2 ∧ ∃ y b, mesh.IsOver y q.1 q.2 ∧ mesh.tree.isLeaf b = true ∧
          isAncestorOf (mesh.tree.location b) y = true}.ncard := by
  obtain ⟨ht, hcomplete⟩ := hg.valid_complete
  refine ⟨fun haddr => exists_exchange ht hb haddr limiter, fun stats after h => ?_⟩
  obtain ⟨one, two, tiles, tiles', hr, rfl, hstats⟩ := exchange_eq_ok hb h
  exact ⟨one, two, tiles, tiles', hr.phaseOne, hr.phaseTwo, rfl,
    fun n hn => hr.exists_writes hb ht hcomplete hn, hr.counts hb ht hcomplete hstats⟩

theorem exchange_covers_halo_graded : ∃ mesh : Mesh 2 (GridLocation 2) ℚ,
    mesh.tree = Tree.graded ∧ mesh.tree.Grown ∧ mesh.Built ∧
      ∃ stats after, mesh.exchange .minmod = .ok (stats, after) ∧
        ∀ n, mesh.tree.isLeaf n = true → ∃ tiles u v, mesh.gatherPhaseOne n = .ok u ∧
          (mesh.withTiles tiles).gatherPhaseTwo .minmod n = .ok v ∧
            ∀ c, mesh.layout.IsHaloCell c → mesh.OnGrid n c →
              ∃ i, mesh.layout.index c = .ok i ∧ (u.forCell i ++ v.forCell i).length = 1 := by
  obtain ⟨mesh, htree, -, hb, haddr⟩ := exists_make_unit Tree.graded
  have hg : mesh.tree.Grown := htree ▸ Tree.grown_graded
  obtain ⟨hrun, hall⟩ := exchange_covers_halo hg hb .minmod
  obtain ⟨⟨stats, after⟩, h⟩ := hrun (haddr (by decide +kernel))
  obtain ⟨_, _, tiles, _, _, _, _, hleaves, _⟩ := hall stats after h
  refine ⟨mesh, htree, hg, hb, stats, after, h, fun n hn => ?_⟩
  obtain ⟨_, _, u, v, _, _, hu, hv, _, hcells⟩ := hleaves n hn
  refine ⟨tiles, u, v, hu, hv, fun c hc hgrid => ?_⟩
  obtain ⟨i, hi, _, hwrites, _⟩ := hcells c hc
  exact ⟨i, hi, (hwrites.once hgrid).2⟩

end Mesh

end AdaptiveMesh
