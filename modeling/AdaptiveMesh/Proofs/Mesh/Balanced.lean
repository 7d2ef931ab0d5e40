import AdaptiveMesh.Proofs.Mesh.Again
import AdaptiveMesh.Proofs.Mesh.Coverage

/-!
# Balanced trees

In a balanced tree the levels of leaves that touch differ by at most one. There a projection reads
no halo cell over a leaf that is coarser than the one it projects from: the fine leaf's halo reaches
only half way across the coarse tile,

```
  ┌───────────┬─────┬──┐
  │           │     │  │
  │     M     │  N  ├──┤     T reads N for its halo, and N's halo
  │           │     │ T│     over M is two fine tiles away
  │           ├─────┼──┤
```

and where it reaches a cell at the border of `N`, a leaf beside `T` touches what is beyond.
-/

namespace AdaptiveMesh

open LocationCode

variable {D : Nat} {L : Type} [LocationCode D L]

namespace Tree

/-- The levels of neighbouring leaves differ by at most one. -/
def Balanced (t : Tree L) : Prop :=
  ∀ a, t.isLeaf a = true → ∀ ns, t.allLeafNeighbors a = .ok ns → ∀ b ∈ ns,
    t.level a ≤ t.level b + 1 ∧ t.level b ≤ t.level a + 1

theorem Balanced.level_le [LawfulLocation L] [Dimension D] {t : Tree L} (hbal : t.Balanced)
    (ht : t.Valid) {a b : t.Node} (ha : t.isLeaf a = true) (hb : t.isLeaf b = true)
    (h : Adjoins (t.location a) (t.location b)) : t.level a ≤ t.level b + 1 := by
  by_cases hba : b = a
  · rw [hba]
    exact Nat.le_succ _
  · obtain ⟨ns, hns, -, hmem⟩ := ht.exists_allLeafNeighbors ha
    exact (hbal a ha ns hns b ((hmem b).2 ⟨hb, hba, h⟩)).1

theorem balanced_graded : graded.Balanced := by
  have hlevel : ∀ n, graded.isLeaf n = true → 1 ≤ graded.level n ∧ graded.level n ≤ 2 := by
    decide +kernel
  intro a ha ns hns b hb
  obtain ⟨ns', hns', -, hmem⟩ := grown_graded.valid.exists_allLeafNeighbors ha
  obtain rfl := Except.ok.inj (hns.symm.trans hns')
  have := hlevel a ha
  have := hlevel b ((hmem b).1 hb).1
  omega

end Tree

namespace Mesh

variable [LawfulLocation L] [Dimension D] {mesh : Mesh D L ℚ} {n b m : mesh.tree.Node}
  {c source : Cell D} {d : Fin D} {steps : ℤ}

omit [LawfulLocation L] [Dimension D] in
theorem cellIndex_stepped (hs : mesh.layout.Inside source) (hsteps : steps = 1 ∨ steps = -1) (x : L)
    (i : Fin D) : mesh.config.cellIndex x (TileLayout.stepped source d steps) i =
      mesh.config.cellIndex x source i + if i = d then steps else 0 := by
  have hi := hs i
  have hpos := mesh.layout.haloLayers_pos
  unfold MeshConfig.cellIndex
  rw [TileLayout.get_stepped]
  generalize (place x i * mesh.config.internalCells : ℤ) = corner
  split <;> omega

omit [LawfulLocation L] [Dimension D] in
/-- The step from a tile to its halo goes to the next box along the axis of the step. -/
theorem Built.cellIndex_stepped_ediv (hb : mesh.Built) (hs : mesh.layout.Inside source)
    (hsteps : steps = 1 ∨ steps = -1)
    (hhalo : mesh.layout.IsHaloCell (TileLayout.stepped source d steps)) (x : L) (i : Fin D) :
    mesh.config.cellIndex x (TileLayout.stepped source d steps) i / mesh.config.internalCells =
      place x i + if i = d then steps else 0 := by
  have hn : (0 : ℤ) < mesh.config.internalCells := Int.natCast_pos.2 hb.internalCells_pos
  have hi := hs i
  have hborder := hs.border hsteps hhalo.2
  rw [cellIndex_stepped hs hsteps, MeshConfig.cellIndex, Int.ediv_eq_iff_of_pos hn]
  rw [hb.layout_eq.1, hb.layout_eq.2] at hi hborder
  split
  · next hid =>
    subst hid
    rcases hborder with ⟨rfl, hborder⟩ | ⟨rfl, hborder⟩
    · constructor <;> linarith
    · constructor <;> linarith
  · constructor
    · linarith
    · linarith

omit [LawfulLocation L] in
/-- Where a halo reaches a cell at the border of a coarser tile, the parent of the halo's leaf is
beside the box behind that border. -/
theorem Built.abs_place_parent_sub_le (hb : mesh.Built) (hc : mesh.layout.IsHaloCell c) {x : L}
    (hparent : ∀ i, place x i = place (mesh.tree.location n) i / 2)
    (hlevel : mesh.tree.level n = mesh.tree.level b + 1)
    (hlies : mesh.config.LiesIn (mesh.centre n c) (mesh.tree.location b))
    (hsteps : steps = 1 ∨ steps = -1)
    (hhalo : mesh.layout.IsHaloCell (TileLayout.stepped
      (mesh.config.internalCellAt (mesh.tree.level b) (mesh.centre n c)) d steps)) (i : Fin D) :
    |(place x i : ℤ) - (place (mesh.tree.location b) i + if i = d then steps else 0)| ≤ 1 := by
  have hn : (0 : ℤ) < mesh.config.internalCells := Int.natCast_pos.2 hb.internalCells_pos
  have htwo : (2 : ℤ) ≤ mesh.config.internalCells := by
    have := (MeshConfig.of_validate hb.validate_eq).1
    omega
  have hinside := hb.inside_internalCellAt (mesh.tree.level b) (mesh.centre n c)
  have hle : mesh.tree.level b ≤ mesh.tree.level n := by omega
  have hone : mesh.tree.level n - mesh.tree.level b = 1 := by omega
  have hreach := abs_le.1 (hb.abs_sub_place_le (n := n) hc.1 i)
  have hbox := (hb.liesIn_centre_iff hle).1 hlies i
  have hsource := hb.cellIndex_internalCellAt hle hlies i
  have hbeyond := hb.cellIndex_stepped_ediv hinside hsteps hhalo (mesh.tree.location b) i
  change _ / _ / 2 ^ (mesh.tree.level n - mesh.tree.level b) = _ at hbox
  rw [cellIndex_stepped hinside hsteps, hsource, hone, pow_one] at hbeyond
  rw [hone, pow_one] at hbox
  rw [hparent i, abs_le]
  generalize mesh.config.cellIndex (mesh.tree.location n) c i = g at *
  generalize (mesh.config.internalCells : ℤ) = k at *
  split
  · next hid =>
    rw [if_pos hid, Int.ediv_eq_iff_of_pos hn] at hbeyond
    -- the halo is at most as deep as half the coarse tile
    rcases hsteps with rfl | rfl
    · have hhalf : 2 * (place (mesh.tree.location b) i : ℤ) + 1 ≤ g / k :=
        Int.le_ediv_of_mul_le hn (by nlinarith [Int.ediv_mul_le g (show (2 : ℤ) ≠ 0 by decide)])
      omega
    · have hhalf : g / k < 2 * (place (mesh.tree.location b) i : ℤ) + 1 :=
        Int.ediv_lt_of_lt_mul hn (by
          nlinarith [Int.lt_ediv_add_one_mul_self g (show (0 : ℤ) < 2 by decide)])
      omega
  · omega

/-- That parent touches the leaf over the cell, if the leaf is no finer than the tile. -/
theorem Built.adjoins_parent_of_stepped (hb : mesh.Built) (hc : mesh.layout.IsHaloCell c) {x : L}
    (hx : parent? (mesh.tree.location n) = some x)
    (hlevel : mesh.tree.level n = mesh.tree.level b + 1)
    (hlies : mesh.config.LiesIn (mesh.centre n c) (mesh.tree.location b))
    (hsteps : steps = 1 ∨ steps = -1) (hhalo : mesh.layout.IsHaloCell (TileLayout.stepped
      (mesh.config.internalCellAt (mesh.tree.level b) (mesh.centre n c)) d steps))
    (hle : mesh.tree.level m ≤ mesh.tree.level b) (hmlies : mesh.config.LiesIn (mesh.centre b
      (TileLayout.stepped (mesh.config.internalCellAt (mesh.tree.level b) (mesh.centre n c)) d steps))
        (mesh.tree.location m)) : Adjoins (mesh.tree.location m) x := by
  obtain ⟨hxlevel, hparent⟩ := parent?_eq_some_iff.1 hx
  change mesh.tree.level n = level x + 1 at hxlevel
  have hdown : level x = mesh.tree.level m + (mesh.tree.level b - mesh.tree.level m) := by omega
  refine (adjoins_iff_of_level hdown).2 fun i => ?_
  have hstep := abs_le.1 (hb.abs_place_parent_sub_le hc hparent hlevel hlies hsteps hhalo i)
  have hover := (hb.liesIn_centre_iff hle).1 hmlies i
  have hpow : (0 : ℤ) < 2 ^ (mesh.tree.level b - mesh.tree.level m) := by positivity
  rw [hb.cellIndex_stepped_ediv (hb.inside_internalCellAt _ _) hsteps hhalo] at hover
  obtain ⟨hlow, hup⟩ := (Int.ediv_eq_iff_of_pos hpow).1 hover
  change _ ≤ _ at hlow
  change _ < _ + 2 ^ (mesh.tree.level b - mesh.tree.level m) at hup
  zify
  constructor
  · linarith
  · linarith

/-- In a balanced tree no leaf that is coarser than the source of a projection lies over a halo cell
that the projection reads. -/
theorem level_le_of_stepped (hb : mesh.Built) (ht : mesh.tree.Valid)
    (hcomplete : mesh.tree.Complete) (hbal : mesh.tree.Balanced)
    (hn : mesh.tree.isLeaf n = true) (hc : mesh.layout.IsHaloCell c)
    (hbleaf : mesh.tree.isLeaf b = true) (hlevel : mesh.tree.level b < mesh.tree.level n)
    (hlies : mesh.config.LiesIn (mesh.centre n c) (mesh.tree.location b))
    (hsteps : steps = 1 ∨ steps = -1) (hhalo : mesh.layout.IsHaloCell (TileLayout.stepped
      (mesh.config.internalCellAt (mesh.tree.level b) (mesh.centre n c)) d steps))
    (hm : mesh.tree.isLeaf m = true) (hmlies : mesh.config.LiesIn (mesh.centre b
      (TileLayout.stepped (mesh.config.internalCellAt (mesh.tree.level b) (mesh.centre n c)) d steps))
        (mesh.tree.location m)) : mesh.tree.level b ≤ mesh.tree.level m := by
  by_contra hlt
  have hnext : mesh.tree.level n = mesh.tree.level b + 1 := by
    have := hbal.level_le ht hn hbleaf (hb.adjoins_of_liesIn hc.1 hlevel.le hlies)
    omega
  -- the parent of the fine leaf is an internal node and touches the leaf over the cell that is read
  obtain ⟨x, hx⟩ := exists_parent? (hnext ▸ Nat.succ_pos _ : 0 < mesh.tree.level n)
  obtain ⟨p, rfl⟩ := Tree.mem_locations_iff.1
    (ht.closed _ (mesh.tree.location_mem n) x hx)
  have hadj := hb.adjoins_parent_of_stepped hc hx hnext hlies hsteps hhalo (by omega) hmlies
  -- so a leaf below it is two levels finer than one it touches
  obtain ⟨e, heleaf, hbelow, he⟩ :=
    hcomplete.exists_leaf_adjoins ht (ht.isLeaf_eq_false (isAncestorOf_of_parent? hx)) hadj
  have hfine := hbal.level_le ht heleaf hm he.symm
  have hplevel : mesh.tree.level n = mesh.tree.level p + 1 := (parent?_eq_some_iff.1 hx).1
  have hdeep : mesh.tree.level p < mesh.tree.level e := (isAncestorOf_iff.1 hbelow).1
  omega

/-- In a balanced tree no projection reads a projected cell. -/
theorem not_staleRead (hb : mesh.Built) (ht : mesh.tree.Valid) (hcomplete : mesh.tree.Complete)
    (hbal : mesh.tree.Balanced) : ¬ mesh.StaleRead := by
  rintro ⟨n, c, b, source, m, source', d, steps, hc, hsource, hsteps, hhalo, hsource'⟩
  obtain ⟨hn, hbleaf, hlevel, hlies, rfl⟩ := (projectsFrom_iff ht hb hc).1 hsource
  obtain ⟨-, hm, hmlevel, hmlies, -⟩ := (projectsFrom_iff ht hb hhalo).1 hsource'
  exact absurd (level_le_of_stepped hb ht hcomplete hbal hn hc hbleaf hlevel hlies hsteps hhalo hm
    hmlies) (not_le.2 hmlevel)

end Mesh

end AdaptiveMesh
