import AdaptiveMesh.Proofs.Mesh.Frame

/-!
# Phase one leaf by leaf

Phase one reads internal cells and writes halo cells, so what a leaf gathers does not depend on which
other leaves were set before. A run that gathers and writes leaf after leaf, in any order, therefore
ends where phase one does, and a second run of phase one changes nothing.
-/

namespace AdaptiveMesh

open LocationCode

variable {D : Nat} {L S : Type} [LocationCode D L] [Scalar S]

/-- Tiles with the same zeros have the same frame. -/
theorem Tile.sameFrame_of_blank_eq {a b : Tile D S} (h : a.blank = b.blank) : a.SameFrame b := by
  obtain ⟨n, l, box, layout, state⟩ := a
  obtain ⟨n', l', box', layout', state'⟩ := b
  simp only [blank, StateBuffer.fill, Tile.mk.injEq, StateBuffer.mk.injEq] at h
  obtain ⟨rfl, rfl, rfl, rfl, hcount, hdata⟩ := h
  have hsize := congrArg Array.size hdata
  rw [Array.size_map, Array.size_map] at hsize
  exact ⟨⟨hcount.symm, hsize.symm⟩, rfl⟩

namespace Mesh

variable {mesh after : Mesh D L S} {stats : ExchangeStats}
  {tiles tiles' : Vector (Option (Tile D S)) mesh.tree.size}

/-- Two meshes of one tree and configuration are alike up to the values in their cells. -/
theorem Built.sameFrames (hb : mesh.Built) (hb' : (mesh.withTiles tiles).Built) :
    mesh.SameFrames tiles := by
  intro n
  have h := Except.ok.inj ((hb.make_eq.2.2 n).symm.trans (hb'.make_eq.2.2 n))
  change (mesh.tile? n).map Tile.blank = (tiles.get n).map Tile.blank at h
  generalize mesh.tile? n = a at h ⊢
  generalize tiles.get n = b at h ⊢
  cases a with
  | none =>
    rw [Option.map_eq_none_iff.1 h.symm]
    exact .none
  | some a =>
    obtain ⟨b, rfl, hblank⟩ := Option.map_eq_some_iff.1 h.symm
    exact .some (Tile.sameFrame_of_blank_eq hblank.symm)

variable [Dimension D]

/-! ## One leaf -/

/-- Writing halo cells keeps the internal ones. -/
theorem IsTileOf.sameInside_of_writeAll {n : mesh.tree.Node} {tile : Tile D S}
    (hof : mesh.IsTileOf n tile) {us : List (CellUpdate S)} {state : StateBuffer S}
    (hus : ∀ w ∈ us, ∃ c, mesh.layout.IsHaloCell c ∧ w.index = mesh.layout.offset c)
    (h : tile.state.writeAll us = .ok state) : tile.SameInside { tile with state } := by
  have hframe : tile.SameFrame { tile with state } := ⟨StateBuffer.sameShape_of_writeAll h, rfl⟩
  refine ⟨hframe, fun c hc => ?_⟩
  rw [hof.layout] at hc
  rw [hof.get_eq hc.contains, (hof.of_sameFrame hframe).get_eq hc.contains]
  refine StateBuffer.get_of_writeAll_of_forall_ne h fun w hw heq => ?_
  obtain ⟨e, he, hindex⟩ := hus w hw
  have hec : e = c := TileLayout.offset_injective he.1 hc.contains (hindex.symm.trans heq)
  exact he.2 (hec ▸ hc)

theorem SameInsides.of_apply (hb : mesh.Built) (h : mesh.SameInsides tiles)
    {u : TileUpdate mesh.tree S} {s s' : ExchangeStats}
    (hu : ∀ w ∈ u.cells, ∃ c, mesh.layout.IsHaloCell c ∧ w.index = mesh.layout.offset c)
    (happly : TileUpdate.apply (s, tiles) u = .ok (s', tiles')) : mesh.SameInsides tiles' := by
  obtain ⟨-, tile, hwrites, hset⟩ := TileUpdate.apply_eq_ok_iff.1 happly
  obtain ⟨hnode, hother⟩ := TileUpdate.eq_set_iff.1 hset
  intro m
  by_cases hm : m = u.node
  · rw [hm, hnode]
    have hrel := h u.node
    generalize ha : mesh.tile? u.node = a at hrel ⊢
    generalize tiles.get u.node = b at hrel hwrites
    cases hrel with
    | none =>
      obtain rfl := hwrites
      exact .none
    | some hab =>
      obtain ⟨state, hstate, rfl⟩ := hwrites
      have hof := (hb.isLeaf_of_tile ha).2.of_sameFrame hab.1
      exact .some (hab.trans (hof.sameInside_of_writeAll hu hstate))
  · rw [hother m hm]
    exact h m

/-- Gathers the update of a leaf from the tiles as they are, and writes it. -/
def phaseOneLeaf (mesh : Mesh D L S)
    (sofar : ExchangeStats × Vector (Option (Tile D S)) mesh.tree.size) (leaf : mesh.tree.Node) :
    Except Fault (ExchangeStats × Vector (Option (Tile D S)) mesh.tree.size) := do
  TileUpdate.apply sofar (← (mesh.withTiles sofar.2).gatherPhaseOne leaf)

/-- Phase one leaf after leaf. -/
def phaseOneInOrder (mesh : Mesh D L S) (order : List mesh.tree.Node) :
    Except Fault (ExchangeStats × Mesh D L S) := do
  let (stats, tiles) ← order.foldlM mesh.phaseOneLeaf (ExchangeStats.zero, mesh.tiles)
  return (stats, mesh.withTiles tiles)

/-- On a mesh with the same internal cells phase one goes through with the same counts. -/
theorem exists_phaseOne_of_sameInsides (hb : mesh.Built) (h : mesh.phaseOne = .ok (stats, after))
    (hsame : mesh.SameInsides tiles) :
    ∃ tiles', (mesh.withTiles tiles).phaseOne = .ok (stats, mesh.withTiles tiles') := by
  unfold phaseOne
  rw [hb.gatherPhaseOne_eq hsame]
  exact exists_runPhase_of_sameShapes hsame.frames.sameShapes h

variable [LawfulLocation L]

/-! ## All leaves -/

/-- Leaf after leaf, each gathers what it would have gathered at the start. -/
theorem foldlM_phaseOneLeaf (hb : mesh.Built) {order : List mesh.tree.Node}
    (horder : ∀ n ∈ order, mesh.tree.isLeaf n = true) {us : List (TileUpdate mesh.tree S)}
    (hus : order.mapM mesh.gatherPhaseOne = .ok us) (h : mesh.SameInsides tiles)
    {s : ExchangeStats} {r : ExchangeStats × Vector (Option (Tile D S)) mesh.tree.size}
    (hrun : us.foldlM TileUpdate.apply (s, tiles) = .ok r) :
    order.foldlM mesh.phaseOneLeaf (s, tiles) = .ok r := by
  induction mapM_eq_ok_iff.1 hus generalizing s tiles with
  | nil => exact hrun
  | @cons n u order us hu hrest' ih =>
    rw [List.foldlM_cons] at hrun ⊢
    obtain ⟨⟨s₁, tiles₁⟩, happly, hrest⟩ := bind_eq_ok_iff.1 hrun
    have hstep : mesh.phaseOneLeaf (s, tiles) n = .ok (s₁, tiles₁) := by
      unfold phaseOneLeaf
      rw [hb.gatherPhaseOne_eq h]
      exact bind_eq_ok_iff.2 ⟨u, hu, happly⟩
    have hn := horder n List.mem_cons_self
    have hplace := (gathersFrom_phaseOne hb).exists_place (atPlace_phaseOne hb) hn hu (hb.fits hn)
    rw [hstep]
    exact ih (fun m hm => horder m (List.mem_cons_of_mem n hm)) (mapM_eq_ok_iff.2 hrest')
      (h.of_apply hb hplace happly) hrest

/-- Whatever the order of the leaves, phase one leaf by leaf ends where phase one does. -/
theorem phaseOneInOrder_eq (hb : mesh.Built) (h : mesh.phaseOne = .ok (stats, after))
    {order : List mesh.tree.Node} (horder : order.Perm mesh.tree.leaves) :
    mesh.phaseOneInOrder order = .ok (stats, after) := by
  unfold phaseOne runPhase at h
  obtain ⟨us, hus, h⟩ := bind_eq_ok_iff.1 h
  obtain ⟨r, hfold, h⟩ := bind_eq_ok_iff.1 h
  obtain ⟨vs, hvs, hperm⟩ := exists_mapM_of_perm horder hus
  have hmap : us.map TileUpdate.node = mesh.tree.leaves := map_eq_of_mapM_eq_ok (fun n hn u hu => by
    have hleaf := Tree.Valid.mem_leaves_iff.1 hn
    obtain ⟨-, -, -, -, -, -, hnode, -⟩ :=
      (gathersFrom_phaseOne hb).exists_updates hleaf hu (hb.fits hleaf)
    exact hnode) hus
  have hfold' := TileUpdate.foldlM_apply_of_perm hperm (hmap ▸ Tree.Valid.nodup_leaves) hfold
  unfold phaseOneInOrder
  rw [foldlM_phaseOneLeaf hb (fun n hn => Tree.Valid.mem_leaves_iff.1 (horder.mem_iff.1 hn)) hvs
    (.refl mesh) hfold']
  exact h

/-- A second run of phase one changes nothing. -/
theorem phaseOne_again (hb : mesh.Built) (h : mesh.phaseOne = .ok (stats, after)) :
    after.phaseOne = .ok (stats, after) := by
  obtain ⟨tiles, rfl, hsame, hframe⟩ := exists_phaseFrame (p := .one) hb h
  obtain ⟨again, hrun⟩ := exists_phaseOne_of_sameInsides hb h hsame
  have hb' := hb.withTiles hsame.frames
  obtain ⟨tiles', htiles, hsame', hframe'⟩ := exists_phaseFrame (p := .one) hb' hrun
  obtain rfl := withTiles_injective (htiles : mesh.withTiles again = mesh.withTiles tiles')
  have heq : again = tiles := hb'.eq_of_get hsame'.frames fun n b b' hbefore hafter c hc => by
    have hn := (hb'.isLeaf_of_tile hbefore).1
    obtain ⟨u, a, b₁, hu, ha, hb₁, hsets⟩ := hframe.sets n hn
    obtain ⟨u', b₂, b₃, hu', hb₂, hb₃, hsets'⟩ := hframe'.sets n hn
    obtain rfl := Option.some.inj (hbefore.symm.trans hb₁)
    obtain rfl := Option.some.inj (hbefore.symm.trans hb₂)
    obtain rfl := Option.some.inj (hafter.symm.trans hb₃)
    change (mesh.withTiles tiles).gatherPhaseOne n = _ at hu'
    rw [hb.gatherPhaseOne_eq hsame] at hu'
    obtain rfl := Except.ok.inj (hu.symm.trans hu')
    exact hsets.get_again hsets' ((hb'.isLeaf_of_tile hbefore).2.layout.symm ▸ hc)
  rw [heq] at hrun
  exact hrun

/-- Phase one depends on internal cells only. On two meshes that agree on them every leaf gathers the
same updates, so that the same halo cells are set, to the same values. A second run changes nothing,
and gathering and writing leaf after leaf, in whatever order, ends in the same mesh with the same
counts. -/
theorem phaseOne_reads_internal (hb : mesh.Built) (h : mesh.phaseOne = .ok (stats, after)) :
    (∃ tiles, after = mesh.withTiles tiles ∧
      ∀ other, (mesh.withTiles other).Built →
        (∀ n a a', mesh.tile? n = some a → other.get n = some a' →
          ∀ c, mesh.layout.Inside c → a'.get c = a.get c) →
        ∃ tiles', (mesh.withTiles other).phaseOne = .ok (stats, mesh.withTiles tiles') ∧
          ∀ n, mesh.tree.isLeaf n = true → ∃ u a b a' b', mesh.gatherPhaseOne n = .ok u ∧
            (mesh.withTiles other).gatherPhaseOne n = .ok u ∧
            mesh.tile? n = some a ∧ tiles.get n = some b ∧ u.Sets a b ∧
            other.get n = some a' ∧ tiles'.get n = some b' ∧ u.Sets a' b') ∧
    after.phaseOne = .ok (stats, after) ∧
    ∀ order, order.Perm mesh.tree.leaves → mesh.phaseOneInOrder order = .ok (stats, after) := by
  refine ⟨?_, phaseOne_again hb h, fun order => phaseOneInOrder_eq hb h⟩
  obtain ⟨tiles, htiles, -, hframe⟩ := exists_phaseFrame (p := .one) hb h
  refine ⟨tiles, htiles, fun other hb' hagree => ?_⟩
  have hsame : mesh.SameInsides other := hb.sameInsides (hb.sameFrames hb') hagree
  obtain ⟨tiles', hrun⟩ := exists_phaseOne_of_sameInsides hb h hsame
  obtain ⟨tiles'', heq, -, hframe'⟩ := exists_phaseFrame (p := .one) hb' hrun
  obtain rfl := withTiles_injective (heq : mesh.withTiles tiles' = mesh.withTiles tiles'')
  refine ⟨tiles', hrun, fun n hn => ?_⟩
  obtain ⟨u, a, b, hu, ha, hb₁, hsets⟩ := hframe.sets n hn
  obtain ⟨u', a', b', hu', ha', hb₁', hsets'⟩ := hframe'.sets n hn
  have hgather : (mesh.withTiles other).gatherPhaseOne n = .ok u := by
    rw [hb.gatherPhaseOne_eq hsame]
    exact hu
  obtain rfl := Except.ok.inj (hgather.symm.trans hu')
  exact ⟨u, a, b, a', b', hu, hgather, ha, hb₁, hsets, ha', hb₁', hsets'⟩

theorem phaseOne_reads_internal_sparse : ∃ mesh : Mesh 2 (GridLocation 2) ℚ,
    mesh.tree = Tree.sparse ∧ mesh.Built ∧ ∃ stats after, mesh.phaseOne = .ok (stats, after) ∧
      after.phaseOne = .ok (stats, after) ∧
      mesh.phaseOneInOrder mesh.tree.leaves.reverse = .ok (stats, after) := by
  obtain ⟨mesh, htree, -, hb, haddr⟩ := exists_make_unit Tree.sparse
  have ht : mesh.tree.Valid := htree ▸ by decide +kernel
  obtain ⟨⟨stats, after⟩, h⟩ := exists_phaseOne ht hb (haddr (by decide +kernel))
  obtain ⟨-, hagain, horder⟩ := phaseOne_reads_internal hb h
  exact ⟨mesh, htree, hb, stats, after, h, hagain, horder _ (List.reverse_perm _)⟩

end Mesh

end AdaptiveMesh
