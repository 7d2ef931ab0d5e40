import AdaptiveMesh.Proofs.Mesh.Exchange
import AdaptiveMesh.Proofs.Mesh.Reads

/-!
# Exchanging again

In phase one a second exchange gathers what the first one did. In phase two it finds the values of
the first one's projections in halo cells that phase one does not set, where the first exchange
found what was there before. So it changes nothing if no projection reads a cell that is projected.
-/

namespace AdaptiveMesh

open LocationCode

variable {D : Nat} {L S : Type} [LocationCode D L] [Scalar S]

namespace Mesh

variable [Dimension D] {mesh after : Mesh D L S} {n b : mesh.tree.Node} {c source : Cell D}
  {limiter : Limiter} {stats : ExchangeStats}

/-- Phase two projects to a halo cell of a leaf from a cell of another leaf. -/
def ProjectsFrom (mesh : Mesh D L S) (n : mesh.tree.Node) (c : Cell D) (b : mesh.tree.Node)
    (source : Cell D) : Prop :=
  ∃ coarse, mesh.tile? b = some coarse ∧
    mesh.projectionSource n c = .ok (some (coarse, source))

/-- A projection reads, for a slope, a halo cell that is projected itself. -/
def StaleRead (mesh : Mesh D L S) : Prop :=
  ∃ n c b source b' source', ∃ (d : Fin D) (steps : ℤ),
    mesh.layout.IsHaloCell c ∧ mesh.ProjectsFrom n c b source ∧ (steps = 1 ∨ steps = -1) ∧
      mesh.layout.IsHaloCell (TileLayout.stepped source d steps) ∧
        mesh.ProjectsFrom b (TileLayout.stepped source d steps) b' source'

/-- Where a cell is projected from does not depend on values. -/
theorem ProjectsFrom.withTiles (hb : mesh.Built)
    {tiles : Vector (Option (Tile D S)) mesh.tree.size} (hframes : mesh.SameFrames tiles)
    (h : mesh.ProjectsFrom n c b source) : (mesh.withTiles tiles).ProjectsFrom n c b source := by
  obtain ⟨g, hg, htiles⟩ := hb.exists_map Tile.SameFrame.refl hframes
  obtain ⟨coarse, hcoarse, hsource⟩ := h
  refine ⟨g coarse, (htiles b).trans (by rw [hcoarse]; rfl), ?_⟩
  rw [projectionSource_map hg htiles, hsource]
  rfl

theorem StaleRead.of_withTiles (hb : mesh.Built)
    {tiles : Vector (Option (Tile D S)) mesh.tree.size} (hframes : mesh.SameFrames tiles)
    (h : (mesh.withTiles tiles).StaleRead) : mesh.StaleRead := by
  obtain ⟨n, c, b, source, b', source', d, steps, hc, hsource, hsteps, hhalo, hstale⟩ := h
  have hbuilt := hb.withTiles hframes
  exact ⟨n, c, b, source, b', source', d, steps, hc, hsource.withTiles hbuilt hframes.symm, hsteps,
    hhalo, hstale.withTiles hbuilt hframes.symm⟩

omit [LocationCode D L] [Scalar S] [Dimension D] in
theorem withTiles_injective {tiles tiles' : Vector (Option (Tile D S)) mesh.tree.size}
    (h : mesh.withTiles tiles = mesh.withTiles tiles') : tiles = tiles' := by
  unfold withTiles at h
  simpa using h

/-- A phase that runs on a mesh runs, for the same gathered updates, on tiles in the same frames. -/
theorem exists_phaseResult {gather : mesh.tree.Node → Except Fault (TileUpdate mesh.tree S)}
    {at' : mesh.tree.Node → Cell D → Except Fault (Option (CellUpdate S))} (hb : mesh.Built)
    (hg : mesh.GathersFrom gather at') (hplace : mesh.AtPlace at')
    (h : mesh.runPhase gather = .ok (stats, after))
    {tiles : Vector (Option (Tile D S)) mesh.tree.size} (hframes : mesh.SameFrames tiles) :
    ∃ tiles', (mesh.withTiles tiles).runPhase gather = .ok (stats, mesh.withTiles tiles') ∧
      (mesh.withTiles tiles).PhaseResult at' tiles' := by
  obtain ⟨tiles', hrun⟩ := exists_runPhase_of_sameShapes hframes.sameShapes h
  have hg' : (mesh.withTiles tiles).GathersFrom gather at' := hg
  obtain ⟨tiles'', htiles, hres, -⟩ :=
    phaseResult_of_runPhase (hb.withTiles hframes) hg' hplace hrun
  obtain rfl := withTiles_injective (htiles : mesh.withTiles tiles' = mesh.withTiles tiles'')
  exact ⟨tiles', hrun, hres⟩

variable [LawfulLocation L] {one two : ExchangeStats}
  {tiles tiles' again : Vector (Option (Tile D S)) mesh.tree.size}

namespace ExchangeResult

/-- Phase one of a second exchange gathers what that of the first did. -/
theorem exists_phaseOne_again (hb : mesh.Built)
    (h : mesh.ExchangeResult limiter one two tiles tiles') :
    ∃ again, (mesh.withTiles tiles').phaseOne = .ok (one, mesh.withTiles again) ∧
      (mesh.withTiles tiles').PhaseResult mesh.phaseOneAt again := by
  have hframes := h.first.frames.trans h.second.frames
  have hinsides : mesh.SameInsides tiles' := hb.sameInsides hframes fun n a₀ a₂ ha₀ ha₂ c hc => by
    obtain ⟨a₁, ha₁, -⟩ := h.first.frames.exists_of_tile ha₀
    rw [h.second.inside ha₁ ha₂ c hc, h.first.inside ha₀ ha₁ c hc]
  obtain ⟨again, hrun, hres⟩ := exists_phaseResult hb (gathersFrom_phaseOne hb)
    (atPlace_phaseOne hb) h.phaseOne hframes
  refine ⟨again, ?_, hres⟩
  change (mesh.withTiles tiles').runPhase (mesh.withTiles tiles').gatherPhaseOne = _
  rw [hb.gatherPhaseOne_eq hinsides]
  exact hrun

omit [LawfulLocation L] in
/-- Where phase two writes nothing, phase one of a second exchange leaves what that of the first one
left. -/
theorem get_again (h : mesh.ExchangeResult limiter one two tiles tiles')
    (hagain : (mesh.withTiles tiles').PhaseResult mesh.phaseOneAt again) {a₁ a₃ : Tile D S}
    (ha₁ : tiles.get n = some a₁) (ha₃ : again.get n = some a₃) (hc : mesh.layout.Contains c)
    (hnone : mesh.layout.IsHaloCell c → ∀ w,
      (mesh.withTiles tiles).phaseTwoAt limiter n c ≠ .ok (some w)) : a₃.get c = a₁.get c := by
  obtain ⟨a₀, ha₀, -⟩ := h.first.frames.symm.exists_of_tile ha₁
  obtain ⟨a₂, ha₂, -⟩ := h.second.frames.exists_of_tile ha₁
  by_cases hin : mesh.layout.Inside c
  · rw [hagain.inside ha₂ ha₃ c hin, h.second.inside ha₁ ha₂ c hin]
  · have hhalo : mesh.layout.IsHaloCell c := ⟨hc, hin⟩
    obtain ⟨r₁, hr₁, hget₁⟩ := h.first.halo ha₀ ha₁ c hhalo
    obtain ⟨r₂, hr₂, hget₂⟩ := h.second.halo ha₁ ha₂ c hhalo
    obtain ⟨r₃, hr₃, hget₃⟩ := hagain.halo ha₂ ha₃ c hhalo
    obtain rfl := Except.ok.inj (hr₁.symm.trans hr₃)
    rcases r₂ with _ | w
    · rw [hget₃, hget₂, hget₁]
      cases r₁ <;> rfl
    · exact absurd hr₂ (hnone hhalo w)

omit [LawfulLocation L] in
/-- If no projection reads a projected cell, phase two of a second exchange gathers what that of the
first did. -/
theorem gatherPhaseTwo_again (hb : mesh.Built)
    (h : mesh.ExchangeResult limiter one two tiles tiles')
    (hagain : (mesh.withTiles tiles').PhaseResult mesh.phaseOneAt again)
    (hstale : ¬ mesh.StaleRead) : (mesh.withTiles again).gatherPhaseTwo limiter =
      (mesh.withTiles tiles).gatherPhaseTwo limiter := by
  have hframes : (mesh.withTiles tiles).SameFrames again := h.second.frames.trans hagain.frames
  obtain ⟨g, hg, hmap⟩ := h.built.exists_map_sameInside <| h.built.sameInsides hframes
    fun n a₁ a₃ ha₁ ha₃ c hc => h.get_again hagain ha₁ ha₃ hc.contains fun hhalo => absurd hc hhalo.2
  refine gatherPhaseTwo_map (fun a => (hg a).1) hmap h.built
    fun n c coarse source x hc hsource => ?_
  obtain ⟨⟨b, hcoarse⟩, hs⟩ := of_projectionSource hsource
  have hof := (h.built.isLeaf_of_tile hcoarse).2
  have hagain' : again.get b = some (g coarse) := (hmap b).trans (by rw [hcoarse]; rfl)
  rw [hof.layout] at hs
  refine hof.project_congr (hg coarse).1 hs ((hg coarse).2 source (by rwa [hof.layout]))
    (fun d steps hsteps => ?_) x limiter
  have hcontains := hs.contains_stepped d (show steps.natAbs ≤ 1 by omega)
  refine h.get_again hagain hcoarse hagain' hcontains fun hhalo w hw => ?_
  -- a projected cell would be read here
  obtain ⟨⟨coarse', source'⟩, hsource'⟩ := exists_projectionSource_of_phaseTwoAt hw
  obtain ⟨⟨b', hcoarse'⟩, -⟩ := of_projectionSource hsource'
  exact hstale (StaleRead.of_withTiles hb h.first.frames ⟨n, c, b, source, b', source', d, steps, hc,
    ⟨coarse, hcoarse, hsource⟩, hsteps, hhalo, ⟨coarse', hcoarse', hsource'⟩⟩)

end ExchangeResult

/-- If no projection reads a projected cell, a second exchange changes nothing. -/
theorem exchange_again (hb : mesh.Built) (hstale : ¬ mesh.StaleRead)
    (h : mesh.exchange limiter = .ok (stats, after)) :
    after.exchange limiter = .ok (stats, after) := by
  obtain ⟨one, two, tiles, tiles', hres, rfl, hmerge⟩ := exchange_eq_ok hb h
  obtain ⟨again, hone, hagain⟩ := hres.exists_phaseOne_again hb
  have hgather := hres.gatherPhaseTwo_again hb hagain hstale
  have hframes : (mesh.withTiles tiles).SameFrames again := hres.second.frames.trans hagain.frames
  obtain ⟨again', hrun, htwo⟩ := exists_phaseResult hres.built (gathersFrom_phaseTwo hres.built
    limiter) (atPlace_phaseTwo hres.built limiter) hres.phaseTwo hframes
  have hsame : again' = tiles' := by
    refine hres.built'.eq_of_get (hagain.frames.trans htwo.frames) fun n a₂ a₄ ha₂ ha₄ c hc => ?_
    obtain ⟨a₁, ha₁, -⟩ := hres.second.frames.symm.exists_of_tile ha₂
    obtain ⟨a₃, ha₃, -⟩ := hagain.frames.exists_of_tile ha₂
    by_cases hin : mesh.layout.Inside c
    · rw [htwo.inside ha₃ ha₄ c hin, hagain.inside ha₂ ha₃ c hin]
    · obtain ⟨r, hr, hget₂⟩ := hres.second.halo ha₁ ha₂ c ⟨hc, hin⟩
      obtain ⟨r', hr', hget₄⟩ := htwo.halo ha₃ ha₄ c ⟨hc, hin⟩
      obtain rfl := Except.ok.inj (hr.symm.trans hr')
      rw [hget₂, hget₄]
      rcases r with _ | w
      · refine hres.get_again hagain ha₁ ha₃ hc fun _ w hw => ?_
        rw [hr] at hw
        cases Except.ok.inj hw
      · rfl
  subst hsame
  have htworun : (mesh.withTiles again).phaseTwo limiter = .ok (two, mesh.withTiles again') := by
    unfold phaseTwo
    rw [hgather]
    exact hrun
  exact exchange_eq_ok_iff.2 ⟨one, _, two, hone, htworun, hmerge⟩

/-- In exact arithmetic a halo cell is projected from the coarser leaf over its centre, if there is
one. -/
theorem projectsFrom_iff {mesh : Mesh D L ℚ} {n b : mesh.tree.Node} (ht : mesh.tree.Valid)
    (hb : mesh.Built) (hc : mesh.layout.IsHaloCell c) : mesh.ProjectsFrom n c b source ↔
      mesh.tree.isLeaf n = true ∧ mesh.tree.isLeaf b = true ∧
        mesh.tree.level b < mesh.tree.level n ∧
          mesh.config.LiesIn (mesh.centre n c) (mesh.tree.location b) ∧
            source = mesh.config.internalCellAt (mesh.tree.level b) (mesh.centre n c) := by
  constructor
  · rintro ⟨coarse, hcoarse, hsource⟩
    obtain ⟨tile, -, -, -, htile, -⟩ := projectionSource_eq_some_iff.1 hsource
    have hn := (hb.isLeaf_of_tile htile).1
    obtain ⟨r, hr, hiff⟩ := exists_projectionSource ht hb hn hc
    obtain ⟨b', hb', hlies, hlevel, rfl⟩ :=
      (hiff coarse source).1 (Except.ok.inj (hr.symm.trans hsource))
    obtain rfl := hb.eq_of_tile hcoarse hb'
    exact ⟨hn, (hb.isLeaf_of_tile hcoarse).1, hlevel, hlies, rfl⟩
  · rintro ⟨hn, hbleaf, hlevel, hlies, rfl⟩
    obtain ⟨coarse, hcoarse, -⟩ := hb.exists_tile hbleaf
    obtain ⟨r, hr, hiff⟩ := exists_projectionSource ht hb hn hc
    exact ⟨coarse, hcoarse, hr.trans (congrArg _ ((hiff coarse _).2 ⟨b, hcoarse, hlies, hlevel, rfl⟩))⟩

end Mesh

end AdaptiveMesh
