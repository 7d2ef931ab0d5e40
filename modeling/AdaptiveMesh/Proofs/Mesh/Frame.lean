import AdaptiveMesh.Proofs.Mesh.Again
import AdaptiveMesh.Proofs.Mesh.Coverage

/-!
# What calls leave alone

A phase sets halo cells only, each at most once, and counts the cells that it sets. So after any
phases and exchanges a mesh has the tree, the configuration and the frames of tiles that it had, and
in every internal cell what was there.
-/

namespace AdaptiveMesh

open LocationCode

variable {D : Nat} {L S : Type}

/-! ## Updates of a tile -/

/-- The updates take a tile to another one. Each is for a halo cell, there is at most one for a
cell, and a cell without one keeps its values. -/
structure TileUpdate.Sets {t : Tree L} (u : TileUpdate t S) (a b : Tile D S) : Prop where
  inside : a.SameInside b
  place : ∀ w ∈ u.cells, ∃ c, a.layout.IsHaloCell c ∧ a.layout.index c = .ok w.index
  halo : ∀ c, a.layout.IsHaloCell c → ∃ i, a.layout.index c = .ok i ∧
    (u.forCell i = [] ∧ b.get c = a.get c ∨ ∃ w, u.forCell i = [w] ∧ b.get c = .ok w.values)

/-- The same updates change nothing more. -/
theorem TileUpdate.Sets.get_again {t : Tree L} {u : TileUpdate t S} {a b b' : Tile D S}
    (h : u.Sets a b) (h' : u.Sets b b') {c : Cell D} (hc : b.layout.Contains c) :
    b'.get c = b.get c := by
  by_cases hin : b.layout.Inside c
  · exact h'.inside.2 c hin
  · obtain ⟨i, hi, hset'⟩ := h'.halo c ⟨hc, hin⟩
    obtain ⟨j, hj, hset⟩ := h.halo c (by rw [← h.inside.1.layout_eq]; exact ⟨hc, hin⟩)
    rw [← h.inside.1.layout_eq] at hj
    obtain rfl := Except.ok.inj (hi.symm.trans hj)
    obtain ⟨-, hkeep⟩ | ⟨w, hw, hget'⟩ := hset'
    · exact hkeep
    · obtain ⟨hnil, -⟩ | ⟨w', hw', hget⟩ := hset
      · rw [hnil] at hw
        contradiction
      · rw [hw'] at hw
        obtain rfl := List.singleton_inj.1 hw
        rw [hget', hget]

theorem TileUpdate.count_add_count_add_count {t : Tree L} (u : TileUpdate t S) :
    u.count .copied + u.count .restricted + u.count .projected = u.cells.countP fun _ => true := by
  unfold count
  induction u.cells with
  | nil => rfl
  | cons w ws ih =>
    simp only [List.countP_cons, ← ih]
    cases w.transfer <;> simp <;> omega

namespace Mesh

variable [LocationCode D L] [Scalar S] [Dimension D]

/-- One of the two phases. -/
inductive Phase where
  | one
  | two (limiter : Limiter)

/-- What a phase writes to the tile of a leaf. -/
def gather (mesh : Mesh D L S) : Phase → mesh.tree.Node → Except Fault (TileUpdate mesh.tree S)
  | .one => mesh.gatherPhaseOne
  | .two limiter => mesh.gatherPhaseTwo limiter

/-- What a phase writes to a halo cell of a leaf. -/
def updateAt (mesh : Mesh D L S) :
    Phase → mesh.tree.Node → Cell D → Except Fault (Option (CellUpdate S))
  | .one => mesh.phaseOneAt
  | .two limiter => mesh.phaseTwoAt limiter

/-- The halo cells of leaves that a phase writes. -/
def written (mesh : Mesh D L S) (p : Phase) : Set (mesh.tree.Node × Cell D) :=
  {q | mesh.tree.isLeaf q.1 = true ∧ mesh.layout.IsHaloCell q.2 ∧
    ∃ u i, mesh.gather p q.1 = .ok u ∧ mesh.layout.index q.2 = .ok i ∧ u.forCell i ≠ []}

/-- What a phase does to the tiles, and what it counts. -/
structure PhaseFrame (mesh : Mesh D L S) (p : Phase) (stats : ExchangeStats)
    (tiles : Vector (Option (Tile D S)) mesh.tree.size) : Prop where
  sets : ∀ n, mesh.tree.isLeaf n = true → ∃ u a b, mesh.gather p n = .ok u ∧
    mesh.tile? n = some a ∧ tiles.get n = some b ∧ u.Sets a b
  others : ∀ n, mesh.tree.isLeaf n = false → mesh.tile? n = none ∧ tiles.get n = none
  count : stats.copied + stats.restricted + stats.projected = (mesh.written p).ncard

/-- A phase by itself or a whole exchange. -/
inductive Call where
  | phase (p : Phase)
  | exchange (limiter : Limiter)

/-- What a call returns. -/
def call (mesh : Mesh D L S) : Call → Except Fault (ExchangeStats × Mesh D L S)
  | .phase .one => mesh.phaseOne
  | .phase (.two limiter) => mesh.phaseTwo limiter
  | .exchange limiter => mesh.exchange limiter

/-- The mesh that calls leave, one after the other. -/
def afterCalls (mesh : Mesh D L S) (calls : List Call) : Except Fault (Mesh D L S) :=
  calls.foldlM (fun mesh c => Prod.snd <$> mesh.call c) mesh

/-- What a call does, phase by phase: each phase starts from what the one before it left. -/
inductive CallFrame (mesh : Mesh D L S) : Call → ExchangeStats → Mesh D L S → Prop where
  | phase {p stats tiles} : mesh.PhaseFrame p stats tiles →
      CallFrame mesh (.phase p) stats (mesh.withTiles tiles)
  | exchange {limiter one two stats tiles tiles'} : mesh.PhaseFrame .one one tiles →
      (mesh.withTiles tiles).PhaseFrame (.two limiter) two tiles' → one.merge two = .ok stats →
      CallFrame mesh (.exchange limiter) stats (mesh.withTiles tiles')

variable {mesh after : Mesh D L S} {p : Phase} {stats : ExchangeStats}
  {tiles : Vector (Option (Tile D S)) mesh.tree.size}

omit [Dimension D] in
theorem PhaseResult.sameInsides {at' : mesh.tree.Node → Cell D → Except Fault (Option (CellUpdate S))}
    (hb : mesh.Built) (h : mesh.PhaseResult at' tiles) : mesh.SameInsides tiles :=
  hb.sameInsides h.frames fun _ _ _ => h.inside

theorem atPlace_updateAt (hb : mesh.Built) : mesh.AtPlace (mesh.updateAt p) := by
  cases p with
  | one => exact atPlace_phaseOne hb
  | two limiter => exact atPlace_phaseTwo hb limiter

variable [LawfulLocation L]

theorem gathersFrom_updateAt (hb : mesh.Built) : mesh.GathersFrom (mesh.gather p) (mesh.updateAt p) := by
  cases p with
  | one => exact gathersFrom_phaseOne hb
  | two limiter => exact gathersFrom_phaseTwo hb limiter

/-- The updates of a leaf set the cells of its tile. -/
theorem PhaseResult.sets (hb : mesh.Built) (h : mesh.PhaseResult (mesh.updateAt p) tiles)
    {n : mesh.tree.Node} (hn : mesh.tree.isLeaf n = true) {u : TileUpdate mesh.tree S}
    (hu : mesh.gather p n = .ok u) {a b : Tile D S} (ha : mesh.tile? n = some a)
    (hb' : tiles.get n = some b) : u.Sets a b := by
  have hof := (hb.isLeaf_of_tile ha).2
  have hg := gathersFrom_updateAt (p := p) hb
  have hplace := atPlace_updateAt (p := p) hb
  have hrel := h.sameInsides hb n
  rw [ha, hb', Option.rel_some_some] at hrel
  refine ⟨hrel, fun w hw => ?_, fun c hc => ?_⟩
  · obtain ⟨c, hc, hindex⟩ := hg.exists_place hplace hn hu hof.fits w hw
    rw [hof.layout, hindex]
    exact ⟨c, hc, hof.fits.index hc.1⟩
  · rw [hof.layout] at hc ⊢
    obtain ⟨r, hr, hget⟩ := h.halo ha hb' c hc
    refine ⟨mesh.layout.offset c, hof.fits.index hc.1, ?_⟩
    rw [hg.forCell_eq hplace hof.fits hn hu hc hr, hget]
    cases r with
    | none => exact Or.inl ⟨rfl, rfl⟩
    | some w => exact Or.inr ⟨w, rfl, rfl⟩

theorem exists_eq_some_of_written (hb : mesh.Built) {n : mesh.tree.Node} {c : Cell D}
    (h : (n, c) ∈ mesh.written p) {r : Option (CellUpdate S)} (hr : mesh.updateAt p n c = .ok r) :
    ∃ w, r = some w := by
  obtain ⟨hn, hc, u, i, hu, hi, hcell⟩ := h
  have hfits := hb.fits hn
  rw [hfits.index hc.1] at hi
  obtain rfl := Except.ok.inj hi
  rw [(gathersFrom_updateAt hb).forCell_eq (atPlace_updateAt hb) hfits hn hu hc hr] at hcell
  cases r with
  | none => exact absurd rfl hcell
  | some w => exact ⟨w, rfl⟩

/-- The halo cells that are written are those with an update. -/
theorem written_eq (hb : mesh.Built) {us : List (TileUpdate mesh.tree S)}
    (hus : mesh.tree.leaves.mapM (mesh.gather p) = .ok us) :
    mesh.written p = {q | mesh.tree.isLeaf q.1 = true ∧ mesh.layout.IsHaloCell q.2 ∧
      ∃ w, mesh.updateAt p q.1 q.2 = .ok (some w)} := by
  ext ⟨n, c⟩
  refine and_congr_right fun hn => and_congr_right fun hc => ?_
  have hfits := hb.fits hn
  have hg := gathersFrom_updateAt (p := p) hb
  obtain ⟨u, -, hu⟩ := exists_of_mapM_eq_ok hus (Tree.Valid.mem_leaves_iff.2 hn)
  obtain ⟨halos, rs, -, -, hmem, hrs, -⟩ := hg.exists_updates hn hu hfits
  obtain ⟨r, -, hr⟩ := exists_of_mapM_eq_ok hrs ((hmem c).2 hc)
  have hcell := hg.forCell_eq (atPlace_updateAt hb) hfits hn hu hc hr
  simp only [hu, hr, hfits.index hc.1, Except.ok.injEq, exists_and_left, exists_eq_left', hcell]
  cases r <;> simp

/-- A phase sets halo cells, each at most once, and counts those that it sets. -/
theorem exists_phaseFrame (hb : mesh.Built)
    (h : mesh.runPhase (mesh.gather p) = .ok (stats, after)) :
    ∃ tiles, after = mesh.withTiles tiles ∧ mesh.SameInsides tiles ∧ mesh.PhaseFrame p stats tiles := by
  have hg := gathersFrom_updateAt (p := p) hb
  obtain ⟨tiles, rfl, hres, us, hus, hsum⟩ := phaseResult_of_runPhase hb hg (atPlace_updateAt hb) h
  refine ⟨tiles, rfl, hres.sameInsides hb, fun n hn => ?_, fun n hn => ?_, ?_⟩
  · obtain ⟨a, ha, -⟩ := hb.exists_tile hn
    obtain ⟨b, hb', -⟩ := hres.frames.exists_of_tile ha
    obtain ⟨u, -, hu⟩ := exists_of_mapM_eq_ok hus (Tree.Valid.mem_leaves_iff.2 hn)
    exact ⟨u, a, b, hu, ha, hb', hres.sets hb hn hu ha hb'⟩
  · have hnone := hb.tile?_eq_none hn
    exact ⟨hnone, hres.frames.tile?_eq_none hnone⟩
  · have hcount := hg.sum_countP_eq_ncard hb hus fun _ => true
    simp only [← TileUpdate.count_add_count_add_count, List.sum_map_add, and_true] at hcount
    rw [hsum ExchangeStats.copied (by simp [ExchangeStats.fields]),
      hsum ExchangeStats.restricted (by simp [ExchangeStats.fields]),
      hsum ExchangeStats.projected (by simp [ExchangeStats.fields]), written_eq hb hus]
    exact hcount

/-! ## Runs of calls -/

omit [LawfulLocation L] in
theorem call_phase (mesh : Mesh D L S) (p : Phase) :
    mesh.call (.phase p) = mesh.runPhase (mesh.gather p) := by
  cases p <;> rfl

/-- A call keeps the frames of tiles and the internal cells. -/
theorem exists_callFrame (hb : mesh.Built) {c : Call} (h : mesh.call c = .ok (stats, after)) :
    mesh.CallFrame c stats after ∧ ∃ tiles, after = mesh.withTiles tiles ∧ mesh.SameInsides tiles := by
  cases c with
  | phase p =>
    rw [call_phase] at h
    obtain ⟨tiles, rfl, hinsides, hframe⟩ := exists_phaseFrame hb h
    exact ⟨.phase hframe, tiles, rfl, hinsides⟩
  | exchange limiter =>
    change mesh.exchange limiter = _ at h
    obtain ⟨one, mid, two, hone, htwo, hmerge⟩ := exchange_eq_ok_iff.1 h
    obtain ⟨tiles, rfl, hinsides, hframe⟩ := exists_phaseFrame (p := .one) hb hone
    have hb' := hb.withTiles hinsides.frames
    obtain ⟨tiles', rfl, hinsides', hframe'⟩ := exists_phaseFrame (p := .two limiter) hb' htwo
    exact ⟨.exchange hframe hframe' hmerge, tiles', rfl, hinsides.trans hinsides'⟩

section Exact

variable {mesh : Mesh D L ℚ}

/-- In exact arithmetic no call is refused of a mesh whose values fit in memory. -/
theorem exists_call (ht : mesh.tree.Valid) (hb : mesh.Built) (haddr : mesh.Addressable) (c : Call) :
    ∃ r, mesh.call c = .ok r := by
  cases c with
  | exchange limiter => exact exists_exchange ht hb haddr limiter
  | phase p =>
    cases p with
    | one => exact exists_phaseOne ht hb haddr
    | two limiter => exact exists_phaseTwo ht hb haddr limiter

theorem exists_afterCalls (ht : mesh.tree.Valid) (hb : mesh.Built) (haddr : mesh.Addressable)
    (calls : List Call) : ∃ after, mesh.afterCalls calls = .ok after := by
  induction calls generalizing mesh with
  | nil => exact ⟨mesh, rfl⟩
  | cons c calls ih =>
    obtain ⟨⟨stats, mid⟩, hcall⟩ := exists_call ht hb haddr c
    obtain ⟨-, tiles, rfl, hinsides⟩ := exists_callFrame hb hcall
    have ht' : (mesh.withTiles tiles).tree.Valid := ht
    obtain ⟨after, hrun⟩ := ih ht' (hb.withTiles hinsides.frames) haddr
    refine ⟨after, ?_⟩
    unfold afterCalls at hrun ⊢
    rw [List.foldlM_cons, hcall]
    exact hrun

end Exact

/-- After any calls a mesh is the one it was up to the values in halo cells, and a node has a tile
exactly if it is a leaf. Whatever is called next sets halo cells of leaves only, each at most once in
each of its phases, and as many as the phase counts. -/
theorem afterCalls_frame (hb : mesh.Built) {calls : List Call} (h : mesh.afterCalls calls = .ok after) :
    ∃ tiles, after = mesh.withTiles tiles ∧ mesh.SameInsides tiles ∧
      (∀ n, (mesh.tile? n).isSome = mesh.tree.isLeaf n ∧ (tiles.get n).isSome = mesh.tree.isLeaf n) ∧
      ∀ c stats last, after.call c = .ok (stats, last) → after.CallFrame c stats last := by
  have hkeep : ∃ tiles, after = mesh.withTiles tiles ∧ mesh.SameInsides tiles := by
    refine foldlM_invariant (motive := fun m => ∃ tiles, m = mesh.withTiles tiles ∧
      mesh.SameInsides tiles) ⟨mesh.tiles, rfl, .refl mesh⟩ ?_ h
    rintro m c m' - ⟨tiles, rfl, hinsides⟩ hm
    rcases hcall : (mesh.withTiles tiles).call c with e | ⟨stats, last⟩
    · rw [hcall] at hm
      contradiction
    · rw [hcall] at hm
      obtain rfl := Except.ok.inj hm
      obtain ⟨-, tiles', rfl, hinsides'⟩ := exists_callFrame (hb.withTiles hinsides.frames) hcall
      exact ⟨tiles', rfl, hinsides.trans hinsides'⟩
  obtain ⟨tiles, rfl, hinsides⟩ := hkeep
  have hb' := hb.withTiles hinsides.frames
  refine ⟨tiles, rfl, hinsides, fun n => ?_, fun c stats last hcall => (exists_callFrame hb' hcall).1⟩
  cases hn : mesh.tree.isLeaf n with
  | false =>
    have hnone := hb.tile?_eq_none hn
    rw [hnone, hinsides.frames.tile?_eq_none hnone]
    exact ⟨rfl, rfl⟩
  | true =>
    obtain ⟨a, ha, -⟩ := hb.exists_tile hn
    obtain ⟨b, hb', -⟩ := hinsides.frames.exists_of_tile ha
    rw [ha, hb']
    exact ⟨rfl, rfl⟩

theorem afterCalls_frame_sparse : ∃ mesh : Mesh 2 (GridLocation 2) ℚ,
    mesh.tree = Tree.sparse ∧ mesh.Built ∧ ∃ tiles,
      mesh.afterCalls [.exchange .minmod, .phase .one, .phase (.two .unlimited)] =
        .ok (mesh.withTiles tiles) ∧ mesh.SameInsides tiles ∧
      (∀ n, (tiles.get n).isSome = mesh.tree.isLeaf n) ∧ ∃ stats last,
        (mesh.withTiles tiles).CallFrame (.exchange .minmod) stats last := by
  obtain ⟨mesh, htree, -, hb, haddr⟩ := exists_make_unit Tree.sparse
  have ht : mesh.tree.Valid := htree ▸ by decide +kernel
  have haddr := haddr (by decide +kernel)
  obtain ⟨after, h⟩ := exists_afterCalls ht hb haddr
    [.exchange .minmod, .phase .one, .phase (.two .unlimited)]
  obtain ⟨tiles, rfl, hinsides, hsome, hcalls⟩ := afterCalls_frame hb h
  have ht' : (mesh.withTiles tiles).tree.Valid := ht
  obtain ⟨⟨stats, last⟩, hlast⟩ :=
    exists_exchange ht' (hb.withTiles hinsides.frames) haddr .minmod
  exact ⟨mesh, htree, hb, tiles, h, hinsides, fun n => (hsome n).2, stats, last,
    hcalls _ stats last hlast⟩

end Mesh

end AdaptiveMesh
