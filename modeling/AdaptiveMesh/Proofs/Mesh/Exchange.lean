import AdaptiveMesh.Proofs.Mesh.Sources

/-!
# Runs of an exchange

An exchange is a run of phase one and then, on the tiles that one leaves, a run of phase two. In
exact arithmetic it is refused for no mesh whose values a word counts.
-/

namespace AdaptiveMesh

open LocationCode

variable {D : Nat} {L S : Type} [LocationCode D L] [LawfulLocation L] [Dimension D] [Scalar S]

namespace Mesh

/-- What an exchange went through: the tiles after phase one and after phase two, and the counts of
the two. -/
structure ExchangeResult (mesh : Mesh D L S) (limiter : Limiter) (one two : ExchangeStats)
    (tiles tiles' : Vector (Option (Tile D S)) mesh.tree.size) : Prop where
  phaseOne : mesh.phaseOne = .ok (one, mesh.withTiles tiles)
  phaseTwo : (mesh.withTiles tiles).phaseTwo limiter = .ok (two, mesh.withTiles tiles')
  built : (mesh.withTiles tiles).Built
  built' : (mesh.withTiles tiles').Built
  first : mesh.PhaseResult mesh.phaseOneAt tiles
  second : (mesh.withTiles tiles).PhaseResult ((mesh.withTiles tiles).phaseTwoAt limiter) tiles'
  sum_one : ∃ us, mesh.tree.leaves.mapM mesh.gatherPhaseOne = .ok us ∧
    ∀ field ∈ ExchangeStats.fields, field one = (us.map fun u => field u.stats).sum
  sum_two : ∃ us, mesh.tree.leaves.mapM ((mesh.withTiles tiles).gatherPhaseTwo limiter) = .ok us ∧
    ∀ field ∈ ExchangeStats.fields, field two = (us.map fun u => field u.stats).sum

variable {mesh after : Mesh D L S} {limiter : Limiter} {stats : ExchangeStats}

omit [LawfulLocation L] in
theorem exchange_eq_ok_iff : mesh.exchange limiter = .ok (stats, after) ↔ ∃ one mid two,
    mesh.phaseOne = .ok (one, mid) ∧ mid.phaseTwo limiter = .ok (two, after) ∧
      one.merge two = .ok stats := by
  unfold exchange
  constructor
  · intro h
    obtain ⟨⟨one, mid⟩, hone, h⟩ := bind_eq_ok_iff.1 h
    obtain ⟨⟨two, last⟩, htwo, h⟩ := bind_eq_ok_iff.1 h
    obtain ⟨sum, hmerge, h⟩ := bind_eq_ok_iff.1 h
    obtain ⟨rfl, rfl⟩ := Prod.mk.inj (Except.ok.inj h)
    exact ⟨one, mid, two, hone, htwo, hmerge⟩
  · rintro ⟨one, mid, two, hone, htwo, hmerge⟩
    exact bind_eq_ok_iff.2 ⟨_, hone, bind_eq_ok_iff.2 ⟨_, htwo, bind_eq_ok_iff.2 ⟨_, hmerge, rfl⟩⟩⟩

/-- Two phases one after the other keep all but the tiles. -/
theorem exists_exchangeResult (hb : mesh.Built) {one two : ExchangeStats} {mid : Mesh D L S}
    (hone : mesh.phaseOne = .ok (one, mid)) (htwo : mid.phaseTwo limiter = .ok (two, after)) :
    ∃ tiles tiles', mesh.ExchangeResult limiter one two tiles tiles' ∧
      mid = mesh.withTiles tiles ∧ after = mesh.withTiles tiles' := by
  obtain ⟨tiles, rfl, hfirst, hsum⟩ :=
    phaseResult_of_runPhase hb (gathersFrom_phaseOne hb) (atPlace_phaseOne hb) hone
  have hbuilt := hb.withTiles hfirst.frames
  obtain ⟨tiles', rfl, hsecond, hsum'⟩ := phaseResult_of_runPhase hbuilt
    (gathersFrom_phaseTwo hbuilt limiter) (atPlace_phaseTwo hbuilt limiter) htwo
  exact ⟨tiles, tiles', {
    phaseOne := hone
    phaseTwo := htwo
    built := hbuilt
    built' := hbuilt.withTiles hsecond.frames
    first := hfirst
    second := hsecond
    sum_one := hsum
    sum_two := hsum' }, rfl, rfl⟩

theorem exchange_eq_ok (hb : mesh.Built) (h : mesh.exchange limiter = .ok (stats, after)) :
    ∃ one two tiles tiles', mesh.ExchangeResult limiter one two tiles tiles' ∧
      after = mesh.withTiles tiles' ∧ one.merge two = .ok stats := by
  obtain ⟨one, mid, two, hone, htwo, hmerge⟩ := exchange_eq_ok_iff.1 h
  obtain ⟨tiles, tiles', hresult, -, hafter⟩ := exists_exchangeResult hb hone htwo
  exact ⟨one, two, tiles, tiles', hresult, hafter, hmerge⟩

/-! ## Runs in exact arithmetic -/

omit [LawfulLocation L] [Dimension D] [Scalar S] in
/-- A count that is zero for every leaf is zero for the phase. -/
theorem sum_field_eq_zero {gather : mesh.tree.Node → Except Fault (TileUpdate mesh.tree S)}
    {us : List (TileUpdate mesh.tree S)} (hus : mesh.tree.leaves.mapM gather = .ok us)
    {field : ExchangeStats → Nat}
    (hzero : ∀ n u, mesh.tree.isLeaf n = true → gather n = .ok u → field u.stats = 0) :
    (us.map fun u => field u.stats).sum = 0 := by
  refine List.sum_eq_zero fun k hk => ?_
  obtain ⟨u, hu, rfl⟩ := List.mem_map.1 hk
  obtain ⟨n, hn, hgather⟩ := (mem_of_mapM_eq_ok hus).1 hu
  exact hzero n u (Tree.Valid.mem_leaves_iff.1 hn) hgather

/-- No count grows in both phases. -/
theorem ExchangeResult.eq_zero_or {one two : ExchangeStats}
    {tiles tiles' : Vector (Option (Tile D S)) mesh.tree.size} (hb : mesh.Built)
    (h : mesh.ExchangeResult limiter one two tiles tiles') {field : ExchangeStats → Nat}
    (hf : field ∈ ExchangeStats.fields) : field one = 0 ∨ field two = 0 := by
  obtain ⟨us, hus, hone⟩ := h.sum_one
  obtain ⟨us', hus', htwo⟩ := h.sum_two
  rw [hone field hf, htwo field hf]
  simp only [ExchangeStats.fields, List.mem_cons, List.not_mem_nil, or_false] at hf
  rcases hf with rfl | rfl | rfl | rfl | rfl | rfl
  · exact .inr (sum_field_eq_zero hus' fun n u hn hu => (h.built.of_gatherPhaseTwo hn hu).1)
  · exact .inr (sum_field_eq_zero hus' fun n u hn hu => (h.built.of_gatherPhaseTwo hn hu).2.1)
  · exact .inl (sum_field_eq_zero hus fun n u hn hu => hb.projected_of_gatherPhaseOne hn hu)
  · exact .inr (sum_field_eq_zero hus' fun n u hn hu => (h.built.of_gatherPhaseTwo hn hu).2.2)
  · exact .inl (sum_field_eq_zero hus fun n u hn hu => rfl)
  · exact .inl (sum_field_eq_zero hus fun n u hn hu => rfl)

/-- No count of an exchange exceeds a word if that counts all values. -/
theorem ExchangeResult.exists_merge {one two : ExchangeStats}
    {tiles tiles' : Vector (Option (Tile D S)) mesh.tree.size}
    (h : mesh.ExchangeResult limiter one two tiles tiles') (hb : mesh.Built)
    (hfit : mesh.ValuesFit) : ∃ stats, one.merge two = .ok stats := by
  obtain ⟨us, hus, hsum⟩ := h.sum_one
  obtain ⟨us', hus', hsum'⟩ := h.sum_two
  refine ExchangeStats.exists_merge fun field hf => ?_
  have h₁ := (gathersFrom_phaseOne hb).sum_lt hb hfit hus hf
  have h₂ := (gathersFrom_phaseTwo h.built limiter).sum_lt h.built hfit hus' hf
  rw [← hsum field hf] at h₁
  rw [← hsum' field hf] at h₂
  rcases h.eq_zero_or hb hf with hzero | hzero
  · rwa [hzero, Nat.zero_add]
  · rwa [hzero, Nat.add_zero]

section Exact

variable {mesh : Mesh D L ℚ} (ht : mesh.tree.Valid) (hb : mesh.Built)

section ValuesFit

variable (hfit : mesh.ValuesFit)

include ht hb hfit

theorem exists_phaseOne_of_valuesFit : ∃ r, mesh.phaseOne = .ok r :=
  (gathersFrom_phaseOne hb).exists_runPhase hb (atPlace_phaseOne hb) hfit fun _ hn _ hc =>
    exists_phaseOneAt ht hb hb.keptByMeans_size hn hc

theorem exists_phaseTwo_of_valuesFit (limiter : Limiter) : ∃ r, mesh.phaseTwo limiter = .ok r :=
  (gathersFrom_phaseTwo hb limiter).exists_runPhase hb (atPlace_phaseTwo hb limiter) hfit
    fun _ hn _ hc => exists_phaseTwoAt ht hb limiter hn hc

/-- An exchange of a mesh whose values a word counts is not refused. -/
theorem exists_exchange_of_valuesFit (limiter : Limiter) :
    ∃ r, mesh.exchange limiter = .ok r := by
  obtain ⟨⟨one, mid⟩, hone⟩ := exists_phaseOne_of_valuesFit ht hb hfit
  obtain ⟨tiles, rfl, hfirst, -⟩ :=
    phaseResult_of_runPhase hb (gathersFrom_phaseOne hb) (atPlace_phaseOne hb) hone
  have ht' : (mesh.withTiles tiles).tree.Valid := ht
  obtain ⟨⟨two, after⟩, htwo⟩ :=
    exists_phaseTwo_of_valuesFit ht' (hb.withTiles hfirst.frames) hfit limiter
  obtain ⟨_, _, hresult, -, -⟩ := exists_exchangeResult hb hone htwo
  obtain ⟨stats, hmerge⟩ := hresult.exists_merge hb hfit
  exact ⟨_, exchange_eq_ok_iff.2 ⟨one, _, two, hone, htwo, hmerge⟩⟩

end ValuesFit

variable (haddr : mesh.Addressable)

include ht hb haddr

theorem exists_phaseOne : ∃ r, mesh.phaseOne = .ok r :=
  exists_phaseOne_of_valuesFit ht hb haddr.valuesFit

theorem exists_phaseTwo (limiter : Limiter) : ∃ r, mesh.phaseTwo limiter = .ok r :=
  exists_phaseTwo_of_valuesFit ht hb haddr.valuesFit limiter

/-- An exchange of a mesh whose values fit in memory is not refused. -/
theorem exists_exchange (limiter : Limiter) : ∃ r, mesh.exchange limiter = .ok r :=
  exists_exchange_of_valuesFit ht hb haddr.valuesFit limiter

end Exact

end Mesh

end AdaptiveMesh
