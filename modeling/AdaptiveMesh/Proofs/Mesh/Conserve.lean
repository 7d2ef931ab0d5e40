import AdaptiveMesh.Proofs.Mesh.Affine
import AdaptiveMesh.Proofs.Mesh.Project

/-!
# Projection is conservative

Whatever a limiter makes of the slopes, what a projection from a cell finds is affine in the point,
and at the cell's centre it is the state of the cell. The centres of the equal parts of the cell lie
evenly around that centre, so the mean over them is the state again: over all parts at once, or as
restriction takes it, half by half.

```
  ┌─────┬─────┐        ┌──┬──┬──┬──┐
  │  ·  │  ·  │        ├──┼──┼──┼──┤
  ├─────x─────┤  -->   ├──┼──x──┼──┤
  │  ·  │  ·  │        ├──┼──┼──┼──┤
  └─────┴─────┘        └──┴──┴──┴──┘
```
-/

namespace AdaptiveMesh

variable {D k : Nat} [Dimension D]

/-! ## Planes -/

/-- At each point there are values for a number of variables, each affine in the point. -/
structure IsPlane (D : Nat) [Dimension D] (k : Nat) (values : Point ℚ → Array ℚ) : Prop where
  size (p : Point ℚ) : (values p).size = k
  affine (v : Nat) : v < k → IsAffineAlong D fun p => (values p).getD v 0

theorem isAffineAlong_plane (a length : ℚ) (slope centre : Fin D → ℚ) :
    IsAffineAlong D fun p => a + ∑ d, slope d * ((p.along d - centre d) / length) := by
  refine ⟨fun d => slope d / length, fun p g => ?_⟩
  rw [add_assoc, ← Finset.sum_add_distrib]
  refine congrArg (a + ·) (Finset.sum_congr rfl fun d _ => ?_)
  rw [Point.along_mapAxes]
  ring

theorem ofFn_getD {values : Array ℚ} (h : values.size = k) :
    (Array.ofFn fun v : Fin k => values.getD v 0) = values := by
  refine Array.ext (by rw [Array.size_ofFn, h]) fun v _ hv => ?_
  rw [Array.getElem_ofFn, Array.getD_eq_getD_getElem?, Array.getElem?_eq_getElem hv,
    Option.getD_some]

omit [Dimension D] in
/-- At the centre the slopes make no difference. -/
theorem plane_zero {limiter : Limiter} {center : Array ℚ} {lower upper : Fin D → Array ℚ}
    (hcenter : center.size = k) (hlower : ∀ d, (lower d).size = k)
    (hupper : ∀ d, (upper d).size = k) :
    plane limiter center lower upper (fun _ => 0) = center := by
  rw [← ofFn_getD (size_plane hcenter hlower hupper)]
  refine (congrArg Array.ofFn (funext fun v => ?_)).trans (ofFn_getD hcenter)
  rw [getD_plane v.isLt hcenter hlower hupper]
  simp only [mul_zero, Finset.sum_const_zero, add_zero]

namespace IsPlane

variable {values : Point ℚ → Array ℚ}

/-- The mean over points around a centre is taken at the centre. -/
theorem mean_moved (h : IsPlane D k values) {ι : Type} [Fintype ι] [Nonempty ι]
    {way : ι → Fin D → ℚ} (hway : ∀ d, ∑ i, way i d = 0) (p : Point ℚ) :
    (Array.ofFn fun v : Fin k =>
      (∑ i, (values (p.mapAxes D fun d x => x + way i d)).getD v 0) / Fintype.card ι) =
        values p := by
  have hcard : (Fintype.card ι : ℚ) ≠ 0 := Nat.cast_ne_zero.2 Fintype.card_ne_zero
  rw [← ofFn_getD (h.size p)]
  refine congrArg Array.ofFn (funext fun v => ?_)
  rw [(h.affine v v.isLt).sum_moved hway, mul_div_cancel_left₀ _ hcard]

/-- The mean over the parts of a box is taken at its centre. -/
theorem cutMean_eq (h : IsPlane D k values) :
    cutMean D k (fun p _ => .ok (some (values p))) = fun p _ => .ok (some (values p)) := by
  funext p length
  unfold cutMean
  rw [meanOfParts_eq_some fun part => ⟨rfl, h.size _⟩, ← ofFn_getD (h.size p)]
  refine congrArg (Except.ok ∘ some ∘ Array.ofFn) (funext fun v => ?_)
  refine (congrArg (· / 2 ^ D) ((h.affine v v.isLt).sum_parts _ p)).trans ?_
  exact mul_div_cancel_left₀ _ (by positivity)

theorem iterate_cutMean_eq (h : IsPlane D k values) (n : Nat) :
    (cutMean D k)^[n] (fun p _ => .ok (some (values p))) = fun p _ => .ok (some (values p)) :=
  Function.iterate_fixed h.cutMean_eq n

end IsPlane

/-! ## Parts of a box -/

/-- The centre of a part of a box that is divided into `2 ^ n` along each axis. -/
def partCentre (n : Nat) (centre : Point ℚ) (length : ℚ) (j : Fin D → Fin (2 ^ n)) : Point ℚ :=
  centre.mapAxes D fun d x => x - length / 2 + (j d + 1 / 2) * (length / 2 ^ n)

omit [Dimension D] in
/-- Each part has one opposite to it. -/
theorem sum_way_partCentre (n : Nat) (length : ℚ) (d : Fin D) :
    ∑ j : Fin D → Fin (2 ^ n), ((j d + 1 / 2) * (length / 2 ^ n) - length / 2) = 0 := by
  have hopposite (i : Fin (2 ^ n)) : ((i.rev : ℚ) + 1 / 2) * (length / 2 ^ n) - length / 2 =
      -((i + 1 / 2) * (length / 2 ^ n) - length / 2) := by
    have hrev : (i.rev : ℚ) = 2 ^ n - (i + 1) := by
      rw [Fin.val_rev, Nat.cast_sub i.isLt]
      push_cast
      ring
    rw [hrev]
    field_simp
    ring
  have hsum := Fintype.sum_equiv (Equiv.piCongrRight fun _ : Fin D => Fin.revPerm)
    (fun j : Fin D → Fin (2 ^ n) => -(((j d : ℚ) + 1 / 2) * (length / 2 ^ n) - length / 2))
    (fun j => ((j d : ℚ) + 1 / 2) * (length / 2 ^ n) - length / 2) fun j => (hopposite (j d)).symm
  rw [Finset.sum_neg_distrib] at hsum
  exact self_eq_neg.1 hsum.symm

/-- The mean over all parts of a box is taken at its centre. -/
theorem IsPlane.mean_partCentre {values : Point ℚ → Array ℚ} (h : IsPlane D k values) (n : Nat)
    (centre : Point ℚ) (length : ℚ) : (Array.ofFn fun v : Fin k =>
      (∑ j : Fin D → Fin (2 ^ n), (values (partCentre n centre length j)).getD v 0) /
        2 ^ (n * D)) = values centre := by
  have hmove (j : Fin D → Fin (2 ^ n)) : partCentre n centre length j =
      centre.mapAxes D fun d x => x + ((j d + 1 / 2) * (length / 2 ^ n) - length / 2) := by
    refine Point.mapAxes_congr fun d => ?_
    ring
  have hcard : (Fintype.card (Fin D → Fin (2 ^ n)) : ℚ) = 2 ^ (n * D) := by
    rw [Fintype.card_fun, Fintype.card_fin, Fintype.card_fin, ← pow_mul, Nat.cast_pow,
      Nat.cast_ofNat]
  simp only [hmove, ← hcard]
  exact h.mean_moved (sum_way_partCentre n length) centre

/-! ## Projections -/

variable {tile : Tile D ℚ} {s : Cell D}

/-- The projection from an internal cell is a plane through the state of the cell. -/
theorem Tile.HasRoom.exists_isPlane (h : tile.HasRoom) (hs : tile.layout.Inside s)
    (limiter : Limiter) : ∃ (state : Array ℚ) (centroid : Point ℚ) (values : Point ℚ → Array ℚ),
      tile.get s = .ok state ∧ tile.cellCentroid s = .ok centroid ∧
      (∀ p, Mesh.project tile s p limiter = .ok (values p)) ∧
      IsPlane D tile.state.variableCount values ∧ values centroid = state := by
  obtain ⟨state, hstate, hsize⟩ := h.exists_get hs.contains
  obtain ⟨lower, upper, hlower, hupper, hlowersize, huppersize⟩ := h.exists_around hs
  have hcentroid := h.cellCentroid_eq hs.contains
  refine ⟨state, _, _, hstate, hcentroid,
    fun p => h.project_eq hs hcentroid hstate hlower hupper, ⟨fun p => ?_, fun v hv => ?_⟩, ?_⟩
  · exact size_plane hsize hlowersize huppersize
  · simp only [getD_plane hv hsize hlowersize huppersize]
    exact isAffineAlong_plane _ _ _ _
  · refine .trans (congrArg (plane limiter state lower upper) (funext fun d => ?_))
      (plane_zero hsize hlowersize huppersize)
    exact (congrArg (· / tile.cellLength) (sub_self _)).trans (zero_div _)

namespace Mesh

/-- Projection from an internal cell of any tile is conservative: over the centres of the parts into
which the cell divides, `2 ^ n` along each axis, the mean is the state of the cell, taken over all
parts at once or by cutting the cell into halves `n` times as restriction does. -/
theorem project_conserves (htile : tile.Made) (hs : tile.layout.Inside s) (limiter : Limiter) :
    ∃ state centroid, tile.get s = .ok state ∧ tile.cellCentroid s = .ok centroid ∧ ∀ n,
      (∃ parts : (Fin D → Fin (2 ^ n)) → Array ℚ,
        (∀ j, project tile s (partCentre n centroid tile.cellLength j) limiter = .ok (parts j) ∧
          (parts j).size = tile.state.variableCount) ∧
        (Array.ofFn fun v : Fin tile.state.variableCount =>
          (∑ j, (parts j).getD v 0) / 2 ^ (n * D)) = state) ∧
      (cutMean D tile.state.variableCount)^[n] (fun p _ => some <$> project tile s p limiter)
        centroid tile.cellLength = .ok (some state) := by
  obtain ⟨state, centroid, values, hstate, hcentroid, hproject, hplane, hcentre⟩ :=
    htile.hasRoom.exists_isPlane hs limiter
  refine ⟨state, centroid, hstate, hcentroid, fun n =>
    ⟨⟨fun j => values (partCentre n centroid tile.cellLength j),
      fun j => ⟨hproject _, hplane.size _⟩, ?_⟩, ?_⟩⟩
  · rw [hplane.mean_partCentre, hcentre]
  · have hread : (fun (p : Point ℚ) (_ : ℚ) => some <$> project tile s p limiter) =
        fun p _ => .ok (some (values p)) := by
      funext p _
      rw [hproject p]
      rfl
    rw [hread, hplane.iterate_cutMean_eq, ← hcentre]

/-- All cells hold squares, so the limited slopes are not zero. -/
theorem project_conserves_squares : ∃ tile : Tile 2 ℚ,
    tile.Made ∧ tile.layout.Inside #v[1, 2] ∧ tile.get #v[1, 2] = .ok #[81] ∧
      project tile #v[1, 2] #v[3 / 4, 3 / 2, 0] .minmod = .ok #[81 + 17 / 4] ∧
      ∀ n, (∃ parts : (Fin 2 → Fin (2 ^ n)) → Array ℚ,
        (∀ j, project tile #v[1, 2] (partCentre n #v[1 / 2, 3 / 2, 0] 1 j) .minmod =
          .ok (parts j)) ∧ (∑ j, (parts j).getD 0 0) / 2 ^ (n * 2) = 81) ∧
        (cutMean 2 1)^[n] (fun p _ => some <$> project tile #v[1, 2] p .minmod)
          #v[1 / 2, 3 / 2, 0] 1 = .ok (some #[81]) := by
  let tile : Tile 2 ℚ := {
    node := 0
    level := 0
    box := ⟨#v[1, 1, 0], 2⟩
    layout := ⟨2, 1, by decide, by decide⟩
    state := ⟨1, Array.ofFn fun i : Fin 16 => (i : ℚ) * i, by decide⟩ }
  have hmade : tile.Made := by with_unfolding_all rfl
  have hs : tile.layout.Inside #v[1, 2] := by
    unfold TileLayout.Inside
    decide
  have hget : tile.get #v[1, 2] = .ok #[81] := by decide +kernel
  have hcentre : tile.cellCentroid #v[1, 2] = .ok #v[1 / 2, 3 / 2, 0] := by decide +kernel
  have hlength : tile.cellLength = 1 := by decide +kernel
  obtain ⟨state, centroid, hstate, hcentroid, h⟩ := project_conserves hmade hs .minmod
  obtain rfl := Except.ok.inj (hstate.symm.trans hget)
  obtain rfl := Except.ok.inj (hcentroid.symm.trans hcentre)
  rw [hlength] at h
  refine ⟨tile, hmade, hs, hget, by decide +kernel, fun n => ?_⟩
  obtain ⟨⟨parts, hparts, hmean⟩, hcut⟩ := h n
  have hmean : (Array.ofFn fun v : Fin 1 => (∑ j, (parts j).getD v 0) / 2 ^ (n * 2)) = #[81] :=
    hmean
  exact ⟨⟨parts, fun j => (hparts j).1, by simpa using congrArg (·.getD 0 0) hmean⟩, hcut⟩

end Mesh

end AdaptiveMesh
