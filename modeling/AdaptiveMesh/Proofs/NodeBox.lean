import AdaptiveMesh.Proofs.Grid
import AdaptiveMesh.Proofs.Location.Codec
import AdaptiveMesh.Proofs.Location.Touch

/-!
# Boxes of nodes

The box of a node is found from its level and coordinates, or from the root by cutting out one child
after the other along the path. In exact arithmetic a child of a box of the grid is the box of the
grid with its sides behind the places (`child_gridBox`), so both ways lead to the same box. Two such
boxes overlap exactly if the closed boxes of their coordinates do.
-/

namespace AdaptiveMesh

open LocationCode ChildPosition

variable {D : Nat}

namespace Box

/-- The box reached from a box along a path, going from box to child. -/
def followPath {S : Type} [Scalar S] (box : Box D S) (path : List (ChildPosition D)) :
    Except Fault (Box D S) :=
  path.foldlM (fun box p => box.child p) box

theorem followPath_concat {S : Type} [Scalar S] (box : Box D S) (path : List (ChildPosition D))
    (p : ChildPosition D) :
    box.followPath (path ++ [p]) = box.followPath path >>= fun box => box.child p := by
  unfold followPath
  rw [List.foldlM_append]
  exact bind_congr fun box => bind_pure _

theorem overlaps_iff [Dimension D] {a b : Box D ℚ} : a.overlaps b = true ↔
    ∀ d : Fin D, a.lower.along d ≤ b.upper.along d ∧ b.lower.along d ≤ a.upper.along d := by
  rw [overlaps, List.all_eq_true]
  simp only [List.mem_finRange, forall_true_left, Bool.and_eq_true]
  exact forall_congr' fun d => and_congr decide_eq_true_iff decide_eq_true_iff

end Box

namespace MeshConfig

variable {config : MeshConfig ℚ}

/-! ## Paths -/

/-- A child of a box of the grid lies twice as far from the origin, in boxes of its own level, and
one more on the positive side. -/
theorem child_gridBox (hr : 0 ≤ config.rootLength) (l : Nat) (q : Fin D → Nat)
    (p : ChildPosition D) : (config.gridBox l q).child p =
      .ok (config.gridBox (l + 1) fun d => 2 * q d + (p.isPositive d).toNat) := by
  have hlength : config.rootLength / 2 ^ l / 2 = config.rootLength / 2 ^ (l + 1) := by
    rw [pow_succ, div_div]
  have hpos : 0 ≤ config.rootLength / 2 ^ l / 2 := by positivity
  refine (if_pos (decide_eq_true hpos)).trans ?_
  simp only [Box.childCentroid, gridBox, Point.mapAxes_mapAxes, ← hlength]
  congr 3
  funext d o
  change (if p.isPositive d then o + _ + _ / 4 else o + _ - _ / 4) = _
  cases p.isPositive d
  · rw [if_neg Bool.false_ne_true, Bool.toNat_false]
    push_cast
    ring
  · rw [if_pos rfl, Bool.toNat_true]
    push_cast
    ring

/-- Following a path from the root counts its sides along each axis. -/
theorem followPath_gridBox (hr : 0 ≤ config.rootLength) (path : List (ChildPosition D)) :
    (config.gridBox 0 fun _ => 0).followPath path =
      .ok (config.gridBox path.length (sidesAlong path)) := by
  induction path using List.reverseRecOn with
  | nil => rfl
  | append_singleton path p ih =>
    rw [Box.followPath_concat, ih, ok_bind, child_gridBox hr, List.length_append,
      List.length_singleton]
    simp only [← sidesAlong_concat]

/-! ## Overlaps -/

theorem mul_edge_le_iff (hr : 0 < config.rootLength) (a b l m : Nat) :
    (a : ℚ) * (config.rootLength / 2 ^ l) ≤ b * (config.rootLength / 2 ^ m) ↔
      a * 2 ^ m ≤ b * 2 ^ l := by
  have hl : (0 : ℚ) < 2 ^ l := by positivity
  have hm : (0 : ℚ) < 2 ^ m := by positivity
  rw [← mul_div_assoc, ← mul_div_assoc, div_le_div_iff₀ hl hm, mul_right_comm,
    mul_right_comm (b : ℚ), mul_le_mul_iff_left₀ hr]
  exact_mod_cast Iff.rfl

theorem overlaps_gridBox_iff [Dimension D] (hr : 0 < config.rootLength) {l m : Nat}
    {p q : Fin D → Nat} : (config.gridBox l p).overlaps (config.gridBox m q) = true ↔
      ∀ d, p d * 2 ^ m ≤ (q d + 1) * 2 ^ l ∧ q d * 2 ^ l ≤ (p d + 1) * 2 ^ m := by
  have hlower (l : Nat) (p : Fin D → Nat) (d : Fin D) : (config.gridBox l p).lower.along d =
      config.origin.along d + p d * (config.rootLength / 2 ^ l) := by
    rw [lower_gridBox, Point.along_mapAxes]
  have hupper (l : Nat) (p : Fin D → Nat) (d : Fin D) : (config.gridBox l p).upper.along d =
      config.origin.along d + (p d + 1 : Nat) * (config.rootLength / 2 ^ l) := by
    rw [Box.along_upper, hlower]
    change _ + config.rootLength / 2 ^ l = _
    push_cast
    ring
  rw [Box.overlaps_iff]
  simp only [hlower, hupper, add_le_add_iff_left, mul_edge_le_iff hr]

/-- The box of a node is what its path leads to from the box of the root: as many times shorter as
the path has levels, and as far from the origin as its sides count. Two nodes have boxes that
overlap exactly if their closed boxes on the grid of a finer level have a point in common. -/
theorem nodeBox_follows_path [Dimension D] (hr : 0 < config.rootLength) :
    (∀ path : List (ChildPosition D), path.length < Word.width → ∃ top box : Box D ℚ,
      top.followPath path = .ok box ∧ config.nodeLength path.length = .ok box.length ∧
      (∀ d, box.centroid.along d =
        config.origin.along d + (sidesAlong path d + 1 / 2) * box.length) ∧
      ∀ (L : Type) [LocationCode D L] [LawfulLocation L], config.nodeBox (root : L) = .ok top ∧
        ∀ x : L, ofPath path = .ok x → config.nodeBox x = .ok box) ∧
    ∀ (L : Type) [LocationCode D L] [LawfulLocation L] (x y : L), ∃ a b : Box D ℚ,
      config.nodeBox x = .ok a ∧ config.nodeBox y = .ok b ∧
        ∀ finest, level x ≤ finest → level y ≤ finest →
          (a.overlaps b = true ↔ Touches finest x y) := by
  constructor
  · intro path hpath
    refine ⟨config.gridBox 0 fun _ => 0, _, followPath_gridBox hr.le path, nodeLength_eq_ok hpath,
      fun d => Point.along_mapAxes _ _ _, fun L _ _ => ⟨?_, fun x hx => ?_⟩⟩
    · rw [nodeBox_eq_ok hr.le, level_root]
      simp only [show place (root : L) = fun _ => 0 from funext place_root]
    · obtain rfl := ofPath_eq_ok_iff.1 hx
      rw [nodeBox_eq_ok hr.le, length_path]
      simp only [show place x = sidesAlong (path x) from funext (place_eq_sidesAlong x)]
  · intro L _ _ x y
    refine ⟨_, _, nodeBox_eq_ok hr.le x, nodeBox_eq_ok hr.le y, fun finest hx hy => ?_⟩
    rw [overlaps_gridBox_iff hr, touches_iff_adjoins hx hy]
    rfl

/-- Under a root of length 3 two nodes of different levels meet in its centre alone. -/
theorem nodeBox_follows_path_corner : ∃ config : MeshConfig ℚ, 0 < config.rootLength ∧
    config.rootLength = 3 ∧ ∃ (x y : MortonLocation 2 64) (top box other : Box 2 ℚ),
      ofPath [⟨0, by decide⟩, ⟨3, by decide⟩] = .ok x ∧ ofPath [⟨3, by decide⟩] = .ok y ∧
      config.nodeBox (root : MortonLocation 2 64) = .ok top ∧
      top.followPath [⟨0, by decide⟩, ⟨3, by decide⟩] = .ok box ∧ config.nodeBox x = .ok box ∧
      config.nodeBox y = .ok other ∧ box.overlaps other = true ∧ Touches 2 x y := by
  let config : MeshConfig ℚ := ⟨#v[1, -2, 5], 3, 0, 0, 0⟩
  have hr : 0 < config.rootLength := by decide +kernel
  obtain ⟨x, hx⟩ := exists_path_eq (L := MortonLocation 2 64)
    (p := [⟨0, by decide⟩, ⟨3, by decide⟩]) (by decide)
  obtain ⟨y, hy⟩ := exists_path_eq (L := MortonLocation 2 64) (p := [⟨3, by decide⟩]) (by decide)
  have hlx : level x = 2 := by rw [← length_path, hx]; rfl
  have hly : level y = 1 := by rw [← length_path, hy]; rfl
  have htouches : Touches 2 x y := by
    refine (touches_iff_adjoins hlx.le (hly.le.trans (by decide))).2 fun d => ?_
    rw [hlx, hly, place_eq_sidesAlong, place_eq_sidesAlong, hx, hy]
    revert d
    decide +kernel
  obtain ⟨hpaths, hoverlaps⟩ := nodeBox_follows_path (D := 2) hr
  obtain ⟨top, box, hbox, -, -, hforms⟩ := hpaths [⟨0, by decide⟩, ⟨3, by decide⟩] (by decide)
  obtain ⟨htop, hnode⟩ := hforms (MortonLocation 2 64)
  obtain ⟨a, b, ha, hb, hiff⟩ := hoverlaps _ x y
  have hpath := ofPath_eq_ok_iff.2 hx
  obtain rfl := Except.ok.inj (ha.symm.trans (hnode x hpath))
  exact ⟨config, hr, rfl, x, y, top, a, b, hpath, ofPath_eq_ok_iff.2 hy, htop, hbox, ha, hb,
    (hiff 2 hlx.le (hly.le.trans (by decide))).2 htouches, htouches⟩

end MeshConfig

end AdaptiveMesh
