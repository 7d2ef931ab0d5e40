import AdaptiveMesh.Config.Basic
import AdaptiveMesh.Proofs.Except
import AdaptiveMesh.Proofs.Location.Laws

/-!
# The cells of a level

In exact arithmetic the cells of all tiles of a level lie on one grid that starts at the lowest
corner of the root. `gridIndex` counts the cells of a level up to a point and `gridPoint` is the
centre of a cell; the cell of a coarser level comes from that of a finer one by division.
-/

namespace AdaptiveMesh

open LocationCode

variable {D : Nat}

namespace Point

theorem along_mapAxes {S : Type} [Dimension D] (f : Fin D → S → S) (x : Point S) (d : Fin D) :
    (mapAxes D f x).along d = f d (x.along d) := by
  simp [along, mapAxes]

theorem mapAxes_mapAxes {S : Type} (f g : Fin D → S → S) (x : Point S) :
    mapAxes D f (mapAxes D g x) = mapAxes D (fun d a => f d (g d a)) x := by
  ext i hi
  simp only [mapAxes, Vector.get_eq_getElem, Vector.getElem_ofFn]
  split <;> simp

theorem mapAxes_congr {S : Type} [Dimension D] {f g : Fin D → S → S} {x : Point S}
    (h : ∀ d, f d (x.along d) = g d (x.along d)) : mapAxes D f x = mapAxes D g x := by
  ext i hi
  simp only [mapAxes, Vector.get_eq_getElem, Vector.getElem_ofFn]
  split
  · next hd => exact h ⟨i, hd⟩
  · rfl

end Point

namespace Box

theorem along_lower [Dimension D] (b : Box D ℚ) (d : Fin D) :
    b.lower.along d = b.centroid.along d - 1 / 2 * b.length :=
  Point.along_mapAxes _ _ _

theorem along_upper [Dimension D] (b : Box D ℚ) (d : Fin D) :
    b.upper.along d = b.lower.along d + b.length := by
  have hupper : b.upper.along d = b.centroid.along d + 1 / 2 * b.length :=
    Point.along_mapAxes _ _ _
  rw [hupper, along_lower]
  ring

end Box

namespace MeshConfig

variable {S : Type} [Scalar S] {config : MeshConfig S}

theorem of_validate (h : config.validate = .ok ()) :
    (config.internalCells ≠ 0 ∧ config.internalCells % 2 = 0) ∧
    (config.haloLayers ≠ 0 ∧ config.haloLayers ≤ config.internalCells) ∧
    config.variableCount ≠ 0 ∧ Scalar.isFinite config.rootLength = true ∧
    Scalar.le config.rootLength (Scalar.ofNat 0) = false := by
  unfold validate at h
  split at h
  · contradiction
  · next h₁ =>
    split at h
    · contradiction
    · next h₂ =>
      split at h
      · contradiction
      · next h₃ =>
        split at h
        · contradiction
        · next h₄ => exact ⟨by omega, by omega, h₃, by simpa using h₄⟩

end MeshConfig

/-! ## Exact arithmetic -/

namespace MeshConfig

variable (config : MeshConfig ℚ)

/-- Edge length of the cells of a level. -/
def spacing (l : Nat) : ℚ := config.rootLength / (2 ^ l * config.internalCells)

/-- The number of the cell of a level in which a point lies, along an axis. -/
def gridIndex [Dimension D] (l : Nat) (p : Point ℚ) (d : Fin D) : ℤ :=
  ⌊(p.along d - config.origin.along d) / config.spacing l⌋

/-- The centre of the cell of a level with given numbers. -/
def gridPoint (l : Nat) (g : Fin D → ℤ) : Point ℚ :=
  config.origin.mapAxes D fun d o => o + (g d + 1 / 2) * config.spacing l

theorem spacing_add (l k : Nat) : config.spacing l = config.spacing (l + k) * 2 ^ k := by
  unfold spacing
  rw [pow_add]
  field_simp

/-- The cell of a coarser level around a cell. -/
theorem gridIndex_of_add [Dimension D] (l k : Nat) (p : Point ℚ) (d : Fin D) :
    config.gridIndex l p d = config.gridIndex (l + k) p d / 2 ^ k := by
  unfold gridIndex
  rw [config.spacing_add l k, ← div_div]
  have := Int.floor_div_natCast ((p.along d - config.origin.along d) / config.spacing (l + k)) (2 ^ k)
  push_cast at this
  exact this

variable {config}

theorem spacing_pos (hr : 0 < config.rootLength) (hn : 0 < config.internalCells) (l : Nat) :
    0 < config.spacing l := by
  unfold spacing
  positivity

theorem gridIndex_gridPoint [Dimension D] {l : Nat} (hs : 0 < config.spacing l) (g : Fin D → ℤ)
    (d : Fin D) : config.gridIndex l (config.gridPoint l g) d = g d := by
  unfold gridIndex gridPoint
  rw [Point.along_mapAxes, add_sub_cancel_left, mul_div_assoc, div_self hs.ne', mul_one,
    Int.floor_eq_iff]
  constructor <;> linarith

/-! ## Boxes of nodes -/

theorem rootLength_pos (h : config.validate = .ok ()) : 0 < config.rootLength := by
  obtain ⟨-, -, -, -, hr⟩ := of_validate h
  exact not_le.1 (of_decide_eq_false hr)

variable {L : Type} [LocationCode D L] [LawfulLocation L]

theorem unitLength_eq_ok {l : Nat} (hl : l < Word.width) :
    unitLength l = .ok ((1 : ℚ) / (2 ^ l : Nat)) := by
  unfold unitLength
  rw [Word.twoPow_of_lt hl]
  rfl

theorem nodeLength_eq_ok {l : Nat} (hl : l < Word.width) :
    config.nodeLength l = .ok (config.rootLength / 2 ^ l) := by
  unfold nodeLength
  rw [unitLength_eq_ok hl, ok_bind]
  refine congrArg Except.ok ?_
  push_cast
  exact mul_one_div _ _

/-- The box of the node of a level with given places. -/
def gridBox (config : MeshConfig ℚ) (l : Nat) (p : Fin D → Nat) : Box D ℚ where
  centroid := config.origin.mapAxes D fun d o => o + (p d + 1 / 2) * (config.rootLength / 2 ^ l)
  length := config.rootLength / 2 ^ l

theorem lower_gridBox (l : Nat) (p : Fin D → Nat) : (config.gridBox l p).lower =
    config.origin.mapAxes D fun d o => o + p d * (config.rootLength / 2 ^ l) := by
  unfold Box.lower gridBox
  rw [Point.mapAxes_mapAxes]
  congr 1
  funext d o
  change o + (p d + 1 / 2) * _ - 1 / 2 * _ = _
  ring

theorem nodeBox_eq_ok (hr : 0 ≤ config.rootLength) (x : L) :
    config.nodeBox x = .ok (config.gridBox (level x) (place x)) := by
  have hpos : 0 ≤ config.rootLength / 2 ^ level x := by positivity
  unfold nodeBox nodeLower
  rw [nodeLength_eq_ok (level_lt_width x)]
  refine (if_pos (decide_eq_true hpos)).trans ?_
  rw [Point.mapAxes_mapAxes, gridBox]
  congr 3
  funext d o
  change o + place x d * _ + 1 / 2 * _ = _
  ring

/-- The box of a node: its edge is that of the cells times their number along it, and so is the
distance of its lowest corner from the root's. -/
theorem exists_nodeBox (h : config.validate = .ok ()) (x : L) : ∃ box : Box D ℚ,
    config.nodeBox x = .ok box ∧
    box.length = config.spacing (level x) * config.internalCells ∧
    box.lower = config.origin.mapAxes D fun d o =>
      o + place x d * config.internalCells * config.spacing (level x) := by
  have hn : (config.internalCells : ℚ) ≠ 0 := Nat.cast_ne_zero.2 (of_validate h).1.1
  have hlength : config.rootLength / 2 ^ level x =
      config.spacing (level x) * config.internalCells := by
    unfold spacing
    field_simp
  refine ⟨_, nodeBox_eq_ok (rootLength_pos h).le x, hlength, ?_⟩
  rw [lower_gridBox, hlength]
  congr 1
  funext d o
  ring

/-! ## Points in boxes of nodes -/

variable [Dimension D]

/-- The point lies in the box of a node, whose upper faces do not belong to it. -/
def LiesIn (config : MeshConfig ℚ) (p : Point ℚ) (x : L) : Prop :=
  ∀ d, config.gridIndex (level x) p d / config.internalCells = place x d

instance (config : MeshConfig ℚ) (p : Point ℚ) (x : L) : Decidable (config.LiesIn p x) :=
  inferInstanceAs (Decidable (∀ d, config.gridIndex (level x) p d / config.internalCells = place x d))

omit [LawfulLocation L] in
/-- The box of a node on the grid of the cells of a finer level. -/
theorem liesIn_iff_of_add {p : Point ℚ} {x : L} (k : Nat) : config.LiesIn p x ↔
    ∀ d, config.gridIndex (level x + k) p d / config.internalCells / 2 ^ k = place x d := by
  refine forall_congr' fun d => ?_
  rw [config.gridIndex_of_add (level x) k, Int.ediv_ediv_of_nonneg (by positivity),
    Int.ediv_ediv_of_nonneg (by positivity), Int.mul_comm]

omit [LawfulLocation L] in
theorem LiesIn.of_covers {p : Point ℚ} {x y : L} (h : config.LiesIn p y) (hc : Covers x y) :
    config.LiesIn p x := by
  obtain ⟨hl, hp⟩ := hc
  obtain ⟨k, hk⟩ : ∃ k, level y = level x + k := ⟨_, (Nat.add_sub_of_le hl).symm⟩
  rw [liesIn_iff_of_add k]
  intro d
  have := h d
  rw [hk] at this
  rw [this, hp, hk, Nat.add_sub_cancel_left]
  push_cast
  rfl

omit [LawfulLocation L] in
theorem LiesIn.covers {p : Point ℚ} {x y : L} (hx : config.LiesIn p x) (hy : config.LiesIn p y)
    (hl : level x ≤ level y) : Covers x y := by
  obtain ⟨k, hk⟩ : ∃ k, level y = level x + k := ⟨_, (Nat.add_sub_of_le hl).symm⟩
  refine ⟨hl, fun d => ?_⟩
  have h₁ := (liesIn_iff_of_add k).1 hx d
  have h₂ := hy d
  rw [hk] at h₂
  rw [h₂] at h₁
  rw [hk, Nat.add_sub_cancel_left]
  exact_mod_cast h₁.symm

/-- The point lies in the root. -/
def InDomain (D : Nat) [Dimension D] (config : MeshConfig ℚ) (p : Point ℚ) : Prop :=
  ∀ d : Fin D, config.gridIndex 0 p d / config.internalCells = 0

theorem inDomain_iff_liesIn_root {p : Point ℚ} :
    config.InDomain D p ↔ config.LiesIn p (root : L) := by
  unfold InDomain LiesIn
  rw [level_root]
  simp only [place_root, Nat.cast_zero]

/-- Whether a point lies in the root is seen on the cells of any level. -/
theorem inDomain_iff (hn : 0 < config.internalCells) (l : Nat) {p : Point ℚ} :
    config.InDomain D p ↔ ∀ d : Fin D, 0 ≤ config.gridIndex l p d ∧
      config.gridIndex l p d < config.internalCells * 2 ^ l := by
  refine forall_congr' fun d => ?_
  have hpos : (0 : ℤ) < 2 ^ l * config.internalCells := by positivity
  rw [config.gridIndex_of_add 0 l, Nat.zero_add, Int.ediv_ediv_of_nonneg (by positivity),
    Int.ediv_eq_iff_of_pos hpos, zero_mul, zero_add, mul_comm (2 ^ l : ℤ)]

/-- A point of the root lies in the box of a location of each level. -/
theorem InDomain.exists_liesIn (hn : 0 < config.internalCells) {p : Point ℚ}
    (h : config.InDomain D p) {l : Nat} (hl : l ≤ maxLevel L) :
    ∃ x : L, level x = l ∧ config.LiesIn p x := by
  have hn' : (0 : ℤ) < config.internalCells := by exact_mod_cast hn
  have hnonneg (d : Fin D) : 0 ≤ config.gridIndex l p d / config.internalCells :=
    Int.ediv_nonneg ((inDomain_iff hn l).1 h d).1 hn'.le
  obtain ⟨x, hxl, hxp⟩ := exists_location (L := L) hl
    (fun d : Fin D => (config.gridIndex l p d / config.internalCells).toNat) fun d => by
      have := Int.ediv_lt_of_lt_mul hn' ((mul_comm _ _).trans_gt ((inDomain_iff hn l).1 h d).2)
      have := hnonneg d
      zify
      rw [Int.toNat_of_nonneg this]
      assumption
  refine ⟨x, hxl, fun d => ?_⟩
  rw [hxl, hxp, Int.toNat_of_nonneg (hnonneg d)]

theorem LiesIn.inDomain {p : Point ℚ} {x : L} (h : config.LiesIn p x) : config.InDomain D p := by
  rw [inDomain_iff_liesIn_root (L := L)]
  refine h.of_covers ?_
  rw [← eq_root_iff.2 (level_above (Nat.zero_le (level x)))]
  exact covers_above (Nat.zero_le _)

end MeshConfig

end AdaptiveMesh
