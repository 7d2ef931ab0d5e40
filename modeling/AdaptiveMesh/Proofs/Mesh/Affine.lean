import AdaptiveMesh.Proofs.Mesh.Restrict

/-!
# Affine functions of the position

The mean of an affine function over points that lie evenly around a centre is its value at the
centre. The parts of a cell are such points, so a mean over parts is exact for affine functions.
-/

namespace AdaptiveMesh

variable {D : Nat}

/-- A constant plus a multiple of each component of the position. -/
def IsAffine (f : Point ℚ → ℚ) : Prop :=
  ∃ (a : ℚ) (b : Vector ℚ 3), ∀ p, f p = a + ∑ i, b.get i * p.get i

/-- A move along the axes adds a multiple of the way along each. -/
def IsAffineAlong (D : Nat) [Dimension D] (f : Point ℚ → ℚ) : Prop :=
  ∃ slope : Fin D → ℚ, ∀ (p : Point ℚ) (g : Fin D → ℚ → ℚ),
    f (p.mapAxes D g) = f p + ∑ d, slope d * (g d (p.along d) - p.along d)

theorem IsAffine.isAffineAlong [Dimension D] {f : Point ℚ → ℚ} (hf : IsAffine f) :
    IsAffineAlong D f := by
  obtain ⟨a, b, hf⟩ := hf
  refine ⟨fun d => b.get (d.castLE Dimension.le_three), fun p g => ?_⟩
  have hsum : ∑ d : Fin D, b.get (d.castLE Dimension.le_three) * (g d (p.along d) - p.along d) =
      ∑ i, b.get i * ((p.mapAxes D g).get i - p.get i) := by
    refine Fintype.sum_of_injective (Fin.castLE Dimension.le_three)
      (Fin.castLE_injective Dimension.le_three) _ _ (fun i hi => ?_) fun d => ?_
    · have hout : ¬ i.val < D := fun h => hi ⟨⟨i, h⟩, rfl⟩
      simp [Point.mapAxes, hout]
    · simp [Point.mapAxes, Point.along]
  rw [hsum, hf, hf]
  simp only [mul_sub, Finset.sum_sub_distrib]
  ring

/-- The values of an affine function at the centres of the cells of all levels. -/
theorem IsAffine.exists_gridPoint_eq [Dimension D] {f : Point ℚ → ℚ} (hf : IsAffine f)
    (config : MeshConfig ℚ) : ∃ slope : Fin D → ℚ, ∀ l g, f (config.gridPoint l g) =
      f config.origin + ∑ d, slope d * ((g d + 1 / 2) * config.spacing l) := by
  obtain ⟨slope, hslope⟩ := hf.isAffineAlong (D := D)
  refine ⟨slope, fun l g => ?_⟩
  unfold MeshConfig.gridPoint
  rw [hslope]
  simp only [add_sub_cancel_left]

/-! ## Points around a centre -/

/-- Over moves that cancel along each axis the values add up as if none were made. -/
theorem IsAffineAlong.sum_moved [Dimension D] {f : Point ℚ → ℚ} (hf : IsAffineAlong D f)
    {ι : Type} [Fintype ι] {way : ι → Fin D → ℚ} (hway : ∀ d, ∑ i, way i d = 0) (p : Point ℚ) :
    ∑ i, f (p.mapAxes D fun d x => x + way i d) = Fintype.card ι * f p := by
  obtain ⟨slope, hslope⟩ := hf
  have hcancel : ∑ i, ∑ d, slope d * way i d = 0 := by
    rw [Finset.sum_comm]
    refine Finset.sum_eq_zero fun d _ => ?_
    rw [← Finset.mul_sum, hway, mul_zero]
  simp only [hslope, add_sub_cancel_left, Finset.sum_add_distrib, hcancel, add_zero,
    Finset.sum_const, Finset.card_univ, nsmul_eq_mul]

namespace ChildPosition

/-- The child on the other side of an axis. -/
def flip (p : ChildPosition D) (d : Fin D) : ChildPosition D :=
  ofSides fun i => if i = d then !p.isPositive i else p.isPositive i

theorem isPositive_flip (p : ChildPosition D) (d i : Fin D) :
    (p.flip d).isPositive i = if i = d then !p.isPositive i else p.isPositive i :=
  isPositive_ofSides _ _

/-- Over all children the sides of an axis cancel. -/
theorem sum_side (d : Fin D) : ∑ p : ChildPosition D, (p.side d : ℚ) = 0 := by
  have hflip (p : ChildPosition D) : (p.flip d).side d = -p.side d := by
    unfold side
    rw [isPositive_flip, if_pos rfl]
    cases p.isPositive d <;> rfl
  refine Finset.sum_involution (fun p _ => p.flip d) (fun p _ => ?_) (fun p _ _ h => ?_)
    (fun p _ => Finset.mem_univ _) fun p _ => ?_
  · rw [hflip, Int.cast_neg, add_neg_cancel]
  · have := hflip p
    rw [h] at this
    unfold side at this
    split at this <;> omega
  · refine ext_isPositive fun i => ?_
    rw [isPositive_flip, isPositive_flip]
    split <;> simp

end ChildPosition

/-- The centres of the parts of a box lie evenly around the centre of the box. -/
theorem IsAffineAlong.sum_parts [Dimension D] {f : Point ℚ → ℚ} (hf : IsAffineAlong D f)
    (q : ℚ) (p : Point ℚ) : ∑ part : ChildPosition D, f (p.mapAxes D fun d x =>
      if part.isPositive d then x + q else x - q) = 2 ^ D * f p := by
  have hmove (part : ChildPosition D) : (p.mapAxes D fun d x =>
      if part.isPositive d then x + q else x - q) =
        p.mapAxes D fun d x => x + part.side d * q := by
    refine congrArg (p.mapAxes D ·) (funext₂ fun d x => ?_)
    rw [ChildPosition.side]
    cases part.isPositive d with
    | true => simp
    | false => simp [sub_eq_add_neg]
  have hway (d : Fin D) : ∑ part : ChildPosition D, (part.side d : ℚ) * q = 0 := by
    rw [← Finset.sum_mul, ChildPosition.sum_side, zero_mul]
  simp only [hmove]
  rw [hf.sum_moved hway, Fintype.card_fin, Nat.cast_pow, Nat.cast_ofNat]

/-- The mean of an affine function over the parts of a cell is its value at the cell's centre. -/
theorem IsAffine.sum_parts [Dimension D] {f : Point ℚ → ℚ} (hf : IsAffine f)
    (config : MeshConfig ℚ) (l : Nat) (g : Fin D → ℤ) :
    ∑ part : ChildPosition D, f (config.gridPoint (l + 1) (MeshConfig.partIndex g part)) =
      2 ^ D * f (config.gridPoint l g) := by
  simp only [← config.gridPoint_partIndex]
  exact hf.isAffineAlong.sum_parts _ _

end AdaptiveMesh
