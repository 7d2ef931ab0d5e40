import AdaptiveMesh.Proofs.Axis
import AdaptiveMesh.Proofs.Except
import AdaptiveMesh.Proofs.Word
import AdaptiveMesh.Tile.Cells

/-!
# Tile layouts that fit

Where a word counts the cells along an axis, a cell of the tile is told from one outside it, and
where it counts all cells, each has a place in storage. These places tell cells apart. Where signed
words count them, no question about a cell of the tile is refused.
-/

namespace AdaptiveMesh

namespace TileLayout

variable {D : Nat} {t : TileLayout D} {c c' : Cell D}

/-! ## Counts -/

/-- Cells along each axis, halo included. -/
def extent (t : TileLayout D) : Nat := t.internalCells + 2 * t.haloLayers

/-- The tile has fewer cells along an axis than a signed word counts. -/
def Spans (t : TileLayout D) : Prop := t.extent < 2 ^ (Word.width - 1)

/-- The tile has fewer cells than a signed word counts. -/
def Fits (t : TileLayout D) : Prop := t.extent ^ D < 2 ^ (Word.width - 1)

theorem one_lt_extent (t : TileLayout D) : 1 < t.extent := by
  have := t.internalCells_pos
  have := t.haloLayers_pos
  unfold extent
  omega

theorem Fits.pow_lt_bound (h : t.Fits) : t.extent ^ D < Word.bound := h.trans Word.half_bound_lt

theorem extent_lt_of_pow_lt [Dimension D] {k : Nat} (h : t.extent ^ D < k) : t.extent < k :=
  Nat.lt_of_le_of_lt (Nat.le_self_pow (Nat.pos_iff_ne_zero.1 Dimension.pos) _) h

theorem Fits.spans [Dimension D] (h : t.Fits) : t.Spans := extent_lt_of_pow_lt h

theorem Spans.extent_lt_bound (h : t.Spans) : t.extent < Word.bound := h.trans Word.half_bound_lt

theorem cellsPerLength_eq_ok (h : t.extent < Word.bound) : t.cellsPerLength = .ok t.extent := by
  unfold extent at h
  unfold TileLayout.cellsPerLength
  rw [Word.mul_eq_ok (by omega), ok_bind, Word.add_eq_ok h]
  rfl

theorem Spans.cellsPerLength (h : t.Spans) : t.cellsPerLength = .ok t.extent :=
  cellsPerLength_eq_ok h.extent_lt_bound

theorem size_eq_ok [Dimension D] (h : t.extent ^ D < Word.bound) :
    t.size = .ok (t.extent ^ D) := by
  have hextent := extent_lt_of_pow_lt h
  unfold TileLayout.size
  rw [cellsPerLength_eq_ok hextent, ok_bind]
  exact Word.pow_eq_ok hextent h

theorem Fits.size [Dimension D] (h : t.Fits) : t.size = .ok (t.extent ^ D) :=
  size_eq_ok h.pow_lt_bound

theorem Spans.lastInternal (h : t.Spans) :
    t.lastInternal = .ok (t.haloLayers + t.internalCells - 1) := by
  have hlt := h.extent_lt_bound
  have hpos := t.haloLayers_pos
  unfold extent at hlt
  unfold TileLayout.lastInternal
  rw [Word.add_eq_ok (by omega), ok_bind, Word.sub_eq_ok (by omega)]

theorem lastCell_eq_ok (h : t.extent < Word.bound) : t.lastCell = .ok (t.extent - 1) := by
  have := t.one_lt_extent
  unfold TileLayout.lastCell
  rw [cellsPerLength_eq_ok h, ok_bind, Word.sub_eq_ok (by omega)]

theorem Spans.lastCell (h : t.Spans) : t.lastCell = .ok (t.extent - 1) :=
  lastCell_eq_ok h.extent_lt_bound

/-- A layout whose cells are counted has as many as a word counts. -/
theorem of_size_eq_ok {n : Nat} (h : t.size = .ok n) :
    t.extent ^ D < Word.bound ∧ n = t.extent ^ D := by
  unfold TileLayout.size TileLayout.cellsPerLength at h
  obtain ⟨e, he, h⟩ := bind_eq_ok_iff.1 h
  obtain ⟨m, hm, he⟩ := bind_eq_ok_iff.1 he
  obtain ⟨-, rfl⟩ := Word.mul_eq_ok_iff.1 hm
  obtain ⟨hbound, rfl⟩ := Word.add_eq_ok_iff.1 he
  exact (Word.pow_eq_ok_iff hbound).1 h

/-- A layout whose size can be counted in bytes fits. -/
theorem fits_of_size {n k : Nat} (h : t.size = .ok n) (hk : 0 < k)
    (hn : n * k < 2 ^ (Word.width - 1)) : t.Fits ∧ n = t.extent ^ D := by
  obtain ⟨-, rfl⟩ := of_size_eq_ok h
  exact ⟨Nat.lt_of_le_of_lt (Nat.le_mul_of_pos_right _ hk) hn, rfl⟩

/-! ## Cells -/

/-- The cell is one of the tile. -/
def Contains (t : TileLayout D) (c : Cell D) : Prop := ∀ d : Fin D, c.get d < t.extent

/-- The cell is one of the internal cells. -/
def Inside (t : TileLayout D) (c : Cell D) : Prop :=
  ∀ d : Fin D, t.haloLayers ≤ c.get d ∧ c.get d < t.haloLayers + t.internalCells

theorem Inside.contains (h : t.Inside c) : t.Contains c := by
  intro d
  have := h d
  unfold extent
  omega

theorem all_lt_extent_iff : c.all (· < t.extent) = true ↔ t.Contains c := by
  rw [vector_all_iff]
  simp only [decide_eq_true_eq]
  rfl

theorem Spans.contains (h : t.Spans) : ∃ b, t.contains c = .ok b ∧ (b = true ↔ t.Contains c) := by
  refine ⟨c.all (· < t.extent), ?_, all_lt_extent_iff⟩
  unfold TileLayout.contains
  rw [h.cellsPerLength]
  rfl

theorem requireContains_eq_ok_iff (h : t.extent < Word.bound) :
    t.requireContains c = .ok () ↔ t.Contains c := by
  unfold TileLayout.requireContains
  rw [cellsPerLength_eq_ok h, ok_bind, ← all_lt_extent_iff]
  split
  · next hno => exact iff_of_false (fun h => by cases h) hno
  · next hno => exact iff_of_true rfl (not_not.1 hno)

theorem Spans.requireContains_iff (h : t.Spans) :
    t.requireContains c = .ok () ↔ t.Contains c := requireContains_eq_ok_iff h.extent_lt_bound

theorem Spans.isInternal (h : t.Spans) (hc : t.Contains c) :
    ∃ b, t.isInternal c = .ok b ∧ (b = true ↔ t.Inside c) := by
  refine ⟨c.all fun x => t.firstInternal ≤ x ∧ x ≤ t.haloLayers + t.internalCells - 1, ?_, ?_⟩
  · unfold TileLayout.isInternal
    rw [h.requireContains_iff.2 hc, ok_bind, h.lastInternal, ok_bind]
    rfl
  · have := t.internalCells_pos
    rw [vector_all_iff]
    refine forall_congr' fun d => ?_
    rw [decide_eq_true_iff, firstInternal]
    omega

theorem Spans.isInternal_iff (h : t.Spans) (hc : t.Contains c) :
    t.isInternal c = .ok true ↔ t.Inside c := by
  obtain ⟨b, hb, hinside⟩ := h.isInternal hc
  rw [hb, ← hinside, Except.ok.injEq]

theorem Spans.isHalo_iff (h : t.Spans) (hc : t.Contains c) :
    t.isHalo c = .ok true ↔ ¬ t.Inside c := by
  obtain ⟨b, hb, hinside⟩ := h.isInternal hc
  rw [isHalo, hb, ← hinside, Bool.not_eq_true, ← Bool.not_eq_true']
  exact Except.ok.injEq (!b) true ▸ Iff.rfl

/-! ## Storage -/

/-- Place of a cell in storage, axis 0 running fastest. -/
def offset (t : TileLayout D) (c : Cell D) : Nat := Nat.ofDigits t.extent c.toList

theorem Contains.forall_mem (hc : t.Contains c) : ∀ x ∈ c.toList, x < t.extent :=
  forall_mem_toList hc

theorem offset_lt (hc : t.Contains c) : t.offset c < t.extent ^ D := by
  have := Nat.ofDigits_lt_base_pow_length t.one_lt_extent hc.forall_mem
  rwa [Vector.length_toList] at this

theorem offset_injective (hc : t.Contains c) (hc' : t.Contains c') (h : t.offset c = t.offset c') :
    c = c' := by
  refine Vector.toList_inj.1 ?_
  exact Nat.ofDigits_inj_of_len_eq t.one_lt_extent (by simp) hc.forall_mem hc'.forall_mem h

/-- Every place in storage is that of a cell. -/
theorem exists_offset_eq {i : Nat} (hi : i < t.extent ^ D) : ∃ c, t.Contains c ∧ t.offset c = i := by
  have hcontains (x : Fin D → Fin t.extent) : t.Contains (Vector.ofFn fun d => (x d).val) :=
    fun d => by simp
  let place (x : Fin D → Fin t.extent) : Fin (t.extent ^ D) :=
    ⟨t.offset (Vector.ofFn fun d => (x d).val), offset_lt (hcontains x)⟩
  have hinjective : Function.Injective place := by
    intro x y h
    have hcell := offset_injective (hcontains x) (hcontains y) (congrArg Fin.val h)
    exact funext fun d => Fin.ext (by simpa using congrArg (Vector.get · d) hcell)
  have hbijective := (Fintype.bijective_iff_injective_and_card place).2 ⟨hinjective, by simp⟩
  obtain ⟨x, hx⟩ := hbijective.2 ⟨i, hi⟩
  exact ⟨_, hcontains x, congrArg Fin.val hx⟩

/-- Adding digits from the highest down gives the number, if the highest power fits. -/
theorem foldrM_digits {b : Nat} (hb : 1 < b) {xs : List Nat} (hxs : ∀ x ∈ xs, x < b)
    (h : b ^ xs.length ≤ Word.bound) :
    xs.foldrM (fun x higher => do Word.add (← Word.mul higher b) x) 0 =
      (.ok (Nat.ofDigits b xs) : Except Fault Nat) := by
  induction xs with
  | nil => rfl
  | cons x xs ih =>
    have hlt := Nat.ofDigits_lt_base_pow_length hb hxs
    have hle : b ^ xs.length ≤ Word.bound :=
      (Nat.pow_le_pow_right (by omega) (Nat.le_succ _)).trans h
    rw [Nat.ofDigits_cons, Nat.mul_comm, Nat.add_comm] at hlt ⊢
    rw [List.foldrM_cons, ih (fun y hy => hxs y (List.mem_cons_of_mem x hy)) hle, ok_bind,
      Word.mul_eq_ok (by omega), ok_bind, Word.add_eq_ok (by omega)]

theorem index_eq_ok [Dimension D] (h : t.extent ^ D < Word.bound) (hc : t.Contains c) :
    t.index c = .ok (t.offset c) := by
  have hextent := extent_lt_of_pow_lt h
  unfold TileLayout.index
  rw [(requireContains_eq_ok_iff hextent).2 hc, ok_bind, cellsPerLength_eq_ok hextent, ok_bind]
  refine foldrM_digits t.one_lt_extent hc.forall_mem ?_
  rw [Vector.length_toList]
  exact h.le

theorem Fits.index [Dimension D] (h : t.Fits) (hc : t.Contains c) : t.index c = .ok (t.offset c) :=
  index_eq_ok h.pow_lt_bound hc

/-! ## Moves -/

/-- The cell some steps away along one axis. -/
def stepped (c : Cell D) (d : Fin D) (steps : Int) : Cell D :=
  Vector.ofFn fun i => if i = d then ((c.get i : Int) + steps).toNat else c.get i

theorem get_stepped (c : Cell D) (d i : Fin D) (steps : Int) : (stepped c d steps).get i =
    if i = d then ((c.get i : Int) + steps).toNat else c.get i := by
  simp [stepped]

/-- A step from an internal cell stays in the tile, as there is a halo layer around. -/
theorem Inside.contains_stepped (hc : t.Inside c) (d : Fin D) {steps : Int}
    (hs : steps.natAbs ≤ 1) : t.Contains (stepped c d steps) := by
  intro i
  have := hc i
  have := t.haloLayers_pos
  rw [get_stepped]
  unfold extent
  split <;> omega

/-- A step that leaves the internal cells starts at their border. -/
theorem Inside.border (hc : t.Inside c) {d : Fin D} {steps : Int} (hs : steps = 1 ∨ steps = -1)
    (h : ¬ t.Inside (stepped c d steps)) : steps = 1 ∧ c.get d + 1 = t.haloLayers + t.internalCells ∨
      steps = -1 ∧ c.get d = t.haloLayers := by
  obtain ⟨i, hi⟩ := not_forall.1 h
  have hci := hc i
  rw [get_stepped] at hi
  split at hi
  · next hid =>
    subst hid
    omega
  · exact absurd hci hi

theorem Spans.movedAlong (h : t.Spans) (hc : t.Inside c) (d : Fin D) {steps : Int}
    (hs : steps.natAbs ≤ 1) : t.movedAlong c d steps = .ok (stepped c d steps) := by
  have hmoved (i : Fin D) : (Vector.ofFn fun i : Fin D => (c.get i : Int) +
      (Vector.ofFn fun i : Fin D => if i.val = d.val then steps else 0).get i).get i =
        ((stepped c d steps).get i : Int) := by
    have := hc i
    have := t.haloLayers_pos
    rw [get_stepped]
    simp only [Vector.get_eq_getElem, Vector.getElem_ofFn, Fin.ext_iff] at *
    split <;> omega
  have hcontains := hc.contains_stepped d hs
  unfold TileLayout.movedAlong moved moved?
  rw [if_pos d.isLt, h.cellsPerLength, ok_bind]
  simp only [hmoved]
  rw [if_pos fun i => by have := hcontains i; omega]
  refine congrArg Except.ok (Vector.ext fun i hi => ?_)
  rw [Vector.getElem_map]
  exact (congrArg Int.toNat (hmoved ⟨i, hi⟩)).trans (Int.toNat_natCast _)

end TileLayout

end AdaptiveMesh
