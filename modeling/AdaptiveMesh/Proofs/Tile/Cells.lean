import AdaptiveMesh.Proofs.Tile.Layout

/-!
# Rings of cells

A box is listed in storage order, and a ring row by row. Where the two sides of a ring lie apart
along every axis it is the part of its box near the boundary, in the order of the box
(`ringCells_eq_filter`).

The check of a ring compares signed words. It refuses sides that meet, but not a lower side that
reaches past what such a word counts. In more than one dimension every row is then near the boundary
and the ring is the whole box, as it should be; along a single axis the ring has no cells of its own
to list (`Fits.ring_eq_filter_iff`).
-/

namespace AdaptiveMesh

/-! ## Boxes -/

theorem boxCells_succ {D : Nat} (first last : Cell (D + 1)) : boxCells first last =
    (closedRange first.back last.back).flatMap fun x =>
      (boxCells first.pop last.pop).map (·.push x) := by
  have hpop : (Vector.ofFn fun d => closedRange (first.get d) (last.get d)).pop =
      Vector.ofFn fun d : Fin D => closedRange (first.pop.get d) (last.pop.get d) := by
    ext i hi
    simp
  rw [boxCells, tuples, hpop]
  simp [Vector.back, boxCells]

theorem mem_boxCells {D : Nat} {first last c : Cell D} :
    c ∈ boxCells first last ↔ ∀ d : Fin D, first.get d ≤ c.get d ∧ c.get d ≤ last.get d := by
  rw [boxCells, mem_tuples]
  refine forall_congr' fun d => ?_
  simp only [Vector.get_eq_getElem, Vector.getElem_ofFn]
  exact mem_closedRange

theorem pairwise_closedRange (first last : Nat) : (closedRange first last).Pairwise (· < ·) :=
  List.pairwise_lt_range'

/-- A box is listed in the order of the numbers that have the places of a cell as digits. -/
theorem pairwise_boxCells {D : Nat} (first last : Cell D) {n : Nat} (hn : 1 < n)
    (hlast : ∀ d : Fin D, last.get d < n) : (boxCells first last).Pairwise fun c c' =>
      Nat.ofDigits n c.toList < Nat.ofDigits n c'.toList := by
  induction D with
  | zero => exact List.pairwise_singleton _ _
  | succ D ih =>
    have hpop (d : Fin D) : last.pop.get d < n := by simpa using hlast d.castSucc
    have hpush (c : Cell D) (x : Nat) : Nat.ofDigits n (c.push x).toList =
        Nat.ofDigits n c.toList + n ^ D * x := by
      rw [Vector.toList_push, Nat.ofDigits_append, Nat.ofDigits_singleton, Vector.length_toList]
    rw [boxCells_succ, List.pairwise_flatMap]
    constructor
    · intro x _
      refine List.pairwise_map.2 ((ih first.pop last.pop hpop).imp fun {c c'} h => ?_)
      rw [hpush, hpush]
      omega
    · refine (pairwise_closedRange _ _).imp fun {x x'} hx c hc c' hc' => ?_
      obtain ⟨lower, hlower, rfl⟩ := List.mem_map.1 hc
      obtain ⟨lower', -, rfl⟩ := List.mem_map.1 hc'
      -- the lower places are worth less than one step along the last axis
      have hlt : Nat.ofDigits n lower.toList < n ^ D := by
        have := Nat.ofDigits_lt_base_pow_length hn (forall_mem_toList fun d : Fin D =>
          Nat.lt_of_le_of_lt (mem_boxCells.1 hlower d).2 (hpop d))
        rwa [Vector.length_toList] at this
      have hle : n ^ D * (x + 1) ≤ n ^ D * x' := Nat.mul_le_mul_left _ hx
      rw [hpush, hpush]
      rw [Nat.mul_succ] at hle
      omega

theorem nodup_boxCells {D : Nat} (first last : Cell D) : (boxCells first last).Nodup := by
  refine nodup_tuples fun d => ?_
  simp only [Vector.get_eq_getElem, Vector.getElem_ofFn, closedRange]
  exact List.nodup_range'

theorem length_boxCells_replicate (D first last : Nat) :
    (boxCells (Vector.replicate D first) (Vector.replicate D last)).length =
      (last + 1 - first) ^ D := by
  induction D with
  | zero => rfl
  | succ D ih =>
    have hpop (x : Nat) : (Vector.replicate (D + 1) x).pop = Vector.replicate D x := by
      ext i hi
      simp
    have hback (x : Nat) : (Vector.replicate (D + 1) x).back = x := by simp [Vector.back]
    rw [boxCells_succ, hpop, hpop, hback, hback, List.length_flatMap]
    simp [ih, closedRange, Nat.pow_succ']

/-! ## Rings -/

/-- Whether a cell is within `width` steps of the boundary of a box, along some axis. -/
def NearBoundary {D : Nat} (first last : Cell D) (width : Nat) (c : Cell D) : Prop :=
  ∃ d : Fin D, c.get d ≤ first.get d + width ∨ last.get d - width ≤ c.get d

instance {D : Nat} (first last : Cell D) (width : Nat) (c : Cell D) :
    Decidable (NearBoundary first last width c) :=
  inferInstanceAs (Decidable (∃ _ : Fin D, _ ∨ _))

/-- The cells within `width` steps of the two sides of a box lie apart, along every axis. -/
def SidesApart {D : Nat} (first last : Cell D) (width : Nat) : Prop :=
  ∀ d : Fin D, first.get d + width < last.get d - width

theorem nearBoundary_push {D : Nat} {first last : Cell (D + 1)} {width : Nat} {lower : Cell D}
    {x : Nat} : NearBoundary first last width (lower.push x) ↔
      NearBoundary first.pop last.pop width lower ∨
        (x ≤ first.back + width ∨ last.back - width ≤ x) := by
  rw [NearBoundary, Fin.exists_fin_succ', NearBoundary]
  simp [Vector.back]

theorem filter_closedRange {first last m k : Nat} (hm : first ≤ m) (hmk : m < k) (hk : k ≤ last) :
    ((closedRange first last).filter fun x => x ≤ m ∨ k ≤ x) =
      closedRange first m ++ closedRange k last := by
  refine ((pairwise_closedRange _ _).filter _).eq_of_mem_iff (List.pairwise_append.2
    ⟨pairwise_closedRange _ _, pairwise_closedRange _ _, fun x hx y hy => ?_⟩) fun x => ?_
  · rw [mem_closedRange] at hx hy
    omega
  · rw [List.mem_filter, List.mem_append, mem_closedRange, mem_closedRange, mem_closedRange,
      decide_eq_true_eq]
    omega

/-- A ring is listed row by row. Only a row away from the boundary needs the ring of the lower
axes. -/
theorem ringCells_eq_rows {D : Nat} {first last : Cell (D + 2)} {width : Nat}
    (inner : List (Cell (D + 1))) (h : first.back + width < last.back →
      ringCells first.pop last.pop width = .ok inner) :
    ringCells first last width = .ok ((closedRange first.back last.back).flatMap fun x =>
      (if x ≤ first.back + width ∨ last.back - width ≤ x then boxCells first.pop last.pop
        else inner).map (·.push x)) := by
  rw [ringCells, mapM_eq_ok_map (g := fun x =>
    (if x ≤ first.back + width ∨ last.back - width ≤ x then boxCells first.pop last.pop
      else inner).map (·.push x))]
  · rfl
  · intro x hx
    split
    · rfl
    · next haway =>
      rw [mem_closedRange] at hx
      rw [h (by omega)]
      rfl

/-- The part of a row near the boundary: all of it, or what is near the boundary of the lower
axes. -/
theorem filter_row {D : Nat} (first last : Cell (D + 1)) (width x : Nat) :
    (((boxCells first.pop last.pop).map (·.push x)).filter fun c =>
      NearBoundary first last width c) =
    (if x ≤ first.back + width ∨ last.back - width ≤ x then boxCells first.pop last.pop
      else (boxCells first.pop last.pop).filter fun c =>
        NearBoundary first.pop last.pop width c).map (·.push x) := by
  rw [List.filter_map]
  congr 1
  split
  · next hx =>
    refine List.filter_eq_self.2 fun c _ => decide_eq_true ?_
    exact nearBoundary_push.2 (Or.inr hx)
  · next hx =>
    refine List.filter_congr fun c _ => decide_eq_decide.2 ?_
    exact nearBoundary_push.trans (or_iff_left hx)

/-- The ring of a box whose sides lie apart is the part of the box near the boundary. -/
theorem ringCells_eq_filter : {D : Nat} → (first last : Cell D) → (width : Nat) →
    (∀ d : Fin D, first.get d + width < Word.bound) → SidesApart first last width →
    ringCells first last width =
      .ok ((boxCells first last).filter fun c => NearBoundary first last width c)
  | 0, _, _, _, _, _ => by
    rw [List.filter_eq_nil_iff.2 fun c _ => by simp [NearBoundary]]
    rfl
  | 1, first, last, width, hbound, hapart => by
    have hbound : first[0] + width < Word.bound := hbound 0
    have hapart : first[0] + width < last[0] - width := hapart 0
    have hbox : boxCells first last = (closedRange first[0] last[0]).map fun x => #v[x] := by
      rw [boxCells_succ, List.map_eq_flatMap]
      rfl
    have hnear (x : Nat) : NearBoundary first last width #v[x] ↔
        x ≤ first[0] + width ∨ last[0] - width ≤ x := by
      simp [NearBoundary]
    rw [ringCells, Word.add_eq_ok hbound, ok_bind, Word.sub_eq_ok (by omega), ok_bind,
      ← filter_closedRange (by omega) hapart (by omega), hbox, List.filter_map]
    simp only [Function.comp_def, hnear]
    rfl
  | D + 2, first, last, width, hbound, hapart => by
    have hinner := ringCells_eq_filter first.pop last.pop width
      (fun d => by simpa using hbound d.castSucc) (fun d => by simpa using hapart d.castSucc)
    rw [ringCells_eq_rows _ fun _ => hinner, boxCells_succ first last, List.filter_flatMap]
    simp only [filter_row]

/-- Where the lower side reaches over the whole last axis the ring is the box. -/
theorem ringCells_eq_boxCells {D : Nat} {first last : Cell (D + 2)} {width : Nat}
    (h : last.back ≤ first.back + width) : ringCells first last width = .ok (boxCells first last) := by
  rw [ringCells_eq_rows [] fun hlt => absurd hlt (Nat.not_lt.2 h), boxCells_succ first last]
  refine congrArg Except.ok (List.flatMap_congr fun x hx => ?_)
  rw [if_pos (Or.inl ((mem_closedRange.1 hx).2.trans h))]

namespace TileLayout

variable {D : Nat} {t : TileLayout D} {first last : Cell D} {width : Nat}

/-! ## Checks -/

/-- What the check of a ring tells about an axis: the two sides lie apart, or the lower one reaches
past what a signed word counts. -/
theorem apart_or_of_requireRing (h : requireRing first last width = .ok ()) (d : Fin D)
    (hlast : last.get d < 2 ^ (Word.width - 1)) : first.get d + width < Word.bound ∧
      (first.get d + width < last.get d - width ∨
        2 ^ (Word.width - 1) ≤ first.get d + width) := by
  have haxis := forM_eq_ok_iff.1 h d (List.mem_finRange d)
  obtain ⟨upper, hupper, haxis⟩ := bind_eq_ok_iff.1 haxis
  obtain ⟨lower, hlower, haxis⟩ := bind_eq_ok_iff.1 haxis
  obtain ⟨hbound, rfl⟩ := Word.add_eq_ok_iff.1 hlower
  refine ⟨hbound, ?_⟩
  rcases Nat.lt_or_ge (first.get d + width) (2 ^ (Word.width - 1)) with hlt | hge
  · left
    have hupper := Word.eq_of_checkedSigned hupper
    rw [Word.toSigned_of_lt hlast, Word.toSigned_of_lt (by omega)] at hupper
    rw [Word.toSigned_of_lt hlt] at haxis
    split at haxis
    · cases haxis
    · omega
  · exact Or.inr hge

theorem requireRing_eq_ok (hlast : ∀ d : Fin D, last.get d < 2 ^ (Word.width - 1))
    (h : SidesApart first last width) : requireRing first last width = .ok () := by
  refine forM_eq_ok_iff.2 fun d _ => ?_
  have hlast := hlast d
  have hd := h d
  have hhalf := Word.half_bound_lt
  have hupper : Word.toSigned (last.get d) - Word.toSigned width =
      ((last.get d - width : Nat) : Int) := by
    rw [Word.toSigned_of_lt hlast, Word.toSigned_of_lt (by omega)]
    omega
  rw [hupper, Word.checkedSigned_natCast (by omega), ok_bind, Word.add_eq_ok (by omega), ok_bind,
    Word.toSigned_of_lt (by omega), if_neg (by omega)]
  rfl

/-- Corners are accepted if they are cells of the tile and in order. -/
theorem requireBounds_eq_ok_iff (h : t.extent < Word.bound) : t.requireBounds first last = .ok () ↔
    t.Contains first ∧ t.Contains last ∧ ∀ d : Fin D, first.get d ≤ last.get d := by
  have horder : (List.finRange D).find? (fun d => last.get d < first.get d) = none ↔
      ∀ d : Fin D, first.get d ≤ last.get d := by
    simp [List.find?_eq_none]
  constructor
  · intro hrun
    obtain ⟨_, hfirst, hrun⟩ := bind_eq_ok_iff.1 hrun
    obtain ⟨_, hlast, hrun⟩ := bind_eq_ok_iff.1 hrun
    refine ⟨(requireContains_eq_ok_iff h).1 hfirst, (requireContains_eq_ok_iff h).1 hlast,
      horder.1 ?_⟩
    cases hfind : (List.finRange D).find? fun d => last.get d < first.get d with
    | none => rfl
    | some d =>
      rw [hfind] at hrun
      cases hrun
  · rintro ⟨hfirst, hlast, hle⟩
    rw [requireBounds, (requireContains_eq_ok_iff h).2 hfirst, ok_bind,
      (requireContains_eq_ok_iff h).2 hlast, ok_bind, horder.2 hle]
    rfl

theorem Spans.requireBounds_iff (h : t.Spans) : t.requireBounds first last = .ok () ↔
    t.Contains first ∧ t.Contains last ∧ ∀ d : Fin D, first.get d ≤ last.get d :=
  requireBounds_eq_ok_iff h.extent_lt_bound

theorem requireBounds_replicate (h : t.extent < Word.bound) {x y : Nat} (hxy : x ≤ y)
    (hy : y < t.extent) :
    t.requireBounds (Vector.replicate D x) (Vector.replicate D y) = .ok () :=
  (requireBounds_eq_ok_iff h).2
    ⟨fun d => by simp; omega, fun d => by simp; omega, fun d => by simp; omega⟩

/-! ## Boxes of a tile -/

/-- The cell comes before another in storage. -/
def StoredBefore (t : TileLayout D) (c c' : Cell D) : Prop :=
  ∃ i i', t.index c = .ok i ∧ t.index c' = .ok i' ∧ i < i'

theorem pairwise_storedBefore_boxCells [Dimension D] (h : t.extent ^ D < Word.bound)
    (hlast : t.Contains last) : (boxCells first last).Pairwise t.StoredBefore := by
  have hcontains {c : Cell D} (hc : c ∈ boxCells first last) : t.Contains c :=
    fun d => Nat.lt_of_le_of_lt (mem_boxCells.1 hc d).2 (hlast d)
  refine (AdaptiveMesh.pairwise_boxCells _ _ t.one_lt_extent hlast).imp_of_mem
    fun {c c'} hc hc' hlt => ?_
  exact ⟨_, _, index_eq_ok h (hcontains hc), index_eq_ok h (hcontains hc'), hlt⟩

theorem Fits.pairwise_boxCells [Dimension D] (h : t.Fits) (hlast : t.Contains last) :
    (boxCells first last).Pairwise t.StoredBefore :=
  pairwise_storedBefore_boxCells h.pow_lt_bound hlast

/-- Every cell of the tile, in storage order. -/
def allCells (t : TileLayout D) : List (Cell D) :=
  boxCells (Vector.replicate D 0) (Vector.replicate D (t.extent - 1))

theorem mem_allCells {c : Cell D} : c ∈ t.allCells ↔ t.Contains c := by
  have := t.one_lt_extent
  rw [allCells, mem_boxCells]
  refine forall_congr' fun d => ?_
  simp only [Vector.get_eq_getElem, Vector.getElem_replicate]
  omega

theorem nodup_allCells (t : TileLayout D) : t.allCells.Nodup := nodup_boxCells _ _

theorem length_allCells (t : TileLayout D) : t.allCells.length = t.extent ^ D := by
  have := t.one_lt_extent
  rw [allCells, length_boxCells_replicate]
  congr 1
  omega

theorem cells_eq_ok (h : t.extent < Word.bound) : t.cells = .ok t.allCells := by
  have := t.one_lt_extent
  rw [cells, lastCell_eq_ok h, ok_bind, cellsBetween,
    requireBounds_replicate h (by omega) (by omega)]
  rfl

theorem Spans.cells_eq (h : t.Spans) : t.cells = .ok t.allCells := cells_eq_ok h.extent_lt_bound

theorem pairwise_allCells (t : TileLayout D) :
    t.allCells.Pairwise fun c c' => t.offset c < t.offset c' := by
  have := t.one_lt_extent
  exact AdaptiveMesh.pairwise_boxCells _ _ t.one_lt_extent fun d => by simp; omega

/-- The internal cells are the part of the tile inside the halo. -/
theorem Spans.filter_isInternal (h : t.Spans) :
    (t.allCells.filter fun c => t.isInternal c = .ok true) =
      boxCells (Vector.replicate D t.haloLayers)
        (Vector.replicate D (t.haloLayers + t.internalCells - 1)) := by
  have := t.internalCells_pos
  have := t.haloLayers_pos
  have hextent : t.extent = t.internalCells + 2 * t.haloLayers := rfl
  have hbox := AdaptiveMesh.pairwise_boxCells (Vector.replicate D t.haloLayers)
    (Vector.replicate D (t.haloLayers + t.internalCells - 1)) t.one_lt_extent fun d => by simp; omega
  have hinside := t.pairwise_allCells.filter fun c => t.isInternal c = .ok true
  refine List.Perm.eq_of_pairwise (fun c c' _ _ hlt hgt => absurd hgt (lt_asymm hlt)) hinside hbox
    ((List.perm_ext_iff_of_nodup (t.nodup_allCells.filter _) (nodup_boxCells _ _)).2 fun c => ?_)
  have hplaces : (∀ d : Fin D, (Vector.replicate D t.haloLayers).get d ≤ c.get d ∧
      c.get d ≤ (Vector.replicate D (t.haloLayers + t.internalCells - 1)).get d) ↔ t.Inside c := by
    refine forall_congr' fun d => ?_
    simp only [Vector.get_eq_getElem, Vector.getElem_replicate]
    omega
  rw [mem_boxCells, List.mem_filter, mem_allCells, decide_eq_true_eq, hplaces]
  exact ⟨fun ⟨hc, hi⟩ => (h.isInternal_iff hc).1 hi,
    fun hc => ⟨hc.contains, (h.isInternal_iff hc.contains).2 hc⟩⟩

theorem Spans.internalCellList_eq (h : t.Spans) : t.internalCellList =
    .ok (t.allCells.filter fun c => t.isInternal c = .ok true) := by
  have := t.internalCells_pos
  have := t.haloLayers_pos
  have hextent : t.extent = t.internalCells + 2 * t.haloLayers := rfl
  rw [internalCellList, h.lastInternal, ok_bind, cellsBetween, firstInternal,
    requireBounds_replicate h.extent_lt_bound (by omega) (by omega), h.filter_isInternal]
  rfl

theorem Spans.length_filter_isInternal (h : t.Spans) :
    (t.allCells.filter fun c => t.isInternal c = .ok true).length = t.internalCells ^ D := by
  have := t.internalCells_pos
  rw [h.filter_isInternal, length_boxCells_replicate]
  congr 1
  omega

/-- A cell is a halo cell or an internal cell. -/
theorem Spans.filter_isHalo_append_perm (h : t.Spans) :
    ((t.allCells.filter fun c => t.isHalo c = .ok true) ++
      t.allCells.filter fun c => t.isInternal c = .ok true).Perm t.allCells := by
  have hnot : (t.allCells.filter fun c => t.isInternal c = .ok true) =
      t.allCells.filter fun c => !decide (t.isHalo c = .ok true) := by
    refine List.filter_congr fun c hc => ?_
    rw [← decide_not, decide_eq_decide, h.isInternal_iff (mem_allCells.1 hc),
      h.isHalo_iff (mem_allCells.1 hc), not_not]
  rw [hnot]
  exact List.filter_append_perm _ _

/-! ## Rings of a tile -/

/-- A ring whose sides lie apart is the part of its box near the boundary. -/
theorem Spans.ring_eq_filter (h : t.Spans) (hfirst : t.Contains first) (hlast : t.Contains last)
    (hapart : SidesApart first last width) : t.ring first last width =
      .ok ((boxCells first last).filter fun c => NearBoundary first last width c) := by
  have hhalf := Word.half_bound_lt
  have hlt (d : Fin D) : last.get d < 2 ^ (Word.width - 1) := (hlast d).trans h
  have hle (d : Fin D) : first.get d ≤ last.get d := by
    have := hapart d
    omega
  rw [ring, requireRing_eq_ok hlt hapart, ok_bind, h.requireBounds_iff.2 ⟨hfirst, hlast, hle⟩,
    ok_bind]
  refine ringCells_eq_filter _ _ _ (fun d => ?_) hapart
  have := hapart d
  have := hlt d
  omega

/-- The halo cells are a ring, and the part of the tile outside the internal cells. -/
theorem Spans.haloCellList_eq (h : t.Spans) : t.haloCellList =
    .ok (t.allCells.filter fun c => t.isHalo c = .ok true) := by
  have := t.internalCells_pos
  have := t.haloLayers_pos
  have hextent : t.extent = t.internalCells + 2 * t.haloLayers := rfl
  rw [haloCellList, h.lastCell, ok_bind, h.ring_eq_filter (fun d => by simp; omega)
    (fun d => by simp; omega) fun d => by simp; omega]
  refine congrArg Except.ok (List.filter_congr fun c hc => decide_eq_decide.2 ?_)
  rw [h.isHalo_iff (mem_allCells.1 hc), Inside, not_forall]
  refine exists_congr fun d => ?_
  have := mem_allCells.1 hc d
  simp only [Vector.get_eq_getElem, Vector.getElem_replicate] at this ⊢
  omega

/-- The halo cells are listed once each. -/
theorem Fits.exists_haloCellList [Dimension D] (h : t.Fits) : ∃ cells, t.haloCellList = .ok cells ∧
    cells.Nodup ∧ ∀ c, c ∈ cells ↔ t.Contains c ∧ ¬ t.Inside c := by
  refine ⟨_, h.spans.haloCellList_eq, t.nodup_allCells.filter _, fun c => ?_⟩
  rw [List.mem_filter, mem_allCells, decide_eq_true_eq]
  exact and_congr_right h.spans.isHalo_iff

/-- Where there are two axes or more, a lower side past what a signed word counts reaches over the
tile along all of them. -/
theorem Fits.extent_le_of_past (h : t.Fits) (hD : 2 ≤ D) (hfirst : t.Contains first) {d : Fin D}
    (hpast : 2 ^ (Word.width - 1) ≤ first.get d + width) : t.extent ≤ width := by
  have hone := t.one_lt_extent
  have hsquare : 2 * t.extent ≤ t.extent ^ D := calc
    2 * t.extent ≤ t.extent * t.extent := Nat.mul_le_mul_right _ hone
    _ = t.extent ^ 2 := (Nat.pow_two _).symm
    _ ≤ t.extent ^ D := Nat.pow_le_pow_right (by omega) hD
  have hfit : t.extent ^ D < 2 ^ (Word.width - 1) := h
  have := hfirst d
  omega

/-- An accepted ring is the part of its box near the boundary exactly if its sides lie apart or
there are two axes or more. -/
theorem Fits.ring_eq_filter_iff [Dimension D] (h : t.Fits)
    (hring : requireRing first last width = .ok ())
    (hbounds : t.requireBounds first last = .ok ()) : t.ring first last width =
      .ok ((boxCells first last).filter fun c => NearBoundary first last width c) ↔
        2 ≤ D ∨ SidesApart first last width := by
  obtain ⟨hfirst, hlast, -⟩ := h.spans.requireBounds_iff.1 hbounds
  have haxis (d : Fin D) := apart_or_of_requireRing hring d ((hlast d).trans h.spans)
  have hunfold : t.ring first last width = ringCells first last width := by
    rw [ring, hring, ok_bind, hbounds, ok_bind]
  by_cases hapart : SidesApart first last width
  · exact iff_of_true (h.spans.ring_eq_filter hfirst hlast hapart) (Or.inr hapart)
  obtain ⟨d, hd⟩ := not_forall.1 hapart
  have hpast := (haxis d).2.resolve_left hd
  rw [or_iff_left hapart, hunfold]
  constructor
  · -- along a single axis the ring would end past the box
    intro hrun
    by_contra hD
    obtain rfl : D = 1 := by
      have := Dimension.pos (D := D)
      omega
    obtain rfl : d = 0 := Subsingleton.elim _ _
    obtain ⟨lowerEnd, hlower, hrun⟩ := bind_eq_ok_iff.1 hrun
    obtain ⟨upperStart, -, hrun⟩ := bind_eq_ok_iff.1 hrun
    obtain ⟨-, rfl⟩ := Word.add_eq_ok_iff.1 hlower
    have hmem : (#v[first[0] + width] : Cell 1) ∈
        (closedRange first[0] (first[0] + width) ++ closedRange upperStart last[0]).map
          fun x => #v[x] :=
      List.mem_map_of_mem (List.mem_append_left _ (mem_closedRange.2 (by omega)))
    rw [Except.ok.inj hrun] at hmem
    have hbox := (mem_boxCells.1 (List.mem_filter.1 hmem).1 0).2
    have : first.get 0 + width ≤ last.get 0 := hbox
    have := (hlast 0).trans h.spans
    omega
  · intro hD
    have hwidth := h.extent_le_of_past hD hfirst hpast
    obtain ⟨k, rfl⟩ : ∃ k, D = k + 2 := ⟨D - 2, by omega⟩
    have hback : last.back < t.extent := by simpa [Vector.back] using hlast (Fin.last (k + 1))
    rw [ringCells_eq_boxCells (by omega), List.filter_eq_self.2 fun c hc => ?_]
    refine decide_eq_true ⟨d, Or.inl ?_⟩
    have := (mem_boxCells.1 hc d).2
    have := hlast d
    omega

/-- An accepted ring is the part of its box near the boundary, in the storage order of the box, if
there are two axes or more or if its sides lie apart. The halo cells and the internal cells are
listed as the parts of the tile with these names, and make up the tile. -/
theorem Fits.rings_filter_boxes [Dimension D] (h : t.Fits) :
    (∀ first last width, requireRing first last width = .ok () →
      t.requireBounds first last = .ok () → ∃ box, t.cellsBetween first last = .ok box ∧
        (∀ c, c ∈ box ↔ ∀ d : Fin D, first.get d ≤ c.get d ∧ c.get d ≤ last.get d) ∧
        box.Pairwise t.StoredBefore ∧
        (t.ring first last width = .ok (box.filter fun c => NearBoundary first last width c) ↔
          2 ≤ D ∨ SidesApart first last width)) ∧
    ∃ all halos internals, t.cells = .ok all ∧ t.haloCellList = .ok halos ∧
      t.internalCellList = .ok internals ∧
      (∀ c, c ∈ all ↔ t.contains c = .ok true) ∧ all.Pairwise t.StoredBefore ∧
      halos = (all.filter fun c => t.isHalo c = .ok true) ∧
      internals = (all.filter fun c => t.isInternal c = .ok true) ∧
      (halos ++ internals).Perm all ∧ t.size = .ok all.length ∧
      t.haloSize = .ok halos.length ∧ t.internalSize = .ok internals.length := by
  have hs := h.spans
  constructor
  · intro first last width hring hbounds
    refine ⟨boxCells first last, ?_, fun c => mem_boxCells, ?_, h.ring_eq_filter_iff hring hbounds⟩
    · rw [cellsBetween, hbounds]
      rfl
    · exact h.pairwise_boxCells (hs.requireBounds_iff.1 hbounds).2.1
  have hperm := hs.filter_isHalo_append_perm
  have hlength := hperm.length_eq
  rw [List.length_append, hs.length_filter_isInternal, length_allCells] at hlength
  have hinternal : t.internalSize = .ok (t.internalCells ^ D) := by
    have := hs.extent_lt_bound
    have := h.pow_lt_bound
    have hextent : t.extent = t.internalCells + 2 * t.haloLayers := rfl
    exact Word.pow_eq_ok (by omega) (by omega)
  refine ⟨t.allCells, _, _, hs.cells_eq, hs.haloCellList_eq, hs.internalCellList_eq, fun c => ?_, ?_,
    rfl, rfl, hperm, ?_, ?_, ?_⟩
  · obtain ⟨b, hb, hcontains⟩ := hs.contains (c := c)
    rw [mem_allCells, hb, ← hcontains, Except.ok.injEq]
  · exact h.pairwise_boxCells fun d => by have := t.one_lt_extent; simp; omega
  · rw [h.size, length_allCells]
  · rw [haloSize, h.size, ok_bind, hinternal, ok_bind, Word.sub_eq_ok (by omega), ← hlength,
      Nat.add_sub_cancel]
  · rw [hinternal, hs.length_filter_isInternal]

/-- On a square a ring of two layers is what its box has near the boundary. -/
theorem rings_filter_boxes_square : ∃ t : TileLayout 2, make 2 4 1 = .ok t ∧ t.Fits ∧
    requireRing #v[0, 0] #v[5, 4] 1 = .ok () ∧ t.requireBounds #v[0, 0] #v[5, 4] = .ok () ∧
    (∃ box, t.cellsBetween #v[0, 0] #v[5, 4] = .ok box ∧ t.ring #v[0, 0] #v[5, 4] 1 =
      .ok (box.filter fun c => NearBoundary #v[0, 0] #v[5, 4] 1 c)) ∧
    ∃ halos, t.haloCellList = .ok halos ∧ t.haloSize = .ok halos.length := by
  let t : TileLayout 2 := ⟨4, 1, by decide, by decide⟩
  have hfits : t.Fits := by
    unfold Fits
    decide
  have hring : requireRing #v[0, 0] #v[5, 4] 1 = .ok () := by decide +kernel
  have hbounds : t.requireBounds #v[0, 0] #v[5, 4] = .ok () := by decide +kernel
  obtain ⟨hrings, -, halos, -, -, hhalos, -, -, -, -, -, -, -, hsize, -⟩ := hfits.rings_filter_boxes
  obtain ⟨box, hbox, -, -, hiff⟩ := hrings _ _ _ hring hbounds
  exact ⟨t, rfl, hfits, hring, hbounds, ⟨box, hbox, hiff.2 (Or.inl le_rfl)⟩, halos, hhalos, hsize⟩

/-- Along a single axis a width is accepted that leaves the word. The whole tile is that near the
boundary, but there is no ring. -/
theorem ring_overflows_segment : ∃ t : TileLayout 1, make 1 4 1 = .ok t ∧ t.Fits ∧
    requireRing #v[0] #v[5] (Word.bound - 1) = .ok () ∧ t.requireBounds #v[0] #v[5] = .ok () ∧
    (∃ box, t.cellsBetween #v[0] #v[5] = .ok box ∧
      (box.filter fun c => NearBoundary #v[0] #v[5] (Word.bound - 1) c) =
        [#v[0], #v[1], #v[2], #v[3], #v[4], #v[5]]) ∧
    t.ring #v[0] #v[5] (Word.bound - 1) = .error .overflow := by
  refine ⟨⟨4, 1, by decide, by decide⟩, rfl, ?_, ?_, ?_, ⟨boxCells #v[0] #v[5], ?_, ?_⟩, ?_⟩
  · unfold Fits
    decide
  all_goals decide +kernel

end TileLayout

end AdaptiveMesh
