import AdaptiveMesh.Proofs.Mesh.Gather
import AdaptiveMesh.Proofs.Mesh.Points

/-!
# Restriction

A box of the grid of a level is read from the leaf cell around it, if there is one, and is otherwise
cut into boxes of the grid of the next level. In exact arithmetic the cuts end at the deepest leaf,
and over an internal node of a complete tree they give the mean of the leaf cells in the box.
-/

namespace AdaptiveMesh

open LocationCode

variable {D : Nat} {L S α : Type} [LocationCode D L]

/-! ## Sums over parts -/

/-- Adds what is found for each part, if something is found for all. -/
def sumParts [Add S] (f : α → Except Fault (Option (Array S))) (parts : List α)
    (sum : Option (Array S)) : Except Fault (Option (Array S)) :=
  parts.foldlM (fun sum part => do
    let some sum := sum | return none
    let some values ← f part | return none
    return some (Array.zipWith (· + ·) sum values)) sum

section SumParts

variable {f : α → Except Fault (Option (Array S))} {parts : List α} {k : Nat}

theorem sumParts_none [Add S] : sumParts f parts none = .ok none := by
  induction parts with
  | nil => rfl
  | cons part parts ih => exact ih

theorem sumParts_cons [Add S] {part : α} {r : Option (Array S)} (h : f part = .ok r)
    (sum : Array S) : sumParts f (part :: parts) (some sum) =
      sumParts f parts (r.map fun values => Array.zipWith (· + ·) sum values) := by
  unfold sumParts
  rw [List.foldlM_cons]
  simp only [h, ok_bind]
  cases r <;> rfl

theorem endAlike_sumParts [Add S] {broken : Set Fault} {f g : α → Except Fault (Option (Array S))}
    (h : ∀ part, EndAlike broken Eq (f part) (g part)) (sum : Option (Array S)) :
    EndAlike broken Eq (sumParts f parts sum) (sumParts g parts sum) := by
  refine EndAlike.foldlM (r := Eq) (q := Eq) ?_ (List.forall₂_eq_eq_eq ▸ rfl) rfl
  rintro part _ sum _ rfl rfl
  rcases sum with _ | sum
  · exact .ok rfl
  · refine (h part).bind ?_
    rintro r _ rfl
    exact .of_eq rfl

/-- A sum has what its terms have if adding keeps it. -/
theorem exists_sumParts [Add S] {P : Array S → Prop}
    (hadd : ∀ {a b}, P a → P b → P (Array.zipWith (· + ·) a b))
    (h : ∀ part ∈ parts, ∃ r, f part = .ok r ∧ ∀ values, r = some values → P values)
    {sum : Array S} (hsum : P sum) :
    ∃ r, sumParts f parts (some sum) = .ok r ∧ ∀ values, r = some values → P values := by
  induction parts generalizing sum with
  | nil => exact ⟨some sum, rfl, fun values hv => Option.some.inj hv ▸ hsum⟩
  | cons part parts ih =>
    obtain ⟨r, hr, hvalues⟩ := h part List.mem_cons_self
    rw [sumParts_cons hr]
    rcases r with _ | values
    · exact ⟨none, sumParts_none, fun _ hv => by contradiction⟩
    · exact ih (fun p hp => h p (List.mem_cons_of_mem part hp)) (hadd hsum (hvalues values rfl))

/-- The sum is taken for each variable. -/
theorem sumParts_eq_some {f : α → Except Fault (Option (Array ℚ))} {g : α → Array ℚ}
    (h : ∀ part ∈ parts, f part = .ok (some (g part)) ∧ (g part).size = k) {sum : Array ℚ}
    (hsum : sum.size = k) : sumParts f parts (some sum) = .ok (some (Array.ofFn fun v : Fin k =>
      sum.getD v 0 + (parts.map fun part => (g part).getD v 0).sum)) := by
  induction parts generalizing sum with
  | nil =>
    refine congrArg (Except.ok ∘ some) (Array.ext (by simpa using hsum) fun i h₁ h₂ => ?_)
    simp [Array.getD, h₁]
  | cons part parts ih =>
    obtain ⟨hf, hsize⟩ := h part List.mem_cons_self
    have hzip : (Array.zipWith (· + ·) sum (g part)).size = k := by
      rw [Array.size_zipWith, hsum, hsize, Nat.min_self]
    rw [sumParts_cons hf, Option.map_some, ih (fun p hp => h p (List.mem_cons_of_mem part hp)) hzip]
    refine congrArg (Except.ok ∘ some ∘ Array.ofFn) (funext fun v => ?_)
    have hv := v.isLt
    rw [List.map_cons, List.sum_cons, ← add_assoc]
    simp [Array.getD, hsum, hsize]

/-- Nothing is found if nothing is found for one part. -/
theorem sumParts_eq_none [Add S] (hall : ∀ part ∈ parts, ∃ r, f part = .ok r) {part : α}
    (hmem : part ∈ parts) (hnone : f part = .ok none) (sum : Array S) :
    sumParts f parts (some sum) = .ok none := by
  induction parts generalizing sum with
  | nil => contradiction
  | cons first parts ih =>
    obtain ⟨r, hr⟩ := hall first List.mem_cons_self
    rw [sumParts_cons hr]
    cases r with
    | none => exact sumParts_none
    | some values =>
      refine ih (fun p hp => hall p (List.mem_cons_of_mem first hp)) ?_ _
      rcases List.mem_cons.1 hmem with rfl | hmem
      · rw [hr] at hnone
        cases Except.ok.inj hnone
      · exact hmem

end SumParts

/-! ## Means over parts -/

/-- The mean of what is found for the parts, if something is found for all. -/
def meanOfParts [Scalar S] (variableCount : Nat)
    (f : ChildPosition D → Except Fault (Option (Array S))) : Except Fault (Option (Array S)) :=
  Option.map (Array.map (· * (Scalar.ofNat 1 / Scalar.ofNat (2 ^ D)))) <$>
    sumParts f (ChildPosition.all D) (some (Array.replicate variableCount (Scalar.ofNat 0)))

/-- One cut of a restriction: the mean of what is found for the parts of a box. -/
def cutMean (D : Nat) [Scalar S] (variableCount : Nat)
    (f : Point S → S → Except Fault (Option (Array S))) (x : Point S) (length : S) :
    Except Fault (Option (Array S)) :=
  meanOfParts (D := D) variableCount fun part => f (x.mapAxes D fun d p =>
      if part.isPositive d then p + Scalar.quarter * length else p - Scalar.quarter * length)
    (Scalar.half * length)

section MeanOfParts

variable {k : Nat}

theorem endAlike_meanOfParts [Scalar S] {broken : Set Fault}
    {f g : ChildPosition D → Except Fault (Option (Array S))}
    (h : ∀ part, EndAlike broken Eq (f part) (g part)) :
    EndAlike broken Eq (meanOfParts k f) (meanOfParts k g) := by
  unfold meanOfParts
  rw [map_eq_pure_bind, map_eq_pure_bind]
  refine (endAlike_sumParts h _).bind ?_
  rintro r _ rfl
  exact .of_eq rfl

/-- A mean has what its terms have if adding and scaling keep it. -/
theorem exists_meanOfParts [Scalar S] {f : ChildPosition D → Except Fault (Option (Array S))}
    {P : Array S → Prop} (hzeros : P (Array.replicate k (Scalar.ofNat 0)))
    (hadd : ∀ {a b}, P a → P b → P (Array.zipWith (· + ·) a b))
    (hscale : ∀ {a}, P a → P (a.map (· * (Scalar.ofNat 1 / Scalar.ofNat (2 ^ D)))))
    (h : ∀ part, ∃ r, f part = .ok r ∧ ∀ values, r = some values → P values) :
    ∃ r, meanOfParts k f = .ok r ∧ ∀ values, r = some values → P values := by
  obtain ⟨r, hr, hvalues⟩ := exists_sumParts hadd (fun part (_ : part ∈ ChildPosition.all D) =>
    h part) hzeros
  unfold meanOfParts
  rw [hr]
  rcases r with _ | sum
  · exact ⟨none, rfl, fun _ hv => by contradiction⟩
  · exact ⟨_, rfl, fun values hv => Option.some.inj hv ▸ hscale (hvalues sum rfl)⟩

theorem meanOfParts_eq_none [Scalar S] {f : ChildPosition D → Except Fault (Option (Array S))}
    (hall : ∀ part, ∃ r, f part = .ok r) {part : ChildPosition D} (hnone : f part = .ok none) :
    meanOfParts k f = .ok none := by
  have hmem : part ∈ ChildPosition.all D := List.mem_finRange part
  unfold meanOfParts
  rw [sumParts_eq_none (fun p _ => hall p) hmem hnone]
  rfl

/-- The mean is taken for each variable. -/
theorem meanOfParts_eq_some {f : ChildPosition D → Except Fault (Option (Array ℚ))}
    {g : ChildPosition D → Array ℚ} (h : ∀ part, f part = .ok (some (g part)) ∧ (g part).size = k) :
    meanOfParts k f = .ok (some (Array.ofFn fun v : Fin k =>
      (∑ part, (g part).getD v 0) / 2 ^ D)) := by
  unfold meanOfParts
  rw [sumParts_eq_some (fun part _ => h part) Array.size_replicate]
  refine congrArg (Except.ok ∘ some) (Array.ext (by simp) fun v h₁ h₂ => ?_)
  have hzero : (Array.replicate k (Scalar.ofNat 0 : ℚ)).getD v 0 = 0 := by
    rw [Array.getD_eq_getD_getElem?, Array.getElem?_replicate]
    split <;> rfl
  have hsum : ((ChildPosition.all D).map fun part => (g part).getD v 0).sum =
      ∑ part, (g part).getD v 0 := by
    rw [ChildPosition.all, ← List.ofFn_eq_map, List.sum_ofFn]
  have hweight : (Scalar.ofNat 1 / Scalar.ofNat (2 ^ D) : ℚ) = 1 / 2 ^ D :=
    congrArg (1 / ·) (Nat.cast_pow 2 D)
  rw [Array.getElem_map, Array.getElem_ofFn, Array.getElem_ofFn, hzero, zero_add, hsum, hweight,
    mul_one_div]

end MeanOfParts

namespace Mesh

/-! ## One cut -/

/-- No stored form has more levels than a restriction may make cuts. -/
theorem maxLevel_le_mostHalvings [LawfulLocation L] [Scalar S] : maxLevel L ≤ mostHalvings S :=
  LawfulLocation.maxLevel_lt.le.trans (Nat.le_add_right _ _)

section Cut

variable [Scalar S] [Dimension D] {mesh : Mesh D L S} {x : Point S} {length : S} {n : Nat}

theorem restrictWithin_of_none (h : mesh.leafContaining x = none) :
    mesh.restrictWithin n x length = .ok none := by
  unfold restrictWithin
  rw [h]
  rfl

theorem restrictWithin_of_tile?_eq_none {leaf : mesh.tree.Node}
    (h : mesh.leafContaining x = some leaf) (ht : mesh.tile? leaf = none) :
    mesh.restrictWithin n x length = .ok none := by
  unfold restrictWithin
  simp only [h, ht]
  rfl

/-- The values of the internal cell of a tile over a point, if there is one. -/
def readCell (tile : Tile D S) (x : Point S) : Except Fault (Option (Array S)) :=
  tile.internalCellContaining x >>= fun r => r.elim (pure none) fun c => some <$> tile.get c

/-- A box no larger than the cell under its centre is read from that cell. -/
theorem restrictWithin_eq_readCell {leaf : mesh.tree.Node} {tile : Tile D S}
    (h : mesh.leafContaining x = some leaf) (ht : mesh.tile? leaf = some tile)
    (hlt : Scalar.lt (Scalar.threeQuarters * length) tile.cellLength = true) :
    mesh.restrictWithin n x length = readCell tile x := by
  unfold restrictWithin readCell
  simp only [h, ht, hlt, if_true]
  rcases tile.internalCellContaining x with _ | _ | c <;> rfl

theorem restrictWithin_of_lt {leaf : mesh.tree.Node} {tile : Tile D S}
    (h : mesh.leafContaining x = some leaf) (ht : mesh.tile? leaf = some tile)
    (hlt : Scalar.lt (Scalar.threeQuarters * length) tile.cellLength = true) {c : Cell D}
    (hc : tile.internalCellContaining x = .ok (some c)) :
    mesh.restrictWithin n x length = some <$> tile.get c := by
  rw [restrictWithin_eq_readCell h ht hlt, readCell, hc]
  rfl

/-- Where no more cuts are allowed, a larger box is refused. -/
theorem restrictWithin_zero {leaf : mesh.tree.Node} {tile : Tile D S}
    (h : mesh.leafContaining x = some leaf) (ht : mesh.tile? leaf = some tile)
    (hlt : Scalar.lt (Scalar.threeQuarters * length) tile.cellLength = false) :
    mesh.restrictWithin 0 x length = .error .unresolvedBox := by
  unfold restrictWithin
  simp only [h, ht, hlt, Bool.false_eq_true, if_false]
  rfl

/-- A box larger than the cell under its centre is cut. -/
theorem restrictWithin_of_not_lt {leaf : mesh.tree.Node} {tile : Tile D S}
    (h : mesh.leafContaining x = some leaf) (ht : mesh.tile? leaf = some tile)
    (hlt : Scalar.lt (Scalar.threeQuarters * length) tile.cellLength = false) :
    mesh.restrictWithin (n + 1) x length =
      cutMean D tile.state.variableCount (mesh.restrictWithin n) x length := by
  rw [restrictWithin, cutMean, meanOfParts, map_eq_pure_bind]
  simp only [h, ht, hlt, Bool.false_eq_true, if_false]
  refine congrArg₂ (· >>= ·) rfl (funext fun sum => ?_)
  cases sum <;> rfl

/-- A box is resolved as it is, however many cuts are allowed, or there is a smaller cell under its
centre. -/
theorem restrictWithin_eq_or (mesh : Mesh D L S) (x : Point S) (length : S) :
    (∃ r, ∀ n, mesh.restrictWithin n x length = r) ∨ ∃ leaf tile,
      mesh.leafContaining x = some leaf ∧ mesh.tile? leaf = some tile ∧
        Scalar.lt (Scalar.threeQuarters * length) tile.cellLength = false := by
  rcases hleaf : mesh.leafContaining x with _ | leaf
  · exact .inl ⟨_, fun n => restrictWithin_of_none hleaf⟩
  · rcases htile : mesh.tile? leaf with _ | tile
    · exact .inl ⟨_, fun n => restrictWithin_of_tile?_eq_none hleaf htile⟩
    · cases hlt : Scalar.lt (Scalar.threeQuarters * length) tile.cellLength with
      | true => exact .inl ⟨_, fun n => restrictWithin_eq_readCell hleaf htile hlt⟩
      | false => exact .inr ⟨leaf, tile, rfl, htile, hlt⟩

/-- Where the cuts that are allowed resolve a box, more of them change nothing. -/
theorem endAlike_restrictWithin (k : Nat) : EndAlike {.unresolvedBox} Eq
    (mesh.restrictWithin n x length) (mesh.restrictWithin (n + k) x length) := by
  induction n generalizing x length with
  | zero =>
    obtain ⟨r, hr⟩ | ⟨leaf, tile, hleaf, htile, hlt⟩ := mesh.restrictWithin_eq_or x length
    · exact .of_eq ((hr _).trans (hr _).symm)
    · rw [restrictWithin_zero hleaf htile hlt]
      exact .broken _ rfl
  | succ n ih =>
    obtain ⟨r, hr⟩ | ⟨leaf, tile, hleaf, htile, hlt⟩ := mesh.restrictWithin_eq_or x length
    · exact .of_eq ((hr _).trans (hr _).symm)
    · rw [Nat.add_right_comm, restrictWithin_of_not_lt hleaf htile hlt,
        restrictWithin_of_not_lt hleaf htile hlt]
      exact endAlike_meanOfParts fun _ => ih

end Cut

end Mesh

/-! ## Boxes of a grid -/

namespace MeshConfig

variable {config : MeshConfig ℚ}

/-- The numbers of a part of a cell, on the grid of the next level. -/
def partIndex (g : Fin D → ℤ) (part : ChildPosition D) (d : Fin D) : ℤ :=
  2 * g d + (part.isPositive d).toNat

theorem spacing_succ (l : Nat) : config.spacing (l + 1) = 1 / 2 * config.spacing l := by
  rw [config.spacing_add l 1]
  ring

/-- A cell is larger than three quarters of another exactly if its level is no finer. -/
theorem threeQuarters_lt_spacing_iff {l m : Nat} (hs : ∀ k, 0 < config.spacing k) :
    3 / 4 * config.spacing l < config.spacing m ↔ m ≤ l := by
  constructor
  · intro h
    by_contra hlt
    obtain ⟨k, rfl⟩ : ∃ k, m = l + 1 + k := ⟨_, (Nat.add_sub_of_le (not_le.1 hlt)).symm⟩
    have hle : config.spacing (l + 1 + k) ≤ config.spacing (l + 1) := by
      rw [config.spacing_add (l + 1) k]
      exact le_mul_of_one_le_right (hs _).le (one_le_pow₀ one_le_two)
    rw [spacing_succ] at hle
    have := hs l
    linarith
  · intro h
    obtain ⟨k, rfl⟩ := Nat.exists_eq_add_of_le h
    have hle : config.spacing (m + k) ≤ config.spacing m := by
      rw [config.spacing_add m k]
      exact le_mul_of_one_le_right (hs _).le (one_le_pow₀ one_le_two)
    have := hs (m + k)
    linarith

/-- The centre of a part is a quarter of the edge away from the centre of the cell. -/
theorem gridPoint_partIndex [Dimension D] (l : Nat) (g : Fin D → ℤ) (part : ChildPosition D) :
    (config.gridPoint l g).mapAxes D (fun d p => if part.isPositive d
      then p + 1 / 4 * config.spacing l else p - 1 / 4 * config.spacing l) =
        config.gridPoint (l + 1) (partIndex g part) := by
  unfold gridPoint partIndex
  rw [Point.mapAxes_mapAxes]
  refine Point.mapAxes_congr fun d => ?_
  rw [spacing_succ]
  cases part.isPositive d with
  | true => simp; ring
  | false => simp; ring

/-- The point lies in a cell of the grid of a level, whose upper faces do not belong to it. -/
def InBox [Dimension D] (config : MeshConfig ℚ) (l : Nat) (g : Fin D → ℤ) (p : Point ℚ) : Prop :=
  ∀ d, config.gridIndex l p d = g d

section InBox

variable [Dimension D] {l : Nat} {g : Fin D → ℤ} {p q : Point ℚ}

/-- The parts of a cell fill it. -/
theorem inBox_iff_exists_part :
    config.InBox l g p ↔ ∃ part, config.InBox (l + 1) (partIndex g part) p := by
  have hhalf (d : Fin D) : config.gridIndex l p d = config.gridIndex (l + 1) p d / 2 :=
    config.gridIndex_of_add l 1 p d
  constructor
  · intro h
    refine ⟨.ofSides fun d => decide (config.gridIndex (l + 1) p d % 2 = 1), fun d => ?_⟩
    have hd := h d
    rw [hhalf] at hd
    rw [partIndex, ChildPosition.isPositive_ofSides]
    rcases Int.emod_two_eq_zero_or_one (config.gridIndex (l + 1) p d) with hmod | hmod
    · simp [hmod]
      omega
    · simp [hmod]
      omega
  · rintro ⟨part, h⟩ d
    have hd := h d
    have hbit : (part.isPositive d).toNat ≤ 1 := Bool.toNat_le _
    rw [partIndex] at hd
    rw [hhalf]
    omega

/-- A cell lies in the box of a node of its own or a coarser level as a whole or not at all. -/
theorem InBox.liesIn_iff (hp : config.InBox l g p) (hq : config.InBox l g q) {x : L}
    (hl : level x ≤ l) : config.LiesIn p x ↔ config.LiesIn q x := by
  obtain ⟨k, rfl⟩ := Nat.exists_eq_add_of_le hl
  rw [liesIn_iff_of_add k, liesIn_iff_of_add k]
  refine forall_congr' fun d => ?_
  rw [hp d, hq d]

end InBox

end MeshConfig

namespace Mesh

variable {mesh : Mesh D L ℚ}

theorem Built.internalCells_pos (hb : mesh.Built) : 0 < mesh.config.internalCells :=
  Nat.pos_of_ne_zero (MeshConfig.of_validate hb.validate_eq).1.1

theorem Built.spacing_pos (hb : mesh.Built) (l : Nat) : 0 < mesh.config.spacing l :=
  MeshConfig.spacing_pos (MeshConfig.rootLength_pos hb.validate_eq) hb.internalCells_pos l

variable [Dimension D]

theorem Built.inside_internalCellAt (hb : mesh.Built) (l : Nat) (p : Point ℚ) :
    mesh.layout.Inside (mesh.config.internalCellAt l p) := by
  have hn := hb.internalCells_pos
  intro d
  have := MeshConfig.get_internalCellAt (D := D) hn l p d
  have := Int.emod_nonneg (mesh.config.gridIndex l p d) (Int.natCast_ne_zero.2 hn.ne')
  have := Int.emod_lt_of_pos (mesh.config.gridIndex l p d) (Int.natCast_pos.2 hn)
  rw [hb.layout_eq.1, hb.layout_eq.2]
  omega

variable [LawfulLocation L]

/-! ## Nodes over a point -/

section Nodes

variable {t : Tree L} {config : MeshConfig ℚ} {p : Point ℚ}

/-- The leaves of a complete tree lie over every point of the root. -/
theorem exists_leaf_liesIn (ht : t.Valid) (hc : t.Complete) (hn : 0 < config.internalCells)
    (hp : config.InDomain D p) : ∃ b, t.isLeaf b = true ∧ config.LiesIn p (t.location b) := by
  obtain ⟨y, hy, hlies⟩ := hp.exists_liesIn (L := L) hn le_rfl
  obtain ⟨b, hb, hcover⟩ := hc.exists_leaf_covers_deepest ht hy
  exact ⟨b, hb, hlies.of_covers hcover⟩

/-- A leaf over a point is finer than the internal nodes over it. -/
theorem level_lt_of_liesIn (ht : t.Valid) {n b : t.Node} (hn : t.isLeaf n = false)
    (hb : t.isLeaf b = true) (hnp : config.LiesIn p (t.location n))
    (hbp : config.LiesIn p (t.location b)) : t.level n < t.level b := by
  by_contra hle
  rw [ht.eq_of_isLeaf_covers hb (hbp.covers hnp (not_lt.1 hle)), hn] at hb
  contradiction

/-- At most one leaf lies over a point. -/
theorem eq_of_liesIn (ht : t.Valid) {a b : t.Node} (ha : t.isLeaf a = true)
    (hb : t.isLeaf b = true) (hap : config.LiesIn p (t.location a))
    (hbp : config.LiesIn p (t.location b)) : a = b := by
  rcases Nat.le_total (t.level a) (t.level b) with h | h
  · exact ht.eq_of_covers ha hb (hap.covers hbp h) (covers_refl _)
  · exact ht.eq_of_covers ha hb (covers_refl _) (hbp.covers hap h)

end Nodes

/-! ## Boxes of a grid -/

section Grid

variable {l n : Nat} {g : Fin D → ℤ} {b : mesh.tree.Node} {tile : Tile D ℚ}

/-- A box in a cell is read from that cell. -/
theorem restrictWithin_of_level_le (hb : mesh.Built) (ht : mesh.IsTileOf b tile)
    (htile : mesh.tile? b = some tile)
    (hleaf : mesh.leafContaining (mesh.config.gridPoint l g) = some b)
    (hlies : mesh.config.LiesIn (mesh.config.gridPoint l g) (mesh.tree.location b))
    (hlevel : mesh.tree.level b ≤ l) :
    mesh.restrictWithin n (mesh.config.gridPoint l g) (mesh.config.spacing l) =
      some <$> tile.get (mesh.config.internalCellAt (mesh.tree.level b)
        (mesh.config.gridPoint l g)) := by
  refine restrictWithin_of_lt hleaf htile ?_ ?_
  · rw [ht.cellLength_eq hb]
    exact decide_eq_true ((MeshConfig.threeQuarters_lt_spacing_iff hb.spacing_pos).2 hlevel)
  · rw [ht.internalCellContaining_eq hb, if_pos hlies]

/-- A box with a finer leaf under its centre is the sum of boxes of the next level. -/
theorem restrictWithin_of_lt_level (hb : mesh.Built) (ht : mesh.IsTileOf b tile)
    (htile : mesh.tile? b = some tile)
    (hleaf : mesh.leafContaining (mesh.config.gridPoint l g) = some b)
    (hlevel : l < mesh.tree.level b) :
    mesh.restrictWithin (n + 1) (mesh.config.gridPoint l g) (mesh.config.spacing l) =
      meanOfParts mesh.config.variableCount fun part => mesh.restrictWithin n
        (mesh.config.gridPoint (l + 1) (MeshConfig.partIndex g part))
        (mesh.config.spacing (l + 1)) := by
  rw [restrictWithin_of_not_lt hleaf htile, ht.variableCount]
  · have hpart (part : ChildPosition D) := mesh.config.gridPoint_partIndex l g part
    simp only [← hpart, MeshConfig.spacing_succ]
    rfl
  · rw [ht.cellLength_eq hb]
    exact decide_eq_false ((MeshConfig.threeQuarters_lt_spacing_iff hb.spacing_pos).not.2
      (not_le.2 hlevel))

/-- The internal cells have the property, and so has each mean of what has it. -/
structure KeptByMeans (mesh : Mesh D L ℚ) (P : Array ℚ → Prop) : Prop where
  zeros : P (Array.replicate mesh.config.variableCount 0)
  add {a b : Array ℚ} : P a → P b → P (Array.zipWith (· + ·) a b)
  scale {a : Array ℚ} : P a → P (a.map (· * (1 / (2 ^ D : Nat))))
  cell {n : mesh.tree.Node} {tile : Tile D ℚ} {c : Cell D} {values : Array ℚ} :
    mesh.tile? n = some tile → mesh.layout.Inside c → tile.get c = .ok values → P values

omit [LawfulLocation L] in
theorem Built.keptByMeans_size (hb : mesh.Built) :
    mesh.KeptByMeans fun values => values.size = mesh.config.variableCount where
  zeros := Array.size_replicate
  add ha hb := by rw [Array.size_zipWith, ha, hb, Nat.min_self]
  scale ha := by rw [Array.size_map, ha]
  cell htile hc hvalues := by
    obtain ⟨values, hget, hsize⟩ := (hb.isLeaf_of_tile htile).2.exists_get hc.contains
    obtain rfl := Except.ok.inj (hvalues.symm.trans hget)
    exact hsize

variable {P : Array ℚ → Prop}

theorem exists_restrictWithin_of_level_le (ht : mesh.tree.Valid) (hb : mesh.Built)
    (hP : mesh.KeptByMeans P) (hleaf : mesh.leafContaining (mesh.config.gridPoint l g) = some b)
    (hlevel : mesh.tree.level b ≤ l) : ∃ r,
      mesh.restrictWithin n (mesh.config.gridPoint l g) (mesh.config.spacing l) = .ok r ∧
        ∀ values, r = some values → P values := by
  obtain ⟨hb', hlies⟩ := (leafContaining_eq_some_iff ht hb).1 hleaf
  obtain ⟨tile, htile, hof⟩ := hb.exists_tile hb'
  have hinside := hb.inside_internalCellAt (mesh.tree.level b) (mesh.config.gridPoint l g)
  obtain ⟨values, hvalues, -⟩ := hof.exists_get hinside.contains
  refine ⟨some values, ?_, fun _ hv => Option.some.inj hv ▸ hP.cell htile hinside hvalues⟩
  rw [restrictWithin_of_level_le hb hof htile hleaf hlies hlevel, hvalues]
  rfl

/-- Restriction of a box of a grid is not refused if its cuts get down to the deepest leaf, and what
it finds has what the internal cells have, if means keep it. -/
theorem exists_restrictWithin (ht : mesh.tree.Valid) (hb : mesh.Built) (hP : mesh.KeptByMeans P)
    (hn : ∀ b, mesh.tree.isLeaf b = true → mesh.tree.level b ≤ l + n) (g : Fin D → ℤ) : ∃ r,
      mesh.restrictWithin n (mesh.config.gridPoint l g) (mesh.config.spacing l) = .ok r ∧
        ∀ values, r = some values → P values := by
  induction n generalizing l g with
  | zero =>
    rcases hleaf : mesh.leafContaining (mesh.config.gridPoint l g) with _ | b
    · exact ⟨none, restrictWithin_of_none hleaf, fun _ hv => by contradiction⟩
    · have hlevel := hn b ((leafContaining_eq_some_iff ht hb).1 hleaf).1
      exact exists_restrictWithin_of_level_le ht hb hP hleaf hlevel
  | succ n ih =>
    rcases hleaf : mesh.leafContaining (mesh.config.gridPoint l g) with _ | b
    · exact ⟨none, restrictWithin_of_none hleaf, fun _ hv => by contradiction⟩
    · rcases Nat.lt_or_ge l (mesh.tree.level b) with hlt | hle
      · obtain ⟨tile, htile, hof⟩ := hb.exists_tile ((leafContaining_eq_some_iff ht hb).1 hleaf).1
        rw [restrictWithin_of_lt_level hb hof htile hleaf hlt]
        exact exists_meanOfParts hP.zeros hP.add hP.scale fun part =>
          ih (fun b hb' => by have := hn b hb'; omega) (MeshConfig.partIndex g part)
      · exact exists_restrictWithin_of_level_le ht hb hP hleaf hle

/-! ## Means -/

/-- The values are the mean of the leaf cells in a cell of the grid of a level: those of the cell
itself if a leaf has it, else the mean of the means over its parts. -/
inductive IsMean (mesh : Mesh D L ℚ) : Nat → (Fin D → ℤ) → Array ℚ → Prop where
  | cell {n : mesh.tree.Node} {tile : Tile D ℚ} {c : Cell D} {values : Array ℚ} :
    mesh.tile? n = some tile → mesh.layout.Inside c → tile.get c = .ok values →
      IsMean mesh (mesh.tree.level n) (mesh.config.cellIndex (mesh.tree.location n) c) values
  | parts {l : Nat} {g : Fin D → ℤ} {parts : ChildPosition D → Array ℚ} :
    (∀ part, IsMean mesh (l + 1) (MeshConfig.partIndex g part) (parts part)) →
      IsMean mesh l g (Array.ofFn fun v : Fin mesh.config.variableCount =>
        (∑ part, (parts part).getD v 0) / 2 ^ D)

omit [LawfulLocation L] in
theorem Built.inBox_gridPoint (hb : mesh.Built) (l : Nat) (g : Fin D → ℤ) :
    mesh.config.InBox l g (mesh.config.gridPoint l g) :=
  MeshConfig.gridIndex_gridPoint (hb.spacing_pos l) g

/-- Leaves lie over every point of a cell of the grid of a level. -/
def IsCovered (mesh : Mesh D L ℚ) (l : Nat) (g : Fin D → ℤ) : Prop :=
  ∀ p, mesh.config.InBox l g p →
    ∃ b, mesh.tree.isLeaf b = true ∧ mesh.config.LiesIn p (mesh.tree.location b)

omit [LawfulLocation L] in
theorem isCovered_iff_parts : mesh.IsCovered l g ↔
    ∀ part, mesh.IsCovered (l + 1) (MeshConfig.partIndex g part) := by
  constructor
  · exact fun h part p hp => h p (MeshConfig.inBox_iff_exists_part.2 ⟨part, hp⟩)
  · intro h p hp
    obtain ⟨part, hpart⟩ := MeshConfig.inBox_iff_exists_part.1 hp
    exact h part p hpart

/-- Restriction of a cell finds something exactly if leaves cover the cell, and then the mean of the
leaf cells in it. -/
def RestrictsCell (mesh : Mesh D L ℚ) (n l : Nat) (g : Fin D → ℤ) : Prop :=
  ∃ r, mesh.restrictWithin n (mesh.config.gridPoint l g) (mesh.config.spacing l) = .ok r ∧
    (r.isSome = true ↔ mesh.IsCovered l g) ∧
      ∀ values, r = some values → values.size = mesh.config.variableCount ∧ mesh.IsMean l g values

theorem restrictsCell_of_none (ht : mesh.tree.Valid) (hb : mesh.Built)
    (h : mesh.leafContaining (mesh.config.gridPoint l g) = none) : mesh.RestrictsCell n l g := by
  refine ⟨none, restrictWithin_of_none h, ?_, fun _ hv => by contradiction⟩
  refine iff_of_false (by simp) fun hcovered => ?_
  obtain ⟨b, hb'⟩ := hcovered _ (hb.inBox_gridPoint l g)
  rw [(leafContaining_eq_some_iff ht hb).2 hb'] at h
  contradiction

/-- A leaf cell is restricted to what it holds. -/
theorem restrictsCell_of_isLeaf (ht : mesh.tree.Valid) (hb : mesh.Built)
    (hleaf : mesh.tree.isLeaf b = true)
    (hlies : mesh.config.LiesIn (mesh.config.gridPoint (mesh.tree.level b) g)
      (mesh.tree.location b)) : mesh.RestrictsCell n (mesh.tree.level b) g := by
  have hcontaining := (leafContaining_eq_some_iff ht hb).2 ⟨hleaf, hlies⟩
  obtain ⟨tile, htile, hof⟩ := hb.exists_tile hleaf
  have hinside := hb.inside_internalCellAt (mesh.tree.level b)
    (mesh.config.gridPoint (mesh.tree.level b) g)
  obtain ⟨values, hvalues, hsize⟩ := hof.exists_get hinside.contains
  have hmean : mesh.IsMean (mesh.tree.level b) g values := by
    have hall := ((MeshConfig.forall_gridIndex_eq_iff hb.internalCells_pos).2 ⟨hlies, rfl⟩).2
    have hindex : mesh.config.cellIndex (mesh.tree.location b) (mesh.config.internalCellAt
        (mesh.tree.level b) (mesh.config.gridPoint (mesh.tree.level b) g)) = g :=
      funext fun d => (hall d).symm.trans (MeshConfig.gridIndex_gridPoint (hb.spacing_pos _) g d)
    have hcell := IsMean.cell htile hinside hvalues
    rwa [hindex] at hcell
  refine ⟨some values, ?_, iff_of_true rfl fun p hp => ⟨b, hleaf, ?_⟩,
    fun _ hv => Option.some.inj hv ▸ ⟨hsize, hmean⟩⟩
  · rw [restrictWithin_of_level_le hb hof htile hcontaining hlies le_rfl, hvalues]
    rfl
  · exact ((hb.inBox_gridPoint _ g).liesIn_iff hp le_rfl).1 hlies

/-- Under a finer leaf, a cell is restricted from its parts. -/
theorem restrictsCell_of_parts (ht : mesh.tree.Valid) (hb : mesh.Built)
    (hleaf : mesh.leafContaining (mesh.config.gridPoint l g) = some b)
    (hlevel : l < mesh.tree.level b)
    (hparts : ∀ part, mesh.RestrictsCell n (l + 1) (MeshConfig.partIndex g part)) :
    mesh.RestrictsCell (n + 1) l g := by
  obtain ⟨tile, htile, hof⟩ := hb.exists_tile ((leafContaining_eq_some_iff ht hb).1 hleaf).1
  unfold RestrictsCell
  rw [restrictWithin_of_lt_level hb hof htile hleaf hlevel, isCovered_iff_parts]
  choose r hr hcovered hmean using hparts
  by_cases hall : ∀ part, (r part).isSome = true
  · choose values hvalues using fun part => Option.isSome_iff_exists.1 (hall part)
    have hmeans (part : ChildPosition D) := hmean part (values part) (hvalues part)
    rw [meanOfParts_eq_some fun part =>
      ⟨(hr part).trans (congrArg _ (hvalues part)), (hmeans part).1⟩]
    refine ⟨_, rfl, iff_of_true rfl fun part => (hcovered part).1 (hall part), ?_⟩
    intro _ hv
    obtain rfl := Option.some.inj hv
    exact ⟨Array.size_ofFn, .parts fun part => (hmeans part).2⟩
  · obtain ⟨part, hpart⟩ := not_forall.1 hall
    rw [meanOfParts_eq_none (fun p => ⟨r p, hr p⟩)
      ((hr part).trans (congrArg _ (Option.not_isSome_iff_eq_none.1 hpart)))]
    exact ⟨none, rfl, iff_of_false (by simp) fun h => hpart ((hcovered part).2 (h part)),
      fun _ hv => by contradiction⟩

/-- A cell that no coarser leaf lies over is restricted from the leaf cells in it, if leaves cover
it. -/
theorem restrictsCell (ht : mesh.tree.Valid) (hb : mesh.Built) (hn : maxLevel L ≤ l + n)
    (hfine : ∀ b, mesh.tree.isLeaf b = true →
      mesh.config.LiesIn (mesh.config.gridPoint l g) (mesh.tree.location b) →
        l ≤ mesh.tree.level b) : mesh.RestrictsCell n l g := by
  induction n generalizing l g with
  | zero =>
    rcases hcentre : mesh.leafContaining (mesh.config.gridPoint l g) with _ | b
    · exact restrictsCell_of_none ht hb hcentre
    · obtain ⟨hleaf, hlies⟩ := (leafContaining_eq_some_iff ht hb).1 hcentre
      have hdeepest : mesh.tree.level b ≤ maxLevel L := LawfulLocation.level_le _
      obtain rfl : l = mesh.tree.level b := (hfine b hleaf hlies).antisymm (hdeepest.trans hn)
      exact restrictsCell_of_isLeaf ht hb hleaf hlies
  | succ n ih =>
    rcases hcentre : mesh.leafContaining (mesh.config.gridPoint l g) with _ | b
    · exact restrictsCell_of_none ht hb hcentre
    · obtain ⟨hleaf, hlies⟩ := (leafContaining_eq_some_iff ht hb).1 hcentre
      rcases (hfine b hleaf hlies).eq_or_lt with rfl | hlt
      · exact restrictsCell_of_isLeaf ht hb hleaf hlies
      · refine restrictsCell_of_parts ht hb hcentre hlt
          fun part => ih (by omega) fun e he helies => ?_
        -- a leaf over a part that is no finer than the cell would lie over the cell's centre
        by_contra hle
        have hlevel : mesh.tree.level e ≤ l := Nat.le_of_lt_succ (Nat.lt_of_not_le hle)
        have hpart : mesh.config.InBox l g
            (mesh.config.gridPoint (l + 1) (MeshConfig.partIndex g part)) :=
          MeshConfig.inBox_iff_exists_part.2 ⟨part, hb.inBox_gridPoint (l + 1) _⟩
        have hcentre' := (hpart.liesIn_iff (hb.inBox_gridPoint l g) hlevel).1 helies
        rw [eq_of_liesIn ht he hleaf hcentre' hlies] at hlevel
        omega

/-- Over a node of a complete tree, restriction finds the mean of the leaf cells in a cell of the
grid of the node's level. -/
theorem exists_restrictWithin_isMean (ht : mesh.tree.Valid) (hc : mesh.tree.Complete)
    (hb : mesh.Built) {m : mesh.tree.Node} (hn : maxLevel L ≤ mesh.tree.level m + n)
    (hlies : mesh.config.LiesIn (mesh.config.gridPoint (mesh.tree.level m) g)
      (mesh.tree.location m)) : ∃ values,
    mesh.restrictWithin n (mesh.config.gridPoint (mesh.tree.level m) g)
        (mesh.config.spacing (mesh.tree.level m)) = .ok (some values) ∧
      values.size = mesh.config.variableCount ∧ mesh.IsMean (mesh.tree.level m) g values := by
  obtain ⟨r, hr, hcovered, hmean⟩ := restrictsCell ht hb (g := g) hn fun b hleaf hblies => by
    cases hm : mesh.tree.isLeaf m with
    | true => rw [eq_of_liesIn ht hm hleaf hlies hblies]
    | false => exact (level_lt_of_liesIn ht hm hleaf hlies hblies).le
  obtain ⟨values, rfl⟩ := Option.isSome_iff_exists.1 <| hcovered.2 fun p hp => by
    have hlies' := ((hb.inBox_gridPoint _ g).liesIn_iff hp le_rfl).1 hlies
    exact exists_leaf_liesIn ht hc hb.internalCells_pos hlies'.inDomain
  exact ⟨values, hr, hmean values rfl⟩

end Grid

end Mesh

end AdaptiveMesh
