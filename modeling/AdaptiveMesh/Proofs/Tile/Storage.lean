import AdaptiveMesh.Proofs.Tile.Basic
import AdaptiveMesh.Proofs.Tile.Cells

/-!
# Tiles in storage

A cell is stored at the number that has its places as digits, so the cells of a tile and the places
in storage stand for each other wherever a word counts the cells. A box of cells is swept by an
odometer: the first axis that is not at its end goes on by one, and the axes before it start again.
The sweep ends and visits the cells of the box in storage order (`sweeps_boxCells`). `StoresCells`
says so, and that writing one variable of a cell leaves everything else in the tile as it was.
-/

namespace AdaptiveMesh

variable {D : Nat}

/-! ## The odometer -/

/-- Turns the odometer of a box from axis `d` on: the first axis that is not at its end goes on by
one, and those before it start again. Tells whether there was such an axis. -/
def turnFrom (first last : Cell D) (d : Nat) (c : Cell D) : Except Fault (Bool × Cell D) :=
  if h : d < D then
    if c.get ⟨d, h⟩ < last.get ⟨d, h⟩ then do
      return (true, c.set d (← Word.add (c.get ⟨d, h⟩) 1))
    else turnFrom first last (d + 1) (c.set d (first.get ⟨d, h⟩))
  else .ok (false, c)
termination_by D - d

/-- The cells that an odometer visits from a cell on, up to the turn that starts all axes again. -/
inductive Sweeps (first last : Cell D) : Cell D → List (Cell D) → Prop
  | stop {c c' : Cell D} : turnFrom first last 0 c = .ok (false, c') → Sweeps first last c [c]
  | turn {c c' : Cell D} {rest : List (Cell D)} : turnFrom first last 0 c = .ok (true, c') →
      Sweeps first last c' rest → Sweeps first last c (c :: rest)

theorem Sweeps.unique {first last c : Cell D} {cs cs' : List (Cell D)}
    (h : Sweeps first last c cs) (h' : Sweeps first last c cs') : cs = cs' := by
  induction h generalizing cs' with
  | stop hturn =>
    cases h' with
    | stop => rfl
    | turn hturn' => cases hturn.symm.trans hturn'
  | turn hturn _ ih =>
    cases h' with
    | stop hturn' => cases hturn.symm.trans hturn'
    | turn hturn' hrest =>
      cases hturn.symm.trans hturn'
      rw [ih hrest]

/-- Where no axis goes on, all of them start again. -/
theorem get_of_turnFrom {first last c c' : Cell D} {d : Nat}
    (h : turnFrom first last d c = .ok (false, c')) (i : Fin D) :
    c'.get i = if i.val < d then c.get i else first.get i := by
  fun_induction turnFrom first last d c with
  | case1 d c hd hlt =>
    obtain ⟨_, -, h⟩ := bind_eq_ok_iff.1 h
    cases h
  | case2 d c hd hlt ih =>
    rw [ih h]
    rcases Nat.lt_trichotomy i.val d with hi | rfl | hi
    · rw [if_pos (by omega), if_pos hi]
      exact Vector.getElem_set_ne hd i.isLt (by omega)
    · rw [if_pos (Nat.lt_succ_self _), if_neg (Nat.lt_irrefl _)]
      exact Vector.getElem_set_self hd
    · rw [if_neg (by omega), if_neg (by omega)]
  | case3 d c hd =>
    cases h
    rw [if_pos (by omega)]

section Push

variable {first last : Cell (D + 1)} {c c' : Cell D} {x : Nat}

theorem get_push {d : Nat} (hd : d < D) :
    (c.push x).get ⟨d, Nat.lt_succ_of_lt hd⟩ = c.get ⟨d, hd⟩ := Vector.getElem_push_lt hd

theorem get_eq_get_pop {d : Nat} (hd : d < D) :
    first.get ⟨d, Nat.lt_succ_of_lt hd⟩ = first.pop.get ⟨d, hd⟩ := (Vector.getElem_pop hd).symm

/-- The odometer of a box turns that of the lower axes, and the last axis where none of those goes
on. -/
theorem turnFrom_push {d : Nat} (hd : d ≤ D) : turnFrom first last d (c.push x) =
    turnFrom first.pop last.pop d c >>= fun r =>
      if r.1 then .ok (true, r.2.push x) else turnFrom first last D (r.2.push x) := by
  fun_induction turnFrom first.pop last.pop d c with
  | case1 d c hd' hlt =>
    have hd' : d < D := hd'
    rw [turnFrom, dif_pos (by omega), get_push hd', get_eq_get_pop hd', if_pos hlt, bind_assoc]
    refine bind_congr fun y => ?_
    rw [Vector.set_push, dif_pos hd']
    rfl
  | case2 d c hd' hlt ih =>
    have hd' : d < D := hd'
    rw [turnFrom, dif_pos (by omega), get_push hd', get_eq_get_pop hd', if_neg hlt, Vector.set_push,
      dif_pos hd', get_eq_get_pop hd', ih hd']
  | case3 d c hd' =>
    obtain rfl : d = D := by omega
    rfl

theorem turnFrom_push_of_turn (h : turnFrom first.pop last.pop 0 c = .ok (true, c')) :
    turnFrom first last 0 (c.push x) = .ok (true, c'.push x) := by
  rw [turnFrom_push (Nat.zero_le D), h, ok_bind, if_pos rfl]

/-- The last axis goes on up to its end, and starts again there. -/
theorem turnFrom_last (hbound : last.back < Word.bound) : turnFrom first last D (c.push x) =
    .ok (if x < last.back then (true, c.push (x + 1)) else (false, c.push first.back)) := by
  have hget : (c.push x).get ⟨D, Nat.lt_succ_self D⟩ = x := Vector.getElem_push_eq
  have hset (y : Nat) : (c.push x).set D y = c.push y := by
    rw [Vector.set_push, dif_neg (Nat.lt_irrefl D)]
  have hback (c : Cell (D + 1)) : c.get ⟨D, Nat.lt_succ_self D⟩ = c.back := rfl
  rw [turnFrom, dif_pos (Nat.lt_succ_self D), hget, hback, hback, hset]
  split
  · rw [Word.add_eq_ok (by omega), ok_bind, hset]
    rfl
  · rw [turnFrom, dif_neg (Nat.lt_irrefl _)]

theorem turnFrom_push_of_stop (hbound : last.back < Word.bound)
    (h : turnFrom first.pop last.pop 0 c = .ok (false, c')) : turnFrom first last 0 (c.push x) =
      .ok (if x < last.back then (true, first.pop.push (x + 1)) else (false, first)) := by
  have hc' : c' = first.pop := Vector.ext fun i hi => get_of_turnFrom h ⟨i, hi⟩
  have hfirst : c'.push first.back = first := by rw [hc', Vector.push_pop_back]
  rw [turnFrom_push (Nat.zero_le D), h, ok_bind, if_neg Bool.false_ne_true]
  refine (turnFrom_last hbound).trans ?_
  rw [hfirst, hc']

/-! ## Sweeps of a box -/

/-- The last axis stands still while the lower ones sweep their box. -/
theorem Sweeps.push {cs : List (Cell D)} {rest : List (Cell (D + 1))}
    (h : Sweeps first.pop last.pop c cs) (hend : ∀ {c c'}, turnFrom first.pop last.pop 0 c =
      .ok (false, c') → Sweeps first last (c.push x) (c.push x :: rest)) :
    Sweeps first last (c.push x) (cs.map (·.push x) ++ rest) := by
  induction h with
  | stop hturn => exact hend hturn
  | turn hturn _ ih => exact .turn (turnFrom_push_of_turn hturn) ih

theorem closedRange_eq_cons {first last : Nat} (h : first ≤ last) :
    closedRange first last = first :: closedRange (first + 1) last := by
  rw [closedRange, closedRange, ← List.range'_succ]
  congr 1
  omega

/-- From the start of a row on, row after row is swept. -/
theorem sweeps_rows {row : List (Cell D)} (hrow : Sweeps first.pop last.pop first.pop row)
    (hbound : last.back < Word.bound) (n : Nat) (hx : x + n = last.back) :
    Sweeps first last (first.pop.push x)
      ((closedRange x last.back).flatMap fun x => row.map (·.push x)) := by
  -- by the number of rows behind this one
  induction n generalizing x with
  | zero =>
    obtain rfl : x = last.back := hx
    have hend : closedRange (last.back + 1) last.back = [] := by
      rw [closedRange, Nat.sub_self, List.range'_zero]
    rw [closedRange_eq_cons le_rfl, hend, List.flatMap_cons]
    refine hrow.push fun hturn => ?_
    have hstop := turnFrom_push_of_stop (x := last.back) hbound hturn
    rw [if_neg (Nat.lt_irrefl _)] at hstop
    exact .stop hstop
  | succ n ih =>
    rw [closedRange_eq_cons (by omega), List.flatMap_cons]
    refine hrow.push fun hturn => .turn ?_ (ih (by omega))
    rw [turnFrom_push_of_stop hbound hturn, if_pos (by omega)]

end Push

/-- Starting from its lowest corner the odometer of a box visits the cells of the box in their
order. -/
theorem sweeps_boxCells {D : Nat} {first last : Cell D}
    (hle : ∀ d : Fin D, first.get d ≤ last.get d) (hbound : ∀ d : Fin D, last.get d < Word.bound) :
    Sweeps first last first (boxCells first last) := by
  induction D with
  | zero =>
    obtain rfl : first = #v[] := Vector.eq_empty
    have hstop : turnFrom #v[] last 0 #v[] = .ok (false, #v[]) := by
      rw [turnFrom, dif_neg (Nat.lt_irrefl 0)]
    exact .stop hstop
  | succ D ih =>
    have hrow : Sweeps first.pop last.pop first.pop (boxCells first.pop last.pop) :=
      ih (fun d => by simpa using hle d.castSucc) fun d => by simpa using hbound d.castSucc
    have hrows := sweeps_rows hrow (hbound (Fin.last D)) (last.back - first.back)
      (Nat.add_sub_cancel' (hle (Fin.last D)))
    rw [boxCells_succ]
    rwa [Vector.push_pop_back] at hrows

/-! ## Places in storage -/

namespace TileLayout

variable {t : TileLayout D} {c : Cell D} {i : Nat}

/-- The places of a cell are the digits of its place in storage. -/
theorem offset_div_mod (hc : t.Contains c) (d : Fin D) :
    t.offset c / t.extent ^ d.val % t.extent = c.get d := by
  have hpos : 0 < t.extent := Nat.zero_lt_of_lt t.one_lt_extent
  rw [offset, Nat.ofDigits_div_pow_eq_ofDigits_drop _ hpos _ hc.forall_mem,
    List.drop_eq_getElem_cons (by simp), Nat.ofDigits_cons, Nat.add_mul_mod_self_left]
  exact Nat.mod_eq_of_lt (hc d)

variable [Dimension D]

theorem index_eq_ok_iff (h : t.extent ^ D < Word.bound) :
    t.index c = .ok i ↔ t.Contains c ∧ t.offset c = i := by
  constructor
  · intro hi
    obtain ⟨_, hc, -⟩ := bind_eq_ok_iff.1 hi
    have hc := (requireContains_eq_ok_iff (extent_lt_of_pow_lt h)).1 hc
    rw [index_eq_ok h hc] at hi
    exact ⟨hc, Except.ok.inj hi⟩
  · rintro ⟨hc, rfl⟩
    exact index_eq_ok h hc

theorem coordinate_eq_ok_iff (h : t.extent ^ D < Word.bound) :
    t.coordinate i = .ok c ↔ t.Contains c ∧ t.offset c = i := by
  unfold coordinate
  rw [size_eq_ok h, ok_bind]
  rcases Nat.lt_or_ge i (t.extent ^ D) with hi | hi
  · obtain ⟨c', hc', rfl⟩ := exists_offset_eq hi
    have hdigits : (Vector.ofFn fun d : Fin D => t.offset c' / t.extent ^ d.val % t.extent) = c' :=
      Vector.ext fun k hk => by
        rw [Vector.getElem_ofFn]
        exact offset_div_mod hc' ⟨k, hk⟩
    rw [if_neg (Nat.not_le.2 hi), cellsPerLength_eq_ok (extent_lt_of_pow_lt h)]
    change Except.ok (Vector.ofFn _) = _ ↔ _
    rw [hdigits, Except.ok.injEq]
    exact ⟨fun hcc => hcc ▸ ⟨hc', rfl⟩, fun ⟨hc, he⟩ => offset_injective hc' hc he.symm⟩
  · rw [if_pos hi]
    refine iff_of_false (fun h => by cases h) ?_
    rintro ⟨hc, rfl⟩
    exact Nat.not_lt.2 hi (offset_lt hc)

omit [Dimension D] in
/-- The cells of a tile fill the storage from its first place on. -/
theorem map_offset_allCells (t : TileLayout D) :
    t.allCells.map t.offset = List.range (t.extent ^ D) := by
  refine (List.pairwise_map.2 t.pairwise_allCells).eq_of_mem_iff List.pairwise_lt_range fun i => ?_
  simp only [List.mem_map, mem_allCells, List.mem_range]
  exact ⟨fun ⟨c, hc, hi⟩ => hi ▸ offset_lt hc, exists_offset_eq⟩

theorem coordinate_eq_getElem (h : t.extent ^ D < Word.bound) (i : Nat)
    (hi : i < t.allCells.length) : t.coordinate i = .ok t.allCells[i] := by
  refine (coordinate_eq_ok_iff h).2 ⟨mem_allCells.1 (List.getElem_mem hi), ?_⟩
  have := List.getElem_of_eq t.map_offset_allCells (i := i) (by simpa using hi)
  rwa [List.getElem_map, List.getElem_range] at this

end TileLayout

/-! ## Writing -/

namespace Tile.HasRoom

variable [Dimension D] {S : Type} {tile : Tile D S} {c : Cell D} {v : Nat}

/-- One variable of a cell can be written, and reading the cells tells that one from all other
values of the tile. -/
theorem exists_setValue (h : tile.HasRoom) (hc : tile.layout.Contains c)
    (hv : v < tile.state.variableCount) (x : S) : ∃ tile', tile.setValue c v x = .ok tile' ∧
      tile' = { tile with state := tile'.state } ∧ ∀ c', tile.layout.Contains c' →
        ∃ values, tile.get c' = .ok values ∧ values.size = tile.state.variableCount ∧
          tile'.get c' = .ok (if c' = c then values.setIfInBounds v x else values) := by
  obtain ⟨state, hstate⟩ : ∃ state, tile.state.setValue (tile.layout.offset c) v x = .ok state :=
    ⟨_, StateBuffer.setValue_eq_ok_iff.2
      ⟨_, h.holds.start_eq (TileLayout.offset_lt hc), hv, rfl⟩⟩
  have hroom : ({ tile with state } : Tile D S).HasRoom :=
    ⟨h.fits, h.holds.of_sameShape (StateBuffer.sameShape_of_setValue hstate)⟩
  refine ⟨{ tile with state }, ?_, rfl, fun c' hc' => ?_⟩
  · rw [Tile.setValue, h.fits.index hc, ok_bind, hstate]
    rfl
  · obtain ⟨values, hvalues, hsize⟩ := h.exists_get hc'
    refine ⟨values, hvalues, hsize, ?_⟩
    rw [h.get_eq hc'] at hvalues
    have hsame : tile.layout.offset c' = tile.layout.offset c ↔ c' = c :=
      ⟨TileLayout.offset_injective hc' hc, congrArg _⟩
    rw [hroom.get_eq hc', StateBuffer.get_of_setValue hstate hvalues]
    simp only [hsame]

end Tile.HasRoom

/-! ## Faithful storage -/

variable [Dimension D]

/-- How a tile of `size` cells stores them. Cells of the tile and places below `size` stand for each
other. The odometer of a box ends and visits its cells once each, in the order of their places, and
that of the whole tile visits the cells of the places 0, 1, 2 and so on. Writing a variable of a cell
changes no other value of the tile. -/
structure StoresCells (t : TileLayout D) (size : Nat) : Prop where
  index_eq_iff (c : Cell D) (i : Nat) : t.index c = .ok i ↔ t.coordinate i = .ok c
  exists_index_iff (c : Cell D) : (∃ i, t.index c = .ok i) ↔ t.Contains c
  exists_coordinate_iff (i : Nat) : (∃ c, t.coordinate i = .ok c) ↔ i < size
  sweeps (first last : Cell D) : t.Contains first → t.Contains last →
    (∀ d, first.get d ≤ last.get d) → ∃ box, t.cellsBetween first last = .ok box ∧
      (∀ cs, Sweeps first last first cs ↔ cs = box) ∧
      (∀ c, c ∈ box ↔ ∀ d, first.get d ≤ c.get d ∧ c.get d ≤ last.get d) ∧
      box.Nodup ∧ box.Pairwise t.StoredBefore
  sweeps_all : ∃ e all, t.lastCell = .ok e ∧ t.cells = .ok all ∧
    (∀ cs, Sweeps (Vector.replicate D 0) (Vector.replicate D e) (Vector.replicate D 0) cs ↔
      cs = all) ∧
    all.length = size ∧ ∀ (i : Nat) (hi : i < all.length), t.coordinate i = .ok all[i]
  setValue {S : Type} [Scalar S] (tile : Tile D S) : tile.Made → tile.layout = t →
    ∀ c v x, t.Contains c → v < tile.state.variableCount → ∃ tile',
      tile.setValue c v x = .ok tile' ∧ tile' = { tile with state := tile'.state } ∧
      ∀ c', t.Contains c' → ∃ values, tile.get c' = .ok values ∧
        values.size = tile.state.variableCount ∧
        tile'.get c' = .ok (if c' = c then values.setIfInBounds v x else values)

/-- A tile whose cells are counted stores them faithfully. -/
theorem TileLayout.storesCells {t : TileLayout D} {size : Nat} (h : t.size = .ok size) :
    StoresCells t size := by
  obtain ⟨hpow, rfl⟩ := of_size_eq_ok h
  have hextent := extent_lt_of_pow_lt hpow
  have hsweeps {first last : Cell D} (hle : ∀ d : Fin D, first.get d ≤ last.get d)
      (hlast : t.Contains last) (cs : List (Cell D)) :
      Sweeps first last first cs ↔ cs = boxCells first last := by
    have hbox := sweeps_boxCells hle fun d => (hlast d).trans hextent
    exact ⟨fun hcs => hcs.unique hbox, fun hcs => hcs ▸ hbox⟩
  refine ⟨fun c i => ?_, fun c => ?_, fun i => ?_, fun first last hfirst hlast hle => ?_, ?_, ?_⟩
  · rw [index_eq_ok_iff hpow, coordinate_eq_ok_iff hpow]
  · simp only [index_eq_ok_iff hpow, exists_and_left, exists_eq', and_true]
  · simp only [coordinate_eq_ok_iff hpow]
    exact ⟨fun ⟨c, hc, hi⟩ => hi ▸ offset_lt hc, exists_offset_eq⟩
  · refine ⟨boxCells first last, ?_, hsweeps hle hlast, fun c => mem_boxCells, nodup_boxCells _ _,
      pairwise_storedBefore_boxCells hpow hlast⟩
    rw [cellsBetween, (requireBounds_eq_ok_iff hextent).2 ⟨hfirst, hlast, hle⟩]
    rfl
  · have hone := t.one_lt_extent
    exact ⟨t.extent - 1, t.allCells, lastCell_eq_ok hextent, cells_eq_ok hextent,
      hsweeps (fun d => by simp) fun d => by simp; omega, t.length_allCells,
      coordinate_eq_getElem hpow⟩
  · rintro S _ tile hmade rfl c v x hc hv
    exact hmade.hasRoom.exists_setValue hc hv x

/-- A tile of 36 cells, and one with more cells than a signed word counts. -/
theorem storesCells_square_and_line : ∃ (square : TileLayout 2) (line : TileLayout 1),
    square.size = .ok 36 ∧ StoresCells square 36 ∧
      square.index #v[4, 1] = .ok 10 ∧ square.coordinate 10 = .ok #v[4, 1] ∧
      square.cellsBetween #v[4, 0] #v[5, 1] = .ok [#v[4, 0], #v[5, 0], #v[4, 1], #v[5, 1]] ∧
      (∃ tile : Tile 2 ℚ, tile.Made ∧ tile.layout = square) ∧
    line.size = .ok (2 ^ 64 - 1) ∧ StoresCells line (2 ^ 64 - 1) := by
  let square : TileLayout 2 := ⟨4, 1, by decide, by decide⟩
  let line : TileLayout 1 := ⟨2 ^ 64 - 3, 1, by decide, by decide⟩
  have hsquare : square.size = .ok 36 := by decide +kernel
  have hline : line.size = .ok (2 ^ 64 - 1) := by decide +kernel
  let tile : Tile 2 ℚ := {
    node := 0
    level := 0
    box := ⟨#v[1, 1, 0], 2⟩
    layout := square
    state := ⟨2, Array.replicate 72 0, by decide⟩ }
  have hmade : tile.Made := Tile.made_of_size rfl (by decide +kernel)
  exact ⟨square, line, hsquare, TileLayout.storesCells hsquare, by decide +kernel,
    by decide +kernel, by decide +kernel, ⟨tile, hmade, rfl⟩, hline, TileLayout.storesCells hline⟩

end AdaptiveMesh
