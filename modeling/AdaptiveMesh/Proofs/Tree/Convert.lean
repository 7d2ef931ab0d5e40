import AdaptiveMesh.Proofs.Location.Convert
import AdaptiveMesh.Proofs.Tree.Read

/-!
# Trees in another stored form

The record of a tree says nothing of how its locations are stored. So the bytes of a tree can be
read in any stored form that is deep enough for its nodes, and give the tree of the converted nodes;
a form that is not names the first node that is too deep for it.
-/

namespace AdaptiveMesh

open LocationCode

variable {D : Nat} {L M : Type} [LocationCode D L] [LocationCode D M]

namespace Tree

open TreeRecord

/-! ## All nodes -/

/-- Each node of the one tree, converted, is the node of the other with the same index. -/
structure ConvertsTo (t : Tree L) (u : Tree M) : Prop where
  size : u.size = t.size
  convert (i : Nat) (h : i < t.size) (h' : i < u.size) :
    LocationCode.convert M t.locations[i] = .ok u.locations[i]

variable {t : Tree L} {u : Tree M}

theorem ConvertsTo.lt (h : t.ConvertsTo u) {i : Nat} (hi : i < u.size) : i < t.size := by
  rwa [← h.size]

theorem describes_iff_convertsTo [LawfulLocation M] :
    t.toRecord.Describes u.locations.toList ↔ t.ConvertsTo u := by
  have ht := describes_toRecord t
  constructor
  · intro hu
    refine ⟨hu.length.trans ht.length.symm, fun i h h' => convert_eq_ok_iff.2 ⟨?_, ?_⟩⟩
    · exact (hu.level i h').trans (ht.level i h).symm
    · exact (hu.coordinates i h').trans (ht.coordinates i h).symm
  · intro h
    have hconvert (i : Nat) (hi : i < u.size) := convert_eq_ok_iff.1 (h.convert i (h.lt hi) hi)
    refine ⟨h.size.trans ht.length, fun i hi => ?_, fun i hi => ?_⟩
    · exact (hconvert i hi).1.trans (ht.level i (h.lt hi))
    · exact (hconvert i hi).2.trans (ht.coordinates i (h.lt hi))

section

variable [LawfulLocation L] [LawfulLocation M]

theorem exists_convertsTo (h : ∀ n : t.Node, t.level n ≤ LocationCode.maxLevel M) :
    ∃ u : Tree M, t.ConvertsTo u := by
  obtain ⟨ys, hys⟩ := exists_mapM_eq_ok (LocationCode.convert M) t.locations.toList fun x hx => by
    obtain ⟨n, rfl⟩ := mem_locations_iff.1 (Array.mem_toList_iff.1 hx)
    exact exists_convert (h n)
  obtain ⟨hlen, hconvert⟩ := mapM_eq_ok_iff_getElem.1 hys
  exact ⟨⟨ys.toArray⟩, hlen, fun i h _ => hconvert i h⟩

/-- Being a tree is a matter of levels and coordinates. -/
theorem ConvertsTo.valid_of_valid (h : t.ConvertsTo u) (ht : t.Valid) : u.Valid where
  root_first := by
    obtain ⟨hsize, hroot⟩ := Array.getElem?_eq_some_iff.1 ht.root_first
    have hu : 0 < u.size := by rwa [h.size]
    refine Array.getElem?_eq_some_iff.2 ⟨hu, eq_root_iff.2 ?_⟩
    rw [(convert_eq_ok_iff.1 (h.convert 0 hsize hu)).1, hroot, level_root]
  ascending := by
    rw [List.pairwise_iff_getElem]
    intro i j hi hj hij
    have hcompare := compare_convert (h.convert i (h.lt hi) hi) (h.convert j (h.lt hj) hj)
    exact hcompare.trans (List.pairwise_iff_getElem.1 ht.ascending i j (h.lt hi) (h.lt hj) hij)
  closed := by
    intro y hy z hz
    obtain ⟨i, hi, rfl⟩ := Array.mem_iff_getElem.1 hy
    have hi' : i < t.locations.size := h.lt hi
    have hconvert := h.convert i hi' hi
    -- the node that is converted has a parent too, which the tree holds
    obtain ⟨p, hp⟩ : ∃ p, LocationCode.parent? t.locations[i] = some p := by
      rw [← Option.ne_none_iff_exists', Ne, parent?_eq_none_iff,
        ← (convert_eq_ok_iff.1 hconvert).1, ← parent?_eq_none_iff, hz]
      exact Option.some_ne_none z
    obtain ⟨j, hj, rfl⟩ := Array.mem_iff_getElem.1 (ht.closed _ (Array.getElem_mem _) p hp)
    have hj' : j < u.size := by rwa [h.size]
    have hparent := (parent?_convert hconvert (h.convert j hj hj')).2 hp
    obtain rfl := Option.some.inj (hz.symm.trans hparent)
    exact Array.getElem_mem hj'

/-! ## The bytes -/

omit [LawfulLocation L] [LawfulLocation M] in
/-- The coordinates of a tree in memory can be counted: a signed word counts the bytes of its array,
and every stored form takes a byte for at most two coordinates. -/
theorem size_mul_lt_bound (hbytes : D ≤ 2 * LocationCode.byteSize L)
    (harray : t.size * LocationCode.byteSize L < 2 ^ (Word.width - 1)) :
    t.size * D < Word.bound :=
  calc t.size * D ≤ t.size * (2 * LocationCode.byteSize L) := Nat.mul_le_mul_left _ hbytes
    _ = 2 * (t.size * LocationCode.byteSize L) := Nat.mul_left_comm _ _ _
    _ < 2 * 2 ^ (Word.width - 1) := Nat.mul_lt_mul_of_pos_left harray Nat.two_pos
    _ = Word.bound := by decide

omit [LawfulLocation M] in
/-- Every level and coordinate of a tree fits its bytes, and so do both counts if the coordinates
can be counted. -/
theorem fits_toRecord [Dimension D] (hfit : t.size * D < Word.bound) : t.toRecord.Fits where
  version := show currentVersion < 256 ^ 4 by decide
  dimension := show D < 256 ^ 4 from Nat.lt_of_le_of_lt Dimension.le_three (by decide)
  length_levels := by
    rw [toRecord, List.length_map]
    exact Nat.lt_of_le_of_lt (Nat.le_mul_of_pos_right t.size Dimension.pos) hfit
  levels l hl := by
    obtain ⟨x, -, rfl⟩ := List.mem_map.1 hl
    exact Nat.lt_trans (level_lt_width x) (by decide)
  length_coordinates := by
    rw [toRecord, length_flatMap_coordinates]
    exact hfit
  coordinates c hc := by
    obtain ⟨x, -, hc⟩ := List.mem_flatMap.1 hc
    obtain ⟨d, hd, rfl⟩ := List.mem_iff_getElem.1 hc
    rw [Vector.length_toList] at hd
    have hlt : place x ⟨d, hd⟩ < 256 ^ 8 :=
      calc place x ⟨d, hd⟩ < 2 ^ LocationCode.level x := LawfulLocation.place_lt x _
        _ ≤ 2 ^ Word.width := Nat.pow_le_pow_right (by decide) (level_lt_width x).le
        _ = 256 ^ 8 := by decide
    exact hlt

theorem ConvertsTo.stores (h : t.ConvertsTo u) (ht : t.Valid) : t.toRecord.Stores u :=
  stores_iff.2 ⟨hasHead_toRecord t, describes_iff_convertsTo.2 h, h.valid_of_valid ht⟩

omit [LawfulLocation L] [LawfulLocation M] in
theorem levelAt_toRecord (n : t.Node) : t.toRecord.levelAt n = t.level n :=
  ((describes_toRecord t).level n n.isLt).symm

omit [LawfulLocation M] in
theorem inRange_toRecord_iff {n : t.Node} :
    t.toRecord.InRange M n ↔ t.level n ≤ LocationCode.maxLevel M := by
  constructor
  · exact fun h => levelAt_toRecord n ▸ h.level_le
  · intro h
    refine ⟨levelAt_toRecord n ▸ h, fun d => ?_⟩
    rw [← (describes_toRecord t).coordinates n n.isLt, levelAt_toRecord]
    exact LawfulLocation.place_lt (t.location n) d

omit [LawfulLocation M] in
/-- The first node that is too deep is the first fault. -/
theorem firstFault_toRecord {n : t.Node} (hn : LocationCode.maxLevel M < t.level n)
    (hbefore : ∀ m < n, t.level m ≤ LocationCode.maxLevel M) : t.toRecord.FirstFault M
      (.levelOutOfRange n (t.level n) (LocationCode.maxLevel M)) := by
  rw [← levelAt_toRecord]
  refine .level (hasHead_toRecord t) ?_ (fun j hj => ?_) (levelAt_toRecord n ▸ hn)
  · rw [← (describes_toRecord t).length]
    exact n.isLt
  · exact inRange_toRecord_iff (n := ⟨j, Nat.lt_trans hj n.isLt⟩).2 (hbefore _ hj)

/-- A valid tree whose coordinates can be counted in a word is written, and what is written, with
any bytes behind it, is read in a stored form as the tree of the converted nodes, or refused for the
first node that is too deep. In the form it came from it is the tree itself again, and converted
trees are written alike. -/
theorem toBytes_read_as [Dimension D] (ht : t.Valid) (hfit : t.size * D < Word.bound) :
    ∃ bytes, t.toBytes = .ok bytes ∧
      (∀ rest, (∀ n : t.Node, t.level n ≤ LocationCode.maxLevel M) →
        ∃ u : Tree M, ofBytes M (bytes ++ rest) = .ok u ∧ t.ConvertsTo u) ∧
      (∀ rest (n : t.Node), LocationCode.maxLevel M < t.level n →
        (∀ m < n, t.level m ≤ LocationCode.maxLevel M) → ofBytes M (bytes ++ rest) =
          .error (.levelOutOfRange n (t.level n) (LocationCode.maxLevel M))) ∧
      (∀ rest, ofBytes L (bytes ++ rest) = .ok t) ∧
      ∀ u : Tree M, t.ConvertsTo u → u.toBytes = .ok bytes := by
  have hfront (rest : Bytes) : t.toRecord.IsFrontOf (t.toRecord.toBytes ++ rest) :=
    ⟨fits_toRecord hfit, List.prefix_append _ _⟩
  refine ⟨t.toRecord.toBytes, ht.toBytes_eq, fun rest hlevels => ?_, fun rest n hn hbefore => ?_,
    fun rest => ?_, fun u hu => ?_⟩
  · obtain ⟨u, hu⟩ := exists_convertsTo hlevels
    exact ⟨u, ofBytes_eq_ok_iff.2 ⟨_, hfront rest, hu.stores ht⟩, hu⟩
  · exact ofBytes_eq_error_iff.2 (Or.inr ⟨_, hfront rest, firstFault_toRecord hn hbefore⟩)
  · exact ofBytes_eq_ok_iff.2 ⟨_, hfront rest,
      stores_iff.2 ⟨hasHead_toRecord t, describes_toRecord t, ht⟩⟩
  · rw [(hu.valid_of_valid ht).toBytes_eq,
      toRecord_eq (hasHead_toRecord t) (describes_iff_convertsTo.2 hu)]

end

/-- The squares at one corner of the root, of levels 0 to 16. -/
def spike : Tree (GridLocation 2) where
  locations := ((List.finRange 17).map fun l : Fin 17 =>
    GridLocation.ofCoordinates (Vector.replicate 2 0) l (by omega) (by simp)).toArray

/-- A code of 32 bits ends at level 15, and one of 64 bits at level 31. -/
theorem toBytes_read_as_spike : Dimension 2 ∧ spike.Valid ∧ spike.size * 2 < Word.bound ∧
    ∃ bytes, spike.toBytes = .ok bytes ∧
      ofBytes (MortonLocation 2 32) (bytes ++ [255]) = .error (.levelOutOfRange 16 16 15) ∧
      ofBytes (GridLocation 2) (bytes ++ [255]) = .ok spike ∧
      ∃ u : Tree (MortonLocation 2 64), ofBytes (MortonLocation 2 64) (bytes ++ [255]) = .ok u ∧
        spike.ConvertsTo u ∧ u.toBytes = .ok bytes := by
  have hvalid : spike.Valid := by decide +kernel
  have hfit : spike.size * 2 < Word.bound := size_mul_lt_bound (by decide) (by decide +kernel)
  have hdeep : ∀ n : spike.Node, spike.level n ≤ 31 := by decide +kernel
  have hlast : 15 < spike.level ⟨16, by decide⟩ := by decide +kernel
  have hbefore : ∀ m : spike.Node, m < ⟨16, by decide⟩ → spike.level m ≤ 15 := by decide +kernel
  obtain ⟨bytes, hbytes, -, hrefused, hsame, -⟩ :=
    toBytes_read_as (M := MortonLocation 2 32) hvalid hfit
  obtain ⟨bytes', hbytes', hread, -, -, hagain⟩ :=
    toBytes_read_as (M := MortonLocation 2 64) hvalid hfit
  obtain rfl := Except.ok.inj (hbytes.symm.trans hbytes')
  obtain ⟨u, hu, hconverts⟩ := hread [255] hdeep
  exact ⟨inferInstance, hvalid, hfit, bytes, hbytes, hrefused [255] _ hlast hbefore, hsame [255], u,
    hu, hconverts, hagain u hconverts⟩

end Tree

end AdaptiveMesh
