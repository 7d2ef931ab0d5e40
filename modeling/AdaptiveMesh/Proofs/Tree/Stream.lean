import AdaptiveMesh.Proofs.Tree.Record
import AdaptiveMesh.Proofs.Word

/-!
# Writing trees

Writing never refuses a valid tree. What it writes is the record of the tree, the only one in its
dimension that describes the nodes of the tree.
-/

namespace AdaptiveMesh

open LocationCode

variable {D : Nat} {L : Type} [LocationCode D L]

/-! ## Writing -/

/-- Neighbours of a list are related if all its entries are. -/
theorem all_zip_tail {α : Type} {p : α → α → Bool} {xs : List α}
    (h : xs.Pairwise fun x y => p x y = true) :
    ((xs.zip xs.tail).all fun z => p z.1 z.2) = true := by
  match xs with
  | [] => rfl
  | [x] => rfl
  | x :: y :: xs =>
    obtain ⟨hx, hy⟩ := List.pairwise_cons.1 h
    have ih := all_zip_tail hy
    rw [List.tail_cons] at ih ⊢
    rw [List.zip_cons_cons, List.all_cons, hx y List.mem_cons_self, ih]
    rfl

namespace Tree

variable {t : Tree L}

namespace Valid

theorem isSorted (ht : t.Valid) : t.isSorted = true :=
  all_zip_tail (p := fun x y => (compare x y).isLE) (ht.ascending.imp fun h => by rw [h]; rfl)

/-- On an ascending array putting in order changes nothing. -/
theorem isCompact [LawfulLocation L] (ht : t.Valid) : t.isCompact = true := by
  have hsort : (t.locations.toList.mergeSort fun x y => (compare x y).isLE) = t.locations.toList :=
    List.mergeSort_of_pairwise (ht.ascending.imp fun h => by rw [h]; rfl)
  rw [Tree.isCompact, hsort]
  refine all_zip_tail (p := fun x y => decide (x ≠ y)) (ht.ascending.imp fun h => ?_)
  rw [decide_eq_true_eq]
  exact ne_of_compare_lt h

theorem toBytes_eq [LawfulLocation L] (ht : t.Valid) : t.toBytes = .ok t.toRecord.toBytes := by
  rw [Tree.toBytes, ht.isCompact, ht.isSorted]
  rfl

end Valid

/-! ## The record of a tree -/

theorem length_coordinates (x : L) : (coordinates x).toList.length = D := Vector.length_toList

theorem length_flatMap_coordinates (xs : List L) :
    (xs.flatMap fun x => (coordinates x).toList).length = xs.length * D := by
  simp [List.length_flatMap]

/-- The coordinates of a node stand in one block, behind those of the nodes before it. -/
theorem getElem?_flatMap_coordinates (xs : List L) (i : Nat) (d : Fin D) :
    (xs.flatMap fun x => (coordinates x).toList)[i * D + d]? =
      xs[i]?.map fun x => (coordinates x).get d := by
  induction xs generalizing i with
  | nil => simp
  | cons x xs ih =>
    rw [List.flatMap_cons]
    cases i with
    | zero =>
      rw [Nat.zero_mul, Nat.zero_add, List.getElem?_append_left (by simp)]
      simp
    | succ i =>
      have hskip : (i + 1) * D + d - D = i * D + d := by
        rw [Nat.succ_mul]
        omega
      rw [List.getElem?_append_right (by rw [length_coordinates, Nat.succ_mul]; omega),
        length_coordinates, hskip, ih, List.getElem?_cons_succ]

theorem hasHead_toRecord (t : Tree L) : t.toRecord.HasHead D where
  version := rfl
  dimension := rfl
  count := by
    rw [toRecord, length_flatMap_coordinates, List.length_map]

theorem describes_toRecord (t : Tree L) : t.toRecord.Describes t.locations.toList where
  length := (List.length_map _).symm
  level i h := by
    simp [TreeRecord.levelAt, toRecord, List.getD_eq_getElem?_getD, List.getElem?_eq_getElem h]
  coordinates i h := by
    ext d hd
    have := getElem?_flatMap_coordinates t.locations.toList i ⟨d, hd⟩
    simp [TreeRecord.placeAt, toRecord, List.getD_eq_getElem?_getD, this,
      List.getElem?_eq_getElem h]

/-- A record of `D` coordinates a node that describes a tree is the tree's own. -/
theorem toRecord_eq [Dimension D] {r : TreeRecord} (hhead : r.HasHead D)
    (hxs : r.Describes t.locations.toList) : t.toRecord = r := by
  obtain ⟨version, dimension, levels, coords⟩ := r
  obtain ⟨hversion, hdimension, hcount⟩ := hhead
  have hlevels : t.locations.toList.map LocationCode.level = levels := by
    refine List.ext_getElem (by rw [List.length_map]; exact hxs.length) fun i h₁ h₂ => ?_
    rw [List.length_map] at h₁
    rw [List.getElem_map, hxs.level i h₁, TreeRecord.levelAt, List.getD_eq_getElem _ _ h₂]
  have hcoords : (t.locations.toList.flatMap fun x => (coordinates x).toList) = coords := by
    have hlen := length_flatMap_coordinates t.locations.toList
    rw [hxs.length, ← hcount] at hlen
    refine List.ext_getElem hlen fun k h₁ h₂ => ?_
    -- entry `k` is a coordinate of node `k / D`
    have hD : 0 < D := Dimension.pos
    have hk : k / D < t.locations.toList.length := by
      rw [hxs.length, Nat.div_lt_iff_lt_mul hD, ← hcount]
      exact h₂
    have hsplit : k / D * D + k % D = k := by rw [Nat.mul_comm]; exact Nat.div_add_mod k D
    have hget := getElem?_flatMap_coordinates t.locations.toList (k / D) ⟨k % D, Nat.mod_lt k hD⟩
    rw [hsplit, List.getElem?_eq_getElem h₁, List.getElem?_eq_getElem hk, Option.map_some,
      hxs.coordinates _ hk] at hget
    simpa [TreeRecord.placeAt, hsplit, List.getElem?_eq_getElem h₂] using hget
  rw [toRecord, hlevels, hcoords]
  simp only at hversion hdimension
  rw [hversion, hdimension]

end Tree

end AdaptiveMesh
