import AdaptiveMesh.Proofs.Bytes
import AdaptiveMesh.Proofs.Tree.Sorted
import AdaptiveMesh.Tree.Stream

/-!
# Stored trees

A record of a tree has one written form, and the decoder finds a record exactly where that form
stands at the front. The record then holds a tree if its head is right, every node can be stored
and the nodes are a valid tree (`ofRecord_eq_ok_iff`); otherwise reading names its first fault, in
the order in which `FirstFault` lists them (`ofRecord_eq_error_iff`).
-/

namespace AdaptiveMesh

open LocationCode

namespace TreeRecord

/-! ## Records as bytes -/

/-- Every number of the record fits the bytes that are written of it. -/
structure Fits (r : TreeRecord) : Prop where
  version : r.version < 256 ^ 4
  dimension : r.dimension < 256 ^ 4
  length_levels : r.levels.length < 256 ^ 8
  levels : ∀ l ∈ r.levels, l < 256 ^ 4
  length_coordinates : r.coordinates.length < 256 ^ 8
  coordinates : ∀ c ∈ r.coordinates, c < 256 ^ 8

variable {r : TreeRecord} {bytes rest : Bytes}

theorem decode_eq_ok_iff :
    decode bytes = .ok (r, rest) ↔ r.Fits ∧ bytes = r.toBytes ++ rest := by
  simp only [decode, Decoder.bind_eq_ok_iff, Decoder.pure_eq_ok_iff, Decoder.nat_eq_ok_iff,
    Decoder.nats_eq_ok_iff]
  constructor
  · rintro ⟨_, _, ⟨hversion, rfl⟩, _, _, ⟨hdimension, rfl⟩, _, _, ⟨⟨hlen, hlevels⟩, rfl⟩,
      _, _, ⟨⟨hlen', hcoordinates⟩, rfl⟩, rfl, rfl⟩
    refine ⟨⟨hversion, hdimension, hlen, hlevels, hlen', hcoordinates⟩, ?_⟩
    simp only [toBytes, List.append_assoc]
  · rintro ⟨h, rfl⟩
    refine ⟨_, _, ⟨h.version, ?_⟩, _, _, ⟨h.dimension, rfl⟩, _, _,
      ⟨⟨h.length_levels, h.levels⟩, rfl⟩, _, rest, ⟨⟨h.length_coordinates, h.coordinates⟩, rfl⟩,
      rfl, rfl⟩
    simp only [toBytes, List.append_assoc]

theorem failsAtEnd_decode : Decoder.FailsAtEnd decode :=
  (Decoder.failsAtEnd_nat 4).bind fun _ => (Decoder.failsAtEnd_nat 4).bind fun _ =>
    (Decoder.failsAtEnd_nats 4).bind fun _ => (Decoder.failsAtEnd_nats 8).bind fun _ =>
      Decoder.failsAtEnd_pure _

/-- The bytes begin with the record. -/
structure IsFrontOf (r : TreeRecord) (bytes : Bytes) : Prop where
  fits : r.Fits
  isPrefix : r.toBytes <+: bytes

theorem isFrontOf_iff : r.IsFrontOf bytes ↔ ∃ rest, decode bytes = .ok (r, rest) := by
  simp only [decode_eq_ok_iff]
  constructor
  · rintro ⟨hfits, rest, hbytes⟩
    exact ⟨rest, hfits, hbytes.symm⟩
  · rintro ⟨rest, hfits, hbytes⟩
    exact ⟨hfits, rest, hbytes.symm⟩

/-- No record is decoded exactly where none stands at the front. -/
theorem decode_eq_error_iff {e : CodecError} : decode bytes = .error e ↔
    e = .endOfStream ∧ ∀ r : TreeRecord, ¬ r.IsFrontOf bytes := by
  simp only [isFrontOf_iff]
  constructor
  · intro h
    refine ⟨failsAtEnd_decode bytes e h, fun r ⟨rest, hr⟩ => ?_⟩
    rw [h] at hr
    contradiction
  · rintro ⟨rfl, hnone⟩
    cases h : decode bytes with
    | error e => rw [failsAtEnd_decode bytes e h]
    | ok read => exact absurd ⟨read.2, h⟩ (hnone read.1)

/-! ## Records as nodes -/

/-- Level of the node at a position. -/
def levelAt (r : TreeRecord) (i : Nat) : Nat := r.levels.getD i 0

/-- Coordinates of the node at a position. -/
def placeAt (D : Nat) (r : TreeRecord) (i : Nat) : Vector Nat D :=
  Vector.ofFn fun d => r.coordinates.getD (i * D + d) 0

/-- The version is the current one, the dimension is `D`, and there are `D` coordinates for each
level. -/
structure HasHead (D : Nat) (r : TreeRecord) : Prop where
  version : r.version = currentVersion
  dimension : r.dimension = D
  count : r.coordinates.length = r.levels.length * D

variable {D : Nat} {L : Type} [LocationCode D L]

/-- The node at a position is no deeper than `L` can store, and inside the root. -/
structure InRange (L : Type) [LocationCode D L] (r : TreeRecord) (i : Nat) : Prop where
  level_le : r.levelAt i ≤ maxLevel L
  coordinate_lt : ∀ d : Fin D, (r.placeAt D i).get d < 2 ^ r.levelAt i

/-- The locations are those of the nodes, in order. -/
structure Describes (r : TreeRecord) (xs : List L) : Prop where
  length : xs.length = r.levels.length
  level : ∀ i (h : i < xs.length), LocationCode.level xs[i] = r.levelAt i
  coordinates : ∀ i (h : i < xs.length), LocationCode.coordinates xs[i] = r.placeAt D i

/-- The first fault of a record, in the order in which faults are looked for: the head, then node
by node level and coordinates, then whether there are nodes, then their order. -/
inductive FirstFault (L : Type) [LocationCode D L] (r : TreeRecord) : TreeError → Prop
  | version : r.version ≠ currentVersion → FirstFault L r (.unsupportedVersion r.version)
  | dimension : r.version = currentVersion → r.dimension ≠ D →
      FirstFault L r (.dimensionMismatch D r.dimension)
  | count : r.version = currentVersion → r.dimension = D →
      r.coordinates.length ≠ r.levels.length * D →
      FirstFault L r (.coordinateCount (r.levels.length * D) r.coordinates.length)
  | level {i : Nat} : r.HasHead D → i < r.levels.length → (∀ j < i, r.InRange L j) →
      maxLevel L < r.levelAt i → FirstFault L r (.levelOutOfRange i (r.levelAt i) (maxLevel L))
  | coordinate {i : Nat} (d : Fin D) : r.HasHead D → i < r.levels.length →
      (∀ j < i, r.InRange L j) → r.levelAt i ≤ maxLevel L →
      2 ^ r.levelAt i ≤ (r.placeAt D i).get d → FirstFault L r (.invalidLocation i)
  | empty : r.HasHead D → r.levels = [] → FirstFault L r .empty
  | entry {xs : List L} {p : Nat} {e : TreeError} : r.HasHead D → r.Describes xs →
      (p = 0 ∨ (Tree.front xs p).Valid) → Tree.EntryFault xs p e → FirstFault L r e

end TreeRecord

namespace Tree

open TreeRecord

variable {D : Nat} {L : Type} [LocationCode D L] {r : TreeRecord} {i : Nat} {e : TreeError}

/-! ## One node -/

theorem storedLocation_eq (l : Nat) : (storedLocation r.coordinates.toArray l i : Except _ L) =
    if hl : l ≤ LocationCode.maxLevel L then
      if hp : ∀ d : Fin D, (r.placeAt D i).get d < 2 ^ l then
        .ok (ofCoordinates (r.placeAt D i) l hl hp)
      else .error (.invalidLocation i)
    else .error (.levelOutOfRange i l (LocationCode.maxLevel L)) := by
  have hplace : (Vector.ofFn fun d : Fin D => r.coordinates.toArray.getD (i * D + d) 0) =
      r.placeAt D i := by
    simp [placeAt]
  unfold storedLocation
  simp only [hplace]

theorem storedLocation_eq_error_iff :
    (storedLocation r.coordinates.toArray (r.levelAt i) i : Except _ L) = .error e ↔
      (LocationCode.maxLevel L < r.levelAt i ∧
        e = .levelOutOfRange i (r.levelAt i) (LocationCode.maxLevel L)) ∨
      (r.levelAt i ≤ LocationCode.maxLevel L ∧
        (∃ d : Fin D, 2 ^ r.levelAt i ≤ (r.placeAt D i).get d) ∧ e = .invalidLocation i) := by
  rw [storedLocation_eq]
  split
  · next hl =>
    split
    · next hp =>
      refine ⟨fun h => by contradiction, ?_⟩
      rintro (⟨h, -⟩ | ⟨-, ⟨d, hd⟩, -⟩)
      · omega
      · exact absurd (hp d) (Nat.not_lt.2 hd)
    · next hp =>
      rw [or_iff_right fun h => Nat.not_lt.2 hl h.1, and_iff_right hl, Except.error.injEq, eq_comm]
      simp only [not_forall, Nat.not_lt] at hp
      rw [and_iff_right hp]
  · next hl =>
    rw [or_iff_left fun h => hl h.1, and_iff_right (Nat.not_le.1 hl), Except.error.injEq, eq_comm]

variable [LawfulLocation L]

theorem storedLocation_eq_ok_iff {x : L} :
    storedLocation r.coordinates.toArray (r.levelAt i) i = .ok x ↔
      LocationCode.level x = r.levelAt i ∧ coordinates x = r.placeAt D i := by
  rw [storedLocation_eq]
  constructor
  · intro h
    split at h
    · split at h
      · rw [← Except.ok.inj h]
        exact ⟨LawfulLocation.level_ofCoordinates _ _ _ _,
          LawfulLocation.coordinates_ofCoordinates _ _ _ _⟩
      · contradiction
    · contradiction
  · rintro ⟨hlevel, hplace⟩
    have hl : r.levelAt i ≤ LocationCode.maxLevel L := hlevel ▸ LawfulLocation.level_le x
    have hp : ∀ d : Fin D, (r.placeAt D i).get d < 2 ^ r.levelAt i := fun d => by
      rw [← hplace, ← hlevel]
      exact LawfulLocation.place_lt x d
    rw [dif_pos hl, dif_pos hp]
    refine congrArg Except.ok (LawfulLocation.ext ?_ fun d => ?_)
    · rw [LawfulLocation.level_ofCoordinates, hlevel]
    · rw [place, LawfulLocation.coordinates_ofCoordinates, place, hplace]

omit [LawfulLocation L] in
theorem exists_storedLocation_iff :
    (∃ x : L, storedLocation r.coordinates.toArray (r.levelAt i) i = .ok x) ↔ r.InRange L i := by
  rw [storedLocation_eq]
  constructor
  · rintro ⟨x, h⟩
    split at h
    · next hl =>
      split at h
      · next hp => exact ⟨hl, hp⟩
      · contradiction
    · contradiction
  · rintro ⟨hl, hp⟩
    exact ⟨_, by rw [dif_pos hl, dif_pos hp]⟩

/-! ## All nodes -/

/-- The locations of all nodes of a record. -/
def storedNodes (L : Type) [LocationCode D L] (r : TreeRecord) : Except TreeError (List L) :=
  r.levels.zipIdx.mapM fun (level, position) =>
    storedLocation r.coordinates.toArray level position

omit [LawfulLocation L] in
theorem storedLocation_zipIdx (h : i < r.levels.zipIdx.length) :
    (storedLocation r.coordinates.toArray r.levels.zipIdx[i].1 r.levels.zipIdx[i].2 : Except _ L) =
      storedLocation r.coordinates.toArray (r.levelAt i) i := by
  rw [List.length_zipIdx] at h
  rw [List.getElem_zipIdx, levelAt, List.getD_eq_getElem _ _ h, Nat.zero_add]

theorem storedNodes_eq_ok_iff {xs : List L} : storedNodes L r = .ok xs ↔ r.Describes xs := by
  rw [storedNodes, mapM_eq_ok_iff_getElem]
  simp only [storedLocation_zipIdx, storedLocation_eq_ok_iff, List.length_zipIdx]
  constructor
  · rintro ⟨hlen, h⟩
    exact ⟨hlen, fun i hi => (h i (hlen ▸ hi)).1, fun i hi => (h i (hlen ▸ hi)).2⟩
  · rintro ⟨hlen, hlevel, hplace⟩
    exact ⟨hlen, fun i hi => ⟨hlevel i (hlen ▸ hi), hplace i (hlen ▸ hi)⟩⟩

omit [LawfulLocation L] in
/-- The first node that cannot be stored is the one that is named. -/
theorem storedNodes_eq_error_iff : storedNodes L r = .error e ↔
    ∃ i < r.levels.length, (∀ j < i, r.InRange L j) ∧
      (storedLocation r.coordinates.toArray (r.levelAt i) i : Except _ L) = .error e := by
  rw [storedNodes, mapM_eq_error_iff]
  simp only [storedLocation_zipIdx, exists_storedLocation_iff, List.length_zipIdx]
  constructor
  · rintro ⟨i, hi, he, hbefore⟩
    exact ⟨i, hi, hbefore, he⟩
  · rintro ⟨i, hi, hbefore, he⟩
    exact ⟨i, hi, he, hbefore⟩

/-! ## The record -/

omit [LawfulLocation L] in
theorem ofRecord_of_hasHead (h : r.HasHead D) :
    ofRecord L r = storedNodes L r >>= fun xs => ofSorted xs.toArray := by
  unfold ofRecord
  rw [if_neg (not_not.2 h.version), if_neg (not_not.2 h.dimension), if_neg (not_not.2 h.count)]
  rfl

omit [LawfulLocation L] in
theorem ofRecord_of_version (h : r.version ≠ currentVersion) :
    ofRecord L r = .error (.unsupportedVersion r.version) := by
  unfold ofRecord
  rw [if_pos h]
  rfl

omit [LawfulLocation L] in
theorem ofRecord_of_dimension (hv : r.version = currentVersion) (h : r.dimension ≠ D) :
    ofRecord L r = .error (.dimensionMismatch D r.dimension) := by
  unfold ofRecord
  rw [if_neg (not_not.2 hv), if_pos h]
  rfl

omit [LawfulLocation L] in
theorem ofRecord_of_count (hv : r.version = currentVersion) (hd : r.dimension = D)
    (h : r.coordinates.length ≠ r.levels.length * D) : ofRecord L r =
      .error (.coordinateCount (r.levels.length * D) r.coordinates.length) := by
  unfold ofRecord
  rw [if_neg (not_not.2 hv), if_neg (not_not.2 hd), if_pos h]
  rfl

theorem firstFault_of_ofRecord (h : ofRecord L r = .error e) : r.FirstFault L e := by
  by_cases hv : r.version = currentVersion
  case neg =>
    rw [ofRecord_of_version hv] at h
    exact Except.error.inj h ▸ .version hv
  by_cases hd : r.dimension = D
  case neg =>
    rw [ofRecord_of_dimension hv hd] at h
    exact Except.error.inj h ▸ .dimension hv hd
  by_cases hc : r.coordinates.length = r.levels.length * D
  case neg =>
    rw [ofRecord_of_count hv hd hc] at h
    exact Except.error.inj h ▸ .count hv hd hc
  have hhead : r.HasHead D := ⟨hv, hd, hc⟩
  rw [ofRecord_of_hasHead hhead] at h
  cases hnodes : storedNodes L r with
  | error e' =>
    rw [hnodes] at h
    obtain rfl := Except.error.inj h
    obtain ⟨i, hi, hbefore, he⟩ := storedNodes_eq_error_iff.1 hnodes
    rcases storedLocation_eq_error_iff.1 he with ⟨hlevel, rfl⟩ | ⟨hlevel, ⟨d, hlt⟩, rfl⟩
    · exact .level hhead hi hbefore hlevel
    · exact .coordinate d hhead hi hbefore hlevel hlt
  | ok xs =>
    have hxs := storedNodes_eq_ok_iff.1 hnodes
    rw [hnodes, ok_bind, ofSorted_eq_error_iff] at h
    rcases h with ⟨hempty, rfl⟩ | ⟨p, hfront, he⟩
    · refine .empty hhead (List.length_eq_zero_iff.1 ?_)
      rw [← hxs.length, hempty, List.length_nil]
    · exact .entry hhead hxs hfront he

omit [LawfulLocation L] in
theorem ofRecord_of_storedLocation (hhead : r.HasHead D) (hi : i < r.levels.length)
    (hbefore : ∀ j < i, r.InRange L j)
    (h : (storedLocation r.coordinates.toArray (r.levelAt i) i : Except _ L) = .error e) :
    ofRecord L r = .error e := by
  rw [ofRecord_of_hasHead hhead, storedNodes_eq_error_iff.2 ⟨i, hi, hbefore, h⟩]
  rfl

theorem ofRecord_of_describes {xs : List L} (hhead : r.HasHead D) (hxs : r.Describes xs) :
    ofRecord L r = ofSorted xs.toArray := by
  rw [ofRecord_of_hasHead hhead, storedNodes_eq_ok_iff.2 hxs, ok_bind]

theorem ofRecord_of_firstFault (h : r.FirstFault L e) : ofRecord L r = .error e := by
  cases h with
  | version hv => exact ofRecord_of_version hv
  | dimension hv hd => exact ofRecord_of_dimension hv hd
  | count hv hd hc => exact ofRecord_of_count hv hd hc
  | level hhead hi hbefore hlevel =>
    apply ofRecord_of_storedLocation hhead hi hbefore
    exact storedLocation_eq_error_iff.2 (Or.inl ⟨hlevel, rfl⟩)
  | coordinate d hhead hi hbefore hlevel hlt =>
    apply ofRecord_of_storedLocation hhead hi hbefore
    exact storedLocation_eq_error_iff.2 (Or.inr ⟨hlevel, ⟨d, hlt⟩, rfl⟩)
  | empty hhead hempty =>
    have hxs : r.Describes ([] : List L) :=
      ⟨by rw [hempty]; rfl, fun i hi => by contradiction, fun i hi => by contradiction⟩
    rw [ofRecord_of_describes hhead hxs]
    exact ofSorted_eq_error_iff.2 (Or.inl ⟨rfl, rfl⟩)
  | entry hhead hxs hfront he =>
    rw [ofRecord_of_describes hhead hxs]
    exact ofSorted_eq_error_iff.2 (Or.inr ⟨_, hfront, he⟩)

/-- Reading a record names a fault of its head, and goes on to the nodes if there is none. -/
theorem ofRecord_eq_error_iff : ofRecord L r = .error e ↔ r.FirstFault L e :=
  ⟨firstFault_of_ofRecord, ofRecord_of_firstFault⟩

/-- The records that hold a tree, and the tree that each of them holds. -/
theorem ofRecord_eq_ok_iff {t : Tree L} : ofRecord L r = .ok t ↔
    r.HasHead D ∧ r.Describes t.locations.toList ∧ t.Valid := by
  constructor
  · intro h
    have hno (e : TreeError) : ¬ r.FirstFault L e := fun he => by
      rw [ofRecord_eq_error_iff.2 he] at h
      contradiction
    have hhead : r.HasHead D := by
      by_contra hhead
      by_cases hv : r.version = currentVersion
      · by_cases hd : r.dimension = D
        · exact hno _ (.count hv hd fun hc => hhead ⟨hv, hd, hc⟩)
        · exact hno _ (.dimension hv hd)
      · exact hno _ (.version hv)
    rw [ofRecord_of_hasHead hhead] at h
    obtain ⟨xs, hnodes, h⟩ := bind_eq_ok_iff.1 h
    obtain ⟨rfl, hvalid⟩ := ofSorted_eq_ok_iff.1 h
    exact ⟨hhead, storedNodes_eq_ok_iff.1 hnodes, hvalid⟩
  · rintro ⟨hhead, hxs, hvalid⟩
    rw [ofRecord_of_describes hhead hxs, ofSorted_eq_ok_iff]
    exact ⟨rfl, hvalid⟩

end Tree

end AdaptiveMesh
