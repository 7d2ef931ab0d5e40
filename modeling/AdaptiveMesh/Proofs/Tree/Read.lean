import AdaptiveMesh.Proofs.Axis
import AdaptiveMesh.Proofs.Location.InWords
import AdaptiveMesh.Proofs.Tree.Grown
import AdaptiveMesh.Proofs.Tree.Stream

/-!
# Reading trees

Reading gives the tree that the record at the front of the bytes stores, or the first fault of that
record (`ofBytes_reads_front`). With every product, shift, array and location checked it does the
same: the checks that reading makes of its own come first and leave nothing for the others to
refuse, whatever the bytes.
-/

namespace AdaptiveMesh

open LocationCode

variable {D : Nat} {L : Type} [LocationCode D L]

namespace TreeRecord

theorem length_toBytes (r : TreeRecord) :
    r.toBytes.length = 24 + r.levels.length * 4 + r.coordinates.length * 8 := by
  simp only [toBytes, List.length_append, Bytes.length_ofNat, Bytes.length_ofNats]
  omega

/-- The record has the head of a record in `D` dimensions, has nodes, all of which can be stored,
and they are those of a valid tree, in order. -/
structure Stores (r : TreeRecord) (t : Tree L) : Prop where
  head : r.HasHead D
  nonempty : r.levels ≠ []
  inRange : ∀ i < r.levels.length, r.InRange L i
  describes : r.Describes t.locations.toList
  valid : t.Valid

variable [LawfulLocation L] {r : TreeRecord} {t : Tree L}

theorem Describes.inRange {xs : List L} (h : r.Describes xs) {i : Nat}
    (hi : i < r.levels.length) : r.InRange L i := by
  rw [← h.length] at hi
  refine ⟨h.level i hi ▸ LawfulLocation.level_le xs[i], fun d => ?_⟩
  rw [← h.coordinates i hi, ← h.level i hi]
  exact LawfulLocation.place_lt xs[i] d

theorem stores_iff : r.Stores t ↔ r.HasHead D ∧ r.Describes t.locations.toList ∧ t.Valid := by
  constructor
  · exact fun h => ⟨h.head, h.describes, h.valid⟩
  · rintro ⟨hhead, hxs, hvalid⟩
    refine ⟨hhead, fun hempty => ?_, fun i hi => hxs.inRange hi, hxs, hvalid⟩
    have hlen := hxs.length
    rw [hempty, List.length_nil, List.length_eq_zero_iff] at hlen
    have hroot := hvalid.root_first
    rw [← Array.getElem?_toList, hlen] at hroot
    contradiction

end TreeRecord

namespace Tree

open TreeRecord

/-! ## What is read -/

variable {bytes : Bytes}

theorem ofBytes_of_isFrontOf {r : TreeRecord} (h : r.IsFrontOf bytes) :
    ofBytes L bytes = ofRecord L r := by
  obtain ⟨rest, hdecode⟩ := isFrontOf_iff.1 h
  rw [ofBytes, hdecode]

theorem ofBytes_of_not_isFrontOf (h : ∀ r : TreeRecord, ¬ r.IsFrontOf bytes) :
    ofBytes L bytes = .error (.codec .endOfStream) := by
  rw [ofBytes, decode_eq_error_iff.2 ⟨rfl, h⟩]

section

variable [LawfulLocation L]

theorem ofBytes_eq_ok_iff {t : Tree L} :
    ofBytes L bytes = .ok t ↔ ∃ r : TreeRecord, r.IsFrontOf bytes ∧ r.Stores t := by
  simp only [stores_iff, ← ofRecord_eq_ok_iff]
  constructor
  · intro h
    by_cases hfront : ∃ r : TreeRecord, r.IsFrontOf bytes
    · obtain ⟨r, hr⟩ := hfront
      rw [ofBytes_of_isFrontOf hr] at h
      exact ⟨r, hr, h⟩
    · rw [ofBytes_of_not_isFrontOf (not_exists.1 hfront)] at h
      contradiction
  · rintro ⟨r, hr, h⟩
    rw [ofBytes_of_isFrontOf hr, h]

theorem ofBytes_eq_error_iff {e : TreeError} : ofBytes L bytes = .error e ↔
    (e = .codec .endOfStream ∧ ∀ r : TreeRecord, ¬ r.IsFrontOf bytes) ∨
    ∃ r : TreeRecord, r.IsFrontOf bytes ∧ r.FirstFault L e := by
  simp only [← ofRecord_eq_error_iff]
  constructor
  · intro h
    by_cases hfront : ∃ r : TreeRecord, r.IsFrontOf bytes
    · obtain ⟨r, hr⟩ := hfront
      rw [ofBytes_of_isFrontOf hr] at h
      exact Or.inr ⟨r, hr, h⟩
    · rw [ofBytes_of_not_isFrontOf (not_exists.1 hfront)] at h
      exact Or.inl ⟨(Except.error.inj h).symm, not_exists.1 hfront⟩
  · rintro (⟨rfl, hnone⟩ | ⟨r, hr, h⟩)
    · exact ofBytes_of_not_isFrontOf hnone
    · rw [ofBytes_of_isFrontOf hr, h]

end

/-! ## In words -/

/-- Whether a coordinate has bits above those of its level. -/
def leavesRoot (place : Vector Nat D) (level : Nat) : Except Fault Bool :=
  place.toList.anyM fun c => do
    return (← Word.shiftDown Word.width c level) != 0

/-- The location of a stored node, once its numbers are in range, as `build` makes it. -/
def storedLocationInWords (build : Vector Nat D → Nat → Except Fault L) (r : TreeRecord)
    (level position : Nat) : ExceptT TreeError (Except Fault) L := do
  let place := r.placeAt D position
  if LocationCode.maxLevel L < level then
    throw (.levelOutOfRange position level (LocationCode.maxLevel L))
  else if ← leavesRoot place level then throw (.invalidLocation position)
  else build place level

/-- The tree that a record holds. -/
def ofRecordInWords (build : Vector Nat D → Nat → Except Fault L) (r : TreeRecord) :
    ExceptT TreeError (Except Fault) (Tree L) := do
  if r.version ≠ currentVersion then throw (.unsupportedVersion r.version)
  else if r.dimension ≠ D then throw (.dimensionMismatch D r.dimension)
  else
    let expected ← Word.mul r.levels.length D
    if r.coordinates.length ≠ expected then
      throw (.coordinateCount expected r.coordinates.length)
    else
      let _ ← Word.arraySize r.levels.length (LocationCode.byteSize L)
      let locations ← r.levels.zipIdx.mapM fun (level, position) =>
        storedLocationInWords build r level position
      faultless (ofSorted locations.toArray)

/-- The tree at the front of some bytes, or a fault of a step on the way to it. -/
def ofBytesInWords (build : Vector Nat D → Nat → Except Fault L) (bytes : Bytes) :
    Except Fault (Except TreeError (Tree L)) :=
  match TreeRecord.decode bytes with
  | .ok (r, _) => (ofRecordInWords build r).run
  | .error e => .ok (.error (.codec e))

theorem leavesRoot_eq {place : Vector Nat D} {level : Nat} (h : level < Word.width) :
    leavesRoot place level = .ok (!decide (∀ d : Fin D, place.get d < 2 ^ level)) := by
  have hfits (c : Nat) : (c / 2 ^ level != 0) = !decide (c < 2 ^ level) := by
    rw [bne, Bool.not_inj_iff, Bool.eq_iff_iff, beq_iff_eq, decide_eq_true_eq,
      Nat.div_eq_zero_iff_lt (Nat.two_pow_pos level)]
  have hall : (place.toList.all fun c => decide (c < 2 ^ level)) =
      decide (∀ d : Fin D, place.get d < 2 ^ level) := by
    rw [Vector.all_toList, Bool.eq_iff_iff, vector_all_iff, decide_eq_true_eq]
    simp only [decide_eq_true_eq]
  simp only [leavesRoot, Word.shiftDown_eq_ok h, ok_bind]
  rw [List.anyM_pure]
  simp only [hfits]
  rw [← List.not_all_eq_any_not, hall]
  rfl

variable [LawfulLocation L] {build : Vector Nat D → Nat → Except Fault L}

/-- The checks of a node are those that a location is made under. -/
theorem storedLocationInWords_eq (hbuild : ∀ place l, build place l = locate place l)
    (r : TreeRecord) (l i : Nat) :
    storedLocationInWords build r l i = faultless (storedLocation r.coordinates.toArray l i) := by
  rw [storedLocation_eq, storedLocationInWords]
  by_cases hl : l ≤ LocationCode.maxLevel L
  case neg =>
    rw [if_pos (Nat.lt_of_not_le hl), dif_neg hl]
    rfl
  have hwidth : l < Word.width := Nat.lt_of_le_of_lt hl LawfulLocation.maxLevel_lt
  rw [if_neg (Nat.not_lt.2 hl), dif_pos hl, lift_ok_bind (leavesRoot_eq hwidth)]
  by_cases hp : ∀ d : Fin D, (r.placeAt D i).get d < 2 ^ l
  · rw [dif_pos hp, decide_eq_true hp, hbuild, locate, dif_pos hl, dif_pos hp]
    rfl
  · rw [dif_neg hp, decide_eq_false hp]
    rfl

theorem ofRecordInWords_eq (hbuild : ∀ place l, build place l = locate place l) {r : TreeRecord}
    (hcount : r.levels.length * D < Word.bound)
    (harray : r.HasHead D → r.levels.length * LocationCode.byteSize L < 2 ^ (Word.width - 1)) :
    ofRecordInWords build r = faultless (ofRecord L r) := by
  rw [ofRecordInWords]
  by_cases hv : r.version = currentVersion
  case neg =>
    rw [if_pos hv, ofRecord_of_version hv]
    rfl
  by_cases hd : r.dimension = D
  case neg =>
    rw [if_neg (not_not.2 hv), if_pos hd, ofRecord_of_dimension hv hd]
    rfl
  rw [if_neg (not_not.2 hv), if_neg (not_not.2 hd), lift_ok_bind (Word.mul_eq_ok hcount)]
  by_cases hc : r.coordinates.length = r.levels.length * D
  case neg =>
    rw [if_pos hc, ofRecord_of_count hv hd hc]
    rfl
  have hhead : r.HasHead D := ⟨hv, hd, hc⟩
  rw [if_neg (not_not.2 hc), ofRecord_of_hasHead hhead,
    lift_ok_bind (Word.arraySize_eq_ok_iff.2 ⟨harray hhead, rfl⟩),
    mapM_eq_faultless fun x _ => storedLocationInWords_eq hbuild r x.1 x.2]
  exact faultless_bind fun xs => rfl

/-- Bytes that fit an array hold no more nodes than can be counted and stored. -/
theorem ofBytesInWords_eq [Dimension D] (hbuild : ∀ place l, build place l = locate place l)
    (hsize : LocationCode.byteSize L ≤ 4 + 8 * D) {bytes : Bytes}
    (hbytes : bytes.length < 2 ^ (Word.width - 1)) :
    ofBytesInWords build bytes = .ok (ofBytes L bytes) := by
  rw [ofBytesInWords, ofBytes]
  cases hdecode : TreeRecord.decode bytes with
  | error e => rfl
  | ok read =>
    obtain ⟨r, rest⟩ := read
    obtain ⟨-, rfl⟩ := decode_eq_ok_iff.1 hdecode
    rw [List.length_append, length_toBytes] at hbytes
    have hcount : r.levels.length * D < Word.bound :=
      calc r.levels.length * D ≤ r.levels.length * 4 :=
            Nat.mul_le_mul_left _ (Nat.le_trans Dimension.le_three (by decide))
        _ < 2 ^ (Word.width - 1) := by omega
        _ < Word.bound := Word.half_bound_lt
    have harray (hhead : r.HasHead D) :
        r.levels.length * LocationCode.byteSize L < 2 ^ (Word.width - 1) :=
      calc r.levels.length * LocationCode.byteSize L ≤ r.levels.length * (4 + 8 * D) :=
            Nat.mul_le_mul_left _ hsize
        _ = r.levels.length * 4 + r.coordinates.length * 8 := by
          rw [hhead.count, Nat.mul_add]
          ring
        _ < 2 ^ (Word.width - 1) := by omega
    dsimp only
    rw [ofRecordInWords_eq hbuild hcount harray]
    rfl

/-! ## Reading -/

/-- In every stored form a location takes no more memory than its level and coordinates take of the
bytes. -/
theorem byteSize_le_stored (D : Nat) [Dimension D] :
    LocationCode.byteSize (MortonLocation D 32) ≤ 4 + 8 * D ∧
      LocationCode.byteSize (MortonLocation D 64) ≤ 4 + 8 * D ∧
      LocationCode.byteSize (GridLocation D) ≤ 4 + 8 * D := by
  have hD : 0 < D := Dimension.pos
  refine ⟨?_, ?_, ?_⟩
  · change 32 / 8 ≤ 4 + 8 * D
    omega
  · change 64 / 8 ≤ 4 + 8 * D
    omega
  · change 4 * (D + 1) ≤ 4 + 8 * D
    omega

/-- Reading succeeds exactly on bytes that begin with a record that stores a tree, and gives that
tree, which is written as the bytes that were read. On other bytes it names the first fault. No
step on the way is refused, where a location takes no more memory than it takes of the bytes, and
these fit an array. -/
theorem ofBytes_reads_front [Dimension D] (bytes : Bytes) :
    (∀ t : Tree L, ofBytes L bytes = .ok t ↔
      ∃ r : TreeRecord, r.IsFrontOf bytes ∧ r.Stores t) ∧
    (∀ t : Tree L, ofBytes L bytes = .ok t → ∃ written rest, t.toBytes = .ok written ∧
      bytes = written ++ rest ∧ decode bytes = .ok (t.toRecord, rest)) ∧
    (∀ e, ofBytes L bytes = .error e ↔
      (e = .codec .endOfStream ∧ ∀ r : TreeRecord, ¬ r.IsFrontOf bytes) ∨
      ∃ r : TreeRecord, r.IsFrontOf bytes ∧ r.FirstFault L e) ∧
    (LocationCode.byteSize L ≤ 4 + 8 * D → bytes.length < 2 ^ (Word.width - 1) →
      ofBytesInWords locate bytes = .ok (ofBytes L bytes) ∧
      ofBytesInWords descendTo bytes = .ok (ofBytes L bytes)) := by
  refine ⟨fun t => ofBytes_eq_ok_iff, fun t h => ?_, fun e => ofBytes_eq_error_iff,
    fun hsize hbytes => ?_⟩
  · obtain ⟨r, hr, hstores⟩ := ofBytes_eq_ok_iff.1 h
    have hrecord : t.toRecord = r := toRecord_eq hstores.head hstores.describes
    obtain ⟨rest, hrest⟩ := hr.isPrefix
    exact ⟨r.toBytes, rest, by rw [hstores.valid.toBytes_eq, hrecord], hrest.symm,
      by rw [hrecord, decode_eq_ok_iff.2 ⟨hr.fits, hrest.symm⟩]⟩
  · exact ⟨ofBytesInWords_eq (fun _ _ => rfl) hsize hbytes,
      ofBytesInWords_eq descendTo_eq_locate hsize hbytes⟩

/-- With one byte behind the record, and with the last byte of the record missing. -/
theorem ofBytes_reads_front_quartered : Dimension 2 ∧
    (∃ written, quartered.toBytes = .ok written ∧
      ofBytes (GridLocation 2) (written ++ [255]) = .ok quartered ∧
      ofBytesInWords (L := GridLocation 2) locate (written ++ [255]) = .ok (.ok quartered) ∧
      ∀ r : TreeRecord, ¬ r.IsFrontOf written.dropLast) := by
  have hvalid : quartered.Valid := by decide +kernel
  have hread : ofBytes (GridLocation 2) (quartered.toRecord.toBytes ++ [255]) = .ok quartered := by
    decide +kernel
  have hcut : ofBytes (GridLocation 2) quartered.toRecord.toBytes.dropLast =
      .error (.codec .endOfStream) := by
    decide +kernel
  obtain ⟨-, -, -, hwords⟩ :=
    ofBytes_reads_front (L := GridLocation 2) (quartered.toRecord.toBytes ++ [255])
  obtain ⟨-, -, herror, -⟩ :=
    ofBytes_reads_front (L := GridLocation 2) quartered.toRecord.toBytes.dropLast
  refine ⟨inferInstance, _, hvalid.toBytes_eq, hread, ?_, ?_⟩
  · rw [(hwords (byteSize_le_stored 2).2.2 (by decide +kernel)).1, hread]
  · rcases (herror _).1 hcut with ⟨-, hnone⟩ | ⟨r, hr, hfault⟩
    · exact hnone
    · cases hfault with
      | entry _ _ _ he => cases he

end Tree

end AdaptiveMesh
