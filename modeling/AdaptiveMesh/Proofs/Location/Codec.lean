import AdaptiveMesh.Proofs.Location.MovesInWords

/-!
# Paths, coordinates and codes

A location is told by its path, by its level and its coordinates, and, where it is stored in one
word, by its code. A coordinate is the binary number made up by the sides of the path, and a code is
the path in digits of `D` bits behind a leading one. `Encodes` says that paths, coordinates and
locations stand for each other in a stored form, and `HasCodes` that codes do.
-/

namespace AdaptiveMesh

open LocationCode

variable {D : Nat}

/-! ## Paths -/

namespace LocationCode

variable {L : Type} [LocationCode D L]

theorem descend_eq_ok_iff {x y : L} {p : ChildPosition D} :
    descend x p = .ok y ↔ child? x p = some y := by
  unfold descend child?
  split <;> simp

theorem ofPath_concat (path : List (ChildPosition D)) (p : ChildPosition D) :
    (ofPath (path ++ [p]) : Except Fault L) = ofPath path >>= fun x => descend x p := by
  unfold ofPath
  rw [List.foldlM_append]
  refine bind_congr fun x => ?_
  rw [List.foldlM_cons]
  exact bind_pure _

variable [LawfulLocation L]

@[simp] theorem path_root : path (root : L) = [] :=
  List.eq_nil_of_length_eq_zero (by rw [length_path, level_root])

/-- Every location is reached from the root by going down to children. -/
theorem child_induction {motive : L → Prop} (root : motive root)
    (child : ∀ x y p, child? x p = some y → motive x → motive y) (x : L) : motive x := by
  induction hl : level x generalizing x with
  | zero =>
    rw [eq_root_iff.2 hl]
    exact root
  | succ l ih =>
    obtain ⟨parent, hparent⟩ := exists_parent? (x := x) (by omega)
    have hlevel := (parent?_eq_some_iff.1 hparent).1
    exact child parent x _ (child?_childPosition hparent) (ih parent (by omega))

/-- Following a path from the root leads to the location that has it. -/
theorem ofPath_eq_ok_iff {p : List (ChildPosition D)} {x : L} :
    ofPath p = .ok x ↔ path x = p := by
  constructor
  · intro h
    -- the last position of a path is the last one followed, so paths grow at their end
    induction p using List.reverseRecOn generalizing x with
    | nil =>
      obtain rfl := Except.ok.inj h
      exact path_root
    | append_singleton p q ih =>
      rw [ofPath_concat] at h
      obtain ⟨y, hy, hx⟩ := bind_eq_ok_iff.1 h
      rw [path_of_child? (descend_eq_ok_iff.1 hx), ih hy]
  · rintro rfl
    induction x using child_induction with
    | root =>
      rw [path_root]
      rfl
    | child x y p h ih =>
      rw [path_of_child? h, ofPath_concat, ih]
      exact descend_eq_ok_iff.2 h

theorem exists_path_eq {p : List (ChildPosition D)} (h : p.length ≤ maxLevel L) :
    ∃ x : L, path x = p := by
  induction p using List.reverseRecOn with
  | nil => exact ⟨root, path_root⟩
  | append_singleton p q ih =>
    rw [List.length_append, List.length_singleton] at h
    obtain ⟨x, rfl⟩ := ih (Nat.le_of_succ_le h)
    rw [length_path] at h
    obtain ⟨y, hy⟩ := exists_child? (x := x) h q
    exact ⟨y, path_of_child? hy⟩

end LocationCode

/-! ## Coordinates along a path -/

namespace ChildPosition

/-- The binary number made up along an axis by the sides of successive positions. -/
def sidesAlong (path : List (ChildPosition D)) (d : Fin D) : Nat :=
  Nat.ofDigits 2 (path.map fun p => (p.isPositive d).toNat).reverse

theorem sidesAlong_concat (path : List (ChildPosition D)) (p : ChildPosition D) (d : Fin D) :
    sidesAlong (path ++ [p]) d = 2 * sidesAlong path d + (p.isPositive d).toNat := by
  rw [sidesAlong, List.map_append, List.reverse_append, List.map_singleton, List.reverse_singleton,
    List.singleton_append, Nat.ofDigits_cons, Nat.add_comm]
  rfl

/-- The positions of a path as digits of `D` bits behind a leading one. -/
def codeOf (path : List (ChildPosition D)) : Nat :=
  Nat.ofDigits (2 ^ D) ((path.map Fin.val).reverse ++ [1])

theorem codeOf_concat (path : List (ChildPosition D)) (p : ChildPosition D) :
    codeOf (path ++ [p]) = 2 ^ D * codeOf path + p.val := by
  rw [codeOf, List.map_append, List.reverse_append, List.map_singleton, List.reverse_singleton,
    List.singleton_append, List.cons_append, Nat.ofDigits_cons, Nat.add_comm]
  rfl

end ChildPosition

open ChildPosition (sidesAlong codeOf)

namespace LocationCode

variable {L : Type} [LocationCode D L] [LawfulLocation L]

theorem place_eq_sidesAlong (x : L) (d : Fin D) : place x d = sidesAlong (path x) d := by
  induction x using child_induction with
  | root =>
    rw [place_root, path_root]
    rfl
  | child x y p h ih =>
    rw [path_of_child? h, ChildPosition.sidesAlong_concat, ← ih, (child?_eq_some_iff.1 h).2]

end LocationCode

/-! ## Codes of paths -/

namespace MortonLocation

variable {w : Nat}

theorem ofCode?_eq_some_iff {code : BitVec w} {x : MortonLocation D w} :
    ofCode? code = some x ↔ x.code = code := by
  unfold ofCode?
  constructor
  · intro h
    split at h
    · rw [← Option.some.inj h]
    · contradiction
  · rintro rfl
    exact dif_pos ⟨x.code_ne_zero, x.whole⟩

variable [CodeWidth w]

theorem code_eq_codeOf (x : MortonLocation D w) :
    x.code.toNat = codeOf (LocationCode.path x) := by
  induction x using push_induction with
  | root =>
    rw [root, toNat_one]
    change 1 = codeOf ((List.range (root : MortonLocation D w).level).map _)
    rw [level_root]
    rfl
  | push x p h ih => rw [toNat_code_push, path_push, ChildPosition.codeOf_concat, ih]

variable [LawfulLocation (MortonLocation D w)]

/-- The words that are codes are those of the paths for which there is room, each of one path. -/
theorem isSome_ofCode?_iff {code : BitVec w} :
    (ofCode? code : Option (MortonLocation D w)).isSome = true ↔
      ∃! path : List (ChildPosition D), path.length ≤ maxLevel D w ∧
        ∃ x : MortonLocation D w, ofPath path = .ok x ∧ x.code = code := by
  rw [Option.isSome_iff_exists]
  simp only [ofCode?_eq_some_iff, ofPath_eq_ok_iff]
  constructor
  · rintro ⟨x, rfl⟩
    refine ⟨LocationCode.path x, ⟨?_, x, rfl, rfl⟩, ?_⟩
    · rw [length_path]
      exact level_le_maxLevel x
    · rintro p ⟨-, y, rfl, hcode⟩
      rw [ext_code (congrArg BitVec.toNat hcode)]
  · rintro ⟨p, ⟨-, x, -, hcode⟩, -⟩
    exact ⟨x, hcode⟩

end MortonLocation


/-! ## Three ways to tell a location -/

namespace LocationCode

variable {L : Type} [LocationCode D L] [WordMoves L]

/-- The location reached from the root along a path, by moves in words. -/
def ofPathInWords (path : List (ChildPosition D)) : Except Fault L :=
  path.foldlM WordMoves.pushInWords root

/-- The positions from the root down, each found in words. -/
def pathInWords (x : L) : Except Fault (List (ChildPosition D)) := do
  (List.range (← WordMoves.levelInWords x)).mapM fun l => WordMoves.positionInWords x (l + 1)

variable [LosslessMoves L]

theorem ofPathInWords_eq (path : List (ChildPosition D)) :
    ofPathInWords path = (ofPath path : Except Fault L) := by
  have hpush : (WordMoves.pushInWords : L → ChildPosition D → Except Fault L) = descend :=
    funext fun x => funext fun p => LosslessMoves.push_eq x p
  rw [ofPathInWords, hpush]
  rfl

theorem pathInWords_eq (x : L) : pathInWords x = .ok (path x) := by
  rw [pathInWords, LosslessMoves.level_eq, ok_bind]
  refine mapM_eq_ok_map fun l hl => ?_
  rw [LosslessMoves.position_eq]
  exact if_pos ⟨Nat.succ_pos l, List.mem_range.1 hl⟩

end LocationCode

/-- The locations of a stored form, the paths for which it has room, and the levels that it has with
coordinates inside them stand for each other. No operation that leads from one to another loses a
bit or leaves its words. -/
structure Encodes (L : Type) [LocationCode D L] [WordMoves L] : Prop where
  ofPath (p : List (ChildPosition D)) : p.length ≤ maxLevel L →
    ∃ x : L, ofPath p = .ok x ∧ level x = p.length ∧ path x = p
  locate (place : Vector Nat D) (l : Nat) : l ≤ maxLevel L →
    (∀ d : Fin D, place.get d < 2 ^ l) →
      ∃ x : L, locate place l = .ok x ∧ level x = l ∧ coordinates x = place
  coordinates (x : L) (d : Fin D) : (coordinates x).get d = sidesAlong (path x) d
  bijOn_path : Set.BijOn (path : L → List (ChildPosition D)) Set.univ {p | p.length ≤ maxLevel L}
  bijOn_coordinates : Set.BijOn (fun x : L => (LocationCode.coordinates x, level x)) Set.univ
    {c | c.2 ≤ maxLevel L ∧ ∀ d : Fin D, c.1.get d < 2 ^ c.2}
  lossless : LosslessMoves L
  ofPathInWords (p : List (ChildPosition D)) :
    ofPathInWords p = (LocationCode.ofPath p : Except Fault L)
  pathInWords (x : L) : pathInWords x = .ok (path x)

/-- The words that stand for a location are the codes of the paths for which there is room, and each
is the code of one path. -/
structure HasCodes (D w : Nat) [CodeWidth w] : Prop where
  isSome_ofCode?_iff (code : BitVec w) :
    (MortonLocation.ofCode? code : Option (MortonLocation D w)).isSome = true ↔
      ∃! p : List (ChildPosition D), p.length ≤ maxLevel (MortonLocation D w) ∧
        ∃ x : MortonLocation D w, ofPath p = .ok x ∧ x.code = code
  code_of_ofCode? (code : BitVec w) (x : MortonLocation D w) :
    MortonLocation.ofCode? code = some x → x.code = code
  code_eq (x : MortonLocation D w) : x.code.toNat = codeOf (path x)
  bijOn_code : Set.BijOn (fun x : MortonLocation D w => x.code) Set.univ
    {code | (MortonLocation.ofCode? code : Option (MortonLocation D w)).isSome = true}
  isValidInWords (code : BitVec w) : MortonLocation.isValidInWords D code =
    .ok (MortonLocation.ofCode? code : Option (MortonLocation D w)).isSome

theorem encodes (L : Type) [LocationCode D L] [LawfulLocation L] [WordMoves L] [LosslessMoves L] :
    Encodes L where
  ofPath p hp := by
    obtain ⟨x, rfl⟩ := exists_path_eq hp
    exact ⟨x, ofPath_eq_ok_iff.2 rfl, (length_path x).symm, rfl⟩
  locate place l hl hp := ⟨LocationCode.ofCoordinates place l hl hp,
    (dif_pos hl).trans (dif_pos hp), LawfulLocation.level_ofCoordinates place l hl hp,
    LawfulLocation.coordinates_ofCoordinates place l hl hp⟩
  coordinates := place_eq_sidesAlong
  bijOn_path := by
    refine ⟨fun x _ => ?_, fun x _ y _ h => path_injective h, fun p hp => ?_⟩
    · rw [Set.mem_ofPred_eq, length_path]
      exact LawfulLocation.level_le x
    · obtain ⟨x, hx⟩ := exists_path_eq hp
      exact ⟨x, Set.mem_univ x, hx⟩
  bijOn_coordinates := by
    refine ⟨fun x _ => ⟨LawfulLocation.level_le x, LawfulLocation.place_lt x⟩,
      fun x _ y _ h => ?_, fun c hc => ?_⟩
    · obtain ⟨hplace, hlevel⟩ := Prod.mk.inj h
      exact LawfulLocation.ext hlevel fun d => congrArg (·.get d) hplace
    · refine ⟨LocationCode.ofCoordinates c.1 c.2 hc.1 hc.2, Set.mem_univ _, Prod.ext ?_ ?_⟩
      · exact LawfulLocation.coordinates_ofCoordinates c.1 c.2 hc.1 hc.2
      · exact LawfulLocation.level_ofCoordinates c.1 c.2 hc.1 hc.2
  lossless := inferInstance
  ofPathInWords := ofPathInWords_eq
  pathInWords := pathInWords_eq

theorem hasCodes (D w : Nat) [CodeWidth w] [LawfulLocation (MortonLocation D w)] :
    HasCodes D w where
  isSome_ofCode?_iff code := MortonLocation.isSome_ofCode?_iff
  code_of_ofCode? code x := MortonLocation.ofCode?_eq_some_iff.1
  code_eq := MortonLocation.code_eq_codeOf
  bijOn_code := by
    refine ⟨fun x _ => ?_, fun x _ y _ h => MortonLocation.ext_code (congrArg _ h),
      fun code hcode => ?_⟩
    · rw [Set.mem_ofPred_eq, MortonLocation.ofCode?_eq_some_iff.2 rfl]
      rfl
    · obtain ⟨x, hx⟩ := Option.isSome_iff_exists.1 hcode
      exact ⟨x, Set.mem_univ x, MortonLocation.ofCode?_eq_some_iff.1 hx⟩
  isValidInWords := MortonLocation.isValidInWords_eq

/-- In each stored form a location is told by its path, by its level and coordinates, and where it
is stored in one word by its code, down to the deepest level for which there are bits. -/
theorem encodes_codes_grid (D : Nat) [Dimension D] :
    (Encodes (MortonLocation D 32) ∧ HasCodes D 32 ∧ maxLevel (MortonLocation D 32) = 31 / D) ∧
    (Encodes (MortonLocation D 64) ∧ HasCodes D 64 ∧ maxLevel (MortonLocation D 64) = 63 / D) ∧
      Encodes (GridLocation D) ∧ maxLevel (GridLocation D) = 32 :=
  ⟨⟨encodes _, hasCodes D 32, rfl⟩, ⟨encodes _, hasCodes D 64, rfl⟩, encodes _, rfl⟩

/-- In space the path of 21 levels to the highest corner sets every bit of a code of 64. -/
theorem encodes_codes_grid_space : Dimension 3 ∧ ∃ x : MortonLocation 3 64,
    ofPath (List.replicate 21 (.ofSides fun _ => true)) = .ok x ∧ level x = 21 ∧
      x.code = BitVec.allOnes 64 ∧ (coordinates x).get 2 = 2 ^ 21 - 1 ∧
        MortonLocation.ofCode? (BitVec.allOnes 64) = some x := by
  obtain ⟨-, ⟨hencodes, hcodes, -⟩, -⟩ := encodes_codes_grid 3
  obtain ⟨x, hx, hlevel, hpath⟩ :=
    hencodes.ofPath (List.replicate 21 (.ofSides fun _ => true)) (by decide)
  have hcode : x.code = BitVec.allOnes 64 := by
    refine BitVec.eq_of_toNat_eq ?_
    rw [hcodes.code_eq, hpath]
    decide +kernel
  refine ⟨inferInstance, x, hx, hlevel, hcode, ?_, MortonLocation.ofCode?_eq_some_iff.2 hcode⟩
  rw [hencodes.coordinates, hpath]
  decide +kernel

end AdaptiveMesh
