import AdaptiveMesh.Proofs.Location.Order

/-!
# Locations in another stored form

Converting a location keeps its level and coordinates, and so its path. A location of another form
has the same path exactly if it is what the location is converted to.
-/

namespace AdaptiveMesh

open LocationCode

variable {D : Nat} {L M : Type} [LocationCode D L] [LocationCode D M]

namespace LocationCode

section

variable [LawfulLocation M]

/-- Converting keeps the level and the coordinates. -/
theorem convert_eq_ok_iff {x : L} {y : M} :
    convert M x = .ok y ↔ level y = level x ∧ coordinates y = coordinates x := by
  rw [convert, locate_eq_ok_iff]
  refine and_congr_right fun _ => ⟨fun h => Vector.ext fun d hd => h ⟨d, hd⟩, fun h d => ?_⟩
  rw [place, h]

theorem exists_convert [LawfulLocation L] {x : L} (h : level x ≤ maxLevel M) :
    ∃ y : M, convert M x = .ok y := by
  obtain ⟨y, hlevel, hplace⟩ := exists_location (L := M) h (place x) (LawfulLocation.place_lt x)
  exact ⟨y, locate_eq_ok_iff.2 ⟨hlevel, hplace⟩⟩

end

variable [LawfulLocation L] [LawfulLocation M] {x x' : L} {y y' : M}

theorem path_convert (h : convert M x = .ok y) : path y = path x := by
  obtain ⟨hlevel, hcoordinates⟩ := convert_eq_ok_iff.1 h
  rw [path, path, hlevel]
  refine List.map_congr_left fun l hl => ?_
  rw [List.mem_range] at hl
  rw [LawfulLocation.childPosition_eq y (Nat.succ_pos l) (by omega),
    LawfulLocation.childPosition_eq x (Nat.succ_pos l) hl, hlevel, hcoordinates]

theorem compare_convert (h : convert M x = .ok y) (h' : convert M x' = .ok y') :
    compare y y' = compare x x' := by
  rw [compare_eq_compare_path, compare_eq_compare_path, path_convert h, path_convert h']

theorem parent?_convert (h : convert M x = .ok y) (h' : convert M x' = .ok y') :
    parent? y = some y' ↔ parent? x = some x' := by
  obtain ⟨hlevel, hcoordinates⟩ := convert_eq_ok_iff.1 h
  obtain ⟨hlevel', hcoordinates'⟩ := convert_eq_ok_iff.1 h'
  simp only [parent?_eq_some_iff, place, hlevel, hlevel', hcoordinates, hcoordinates']

/-! ## One path in two forms -/

/-- The locations have the same path. -/
def SamePath (x : L) (y : M) : Prop := path y = path x

theorem samePath_iff_convert : SamePath x y ↔ convert M x = .ok y := by
  constructor
  · intro h
    have hlevel : level x = level y := by rw [← length_path x, ← length_path y, h]
    obtain ⟨y', hy'⟩ := exists_convert (M := M) (hlevel.trans_le (LawfulLocation.level_le y))
    rw [hy', path_injective ((path_convert hy').trans h.symm)]
  · exact path_convert

theorem samePath_iff : SamePath x y ↔ level y = level x ∧ ∀ d, place y d = place x d := by
  rw [samePath_iff_convert, convert, locate_eq_ok_iff]
  rfl

namespace SamePath

omit [LawfulLocation L] [LawfulLocation M] in
theorem symm (h : SamePath x y) : SamePath y x := Eq.symm h

omit [LawfulLocation L] [LawfulLocation M] in
theorem level_eq (h : SamePath x y) : level y = level x := by
  rw [← length_path y, ← length_path x, h]

theorem place_eq (h : SamePath x y) (d : Fin D) : place y d = place x d := (samePath_iff.1 h).2 d

theorem coordinates_eq (h : SamePath x y) : coordinates y = coordinates x :=
  (convert_eq_ok_iff.1 (samePath_iff_convert.1 h)).2

theorem childPosition_eq (h : SamePath x y) {l : Nat} (h₁ : 1 ≤ l) (h₂ : l ≤ level x) :
    childPosition y l = childPosition x l := by
  have h₂' : l ≤ level y := by rwa [h.level_eq]
  rw [LawfulLocation.childPosition_eq x h₁ h₂, LawfulLocation.childPosition_eq y h₁ h₂',
    h.coordinates_eq, h.level_eq]

theorem push (h : SamePath x y) (hx : level x < maxLevel L) (hy : level y < maxLevel M)
    (p : ChildPosition D) : SamePath (LocationCode.push x p hx) (LocationCode.push y p hy) := by
  apply samePath_iff.2
  refine ⟨by simp only [LawfulLocation.level_push, h.level_eq], fun d => ?_⟩
  simp only [LawfulLocation.place_push, h.place_eq]

theorem pop (h : SamePath x y) (hx : 0 < level x) (hy : 0 < level y) :
    SamePath (LocationCode.pop x hx).2 (LocationCode.pop y hy).2 := by
  apply samePath_iff.2
  refine ⟨by simp only [LawfulLocation.level_pop, h.level_eq], fun d => ?_⟩
  simp only [LawfulLocation.place_pop, h.place_eq]

theorem up (h : SamePath x y) (n : Nat) : SamePath (LocationCode.up n x) (LocationCode.up n y) := by
  apply samePath_iff.2
  refine ⟨by simp only [level_up, h.level_eq], fun d => ?_⟩
  simp only [place_up, h.place_eq]

end SamePath

end LocationCode

end AdaptiveMesh
