import AdaptiveMesh.Proofs.Except
import AdaptiveMesh.Proofs.Location.Convert
import AdaptiveMesh.Proofs.Location.Grid
import AdaptiveMesh.Proofs.Location.Morton

/-!
# Stored forms in lockstep

The same moves are made from a location in one stored form and from the location with the same path
in another. As long as no move goes deeper than both forms can store, each move is refused by both
for the same fault, leads nowhere in both, or leads to locations with the same path again; and
whatever is asked of locations with the same path has the same answer.
-/

namespace AdaptiveMesh

open LocationCode

variable {D : Nat} {L M : Type} [LocationCode D L] [LocationCode D M]

/-! ## Moves -/

/-- A move from one location to another. -/
inductive Move (D : Nat) where
  | push (p : ChildPosition D)
  | pop
  | child (p : ChildPosition D)
  | parent
  | ancestor (l : Nat)
  | shift (o : Offset D)
  | locate (place : Vector Nat D) (l : Nat)

namespace Move

/-- The position that a move takes off the path, if it does, and the location that it leads to, if
there is one. -/
def reply (x : L) : Move D → Except Fault (Option (ChildPosition D) × Option L)
  | push p => return (none, some (← descend x p))
  | pop => do
    let (p, y) ← ascend x
    return (some p, some y)
  | child p => return (none, child? x p)
  | parent => return (none, parent? x)
  | ancestor l => return (none, some (← LocationCode.ancestor x l))
  | shift o => return (none, ← LocationCode.shift x o)
  | locate place l => return (none, some (← LocationCode.locate place l))

/-- Where a move leads to. A move that is refused or leads nowhere leaves the location. -/
def next (x : L) (m : Move D) : L :=
  match m.reply x with
  | .ok (_, some y) => y
  | _ => x

/-- From level `start` the move goes no deeper than `deepest`. -/
def Within (deepest start : Nat) : Move D → Prop
  | push _ | child _ => start < deepest
  | locate _ l => l ≤ deepest
  | pop | parent | ancestor _ | shift _ => True

/-- The replies to moves made one after the other. -/
def replies (x : L) : List (Move D) → List (Except Fault (Option (ChildPosition D) × Option L))
  | [] => []
  | m :: ms => m.reply x :: replies (m.next x) ms

/-- The locations that moves go through, the first one among them. -/
def reached (x : L) : List (Move D) → List L
  | [] => [x]
  | m :: ms => x :: reached (m.next x) ms

/-- No move goes deeper than `deepest`. -/
def AllWithin (deepest : Nat) (x : L) : List (Move D) → Prop
  | [] => True
  | m :: ms => m.Within deepest (level x) ∧ AllWithin deepest (m.next x) ms

/-- The same fault, or the same position and either no location in both or locations with the same
path. -/
inductive Alike : Except Fault (Option (ChildPosition D) × Option L) →
    Except Fault (Option (ChildPosition D) × Option M) → Prop where
  | fault (e : Fault) : Alike (.error e) (.error e)
  | nowhere (p : Option (ChildPosition D)) : Alike (.ok (p, none)) (.ok (p, none))
  | reached (p : Option (ChildPosition D)) {x : L} {y : M} (h : SamePath x y) :
    Alike (.ok (p, some x)) (.ok (p, some y))

variable [LawfulLocation L] [LawfulLocation M] {x : L} {y : M}

/-! ## One move -/

theorem alike_push (h : SamePath x y) {p : ChildPosition D} (hx : level x < maxLevel L)
    (hy : level x < maxLevel M) : Alike ((push p).reply x) ((push p).reply y) := by
  have hy' : level y < maxLevel M := by rwa [h.level_eq]
  simp only [reply, descend, dif_pos hx, dif_pos hy']
  exact .reached none (h.push hx hy' p)

theorem alike_pop (h : SamePath x y) : Alike (pop.reply x) (pop.reply y) := by
  by_cases hx : 0 < level x
  · have hy : 0 < level y := by rwa [h.level_eq]
    have hpos : (LocationCode.pop x hx).1 = (LocationCode.pop y hy).1 := by
      rw [LawfulLocation.pop_fst, LawfulLocation.pop_fst, h.level_eq, h.childPosition_eq hx le_rfl]
    simp only [reply, ascend, dif_pos hx, dif_pos hy]
    show Alike (.ok (some _, some _)) (.ok (some _, some _))
    rw [hpos]
    exact .reached _ (h.pop hx hy)
  · have hy : ¬ 0 < level y := by rwa [h.level_eq]
    simp only [reply, ascend, dif_neg hx, dif_neg hy]
    exact .fault _

theorem alike_child (h : SamePath x y) {p : ChildPosition D} (hx : level x < maxLevel L)
    (hy : level x < maxLevel M) : Alike ((child p).reply x) ((child p).reply y) := by
  have hy' : level y < maxLevel M := by rwa [h.level_eq]
  simp only [reply, child?, dif_pos hx, dif_pos hy']
  exact .reached none (h.push hx hy' p)

theorem alike_parent (h : SamePath x y) : Alike (parent.reply x) (parent.reply y) := by
  by_cases hx : 0 < level x
  · have hy : 0 < level y := by rwa [h.level_eq]
    simp only [reply, parent?, dif_pos hx, dif_pos hy]
    exact .reached none (h.pop hx hy)
  · have hy : ¬ 0 < level y := by rwa [h.level_eq]
    simp only [reply, parent?, dif_neg hx, dif_neg hy]
    exact .nowhere none

theorem alike_ancestor (h : SamePath x y) {l : Nat} :
    Alike ((ancestor l).reply x) ((ancestor l).reply y) := by
  simp only [reply, LocationCode.ancestor, h.level_eq]
  by_cases hl : l ≤ level x
  · simp only [if_pos hl]
    exact .reached none (h.up _)
  · simp only [if_neg hl]
    exact .fault _

theorem alike_locate {place : Vector Nat D} {l : Nat} (hL : l ≤ maxLevel L) (hM : l ≤ maxLevel M) :
    Alike (L := L) (M := M) ((locate place l).reply x) ((locate place l).reply y) := by
  simp only [reply, LocationCode.locate, dif_pos hL, dif_pos hM]
  by_cases hp : ∀ d : Fin D, place.get d < 2 ^ l
  · simp only [dif_pos hp]
    refine .reached none (samePath_iff.2 ⟨?_, fun d => ?_⟩)
    · simp only [LawfulLocation.level_ofCoordinates]
    · simp only [LocationCode.place, LawfulLocation.coordinates_ofCoordinates]
  · simp only [dif_neg hp]
    cases (List.finRange D).find? fun d => 2 ^ l ≤ place.get d with
    | none => exact .fault _
    | some d => exact .fault _

theorem alike_shift (h : SamePath x y) {o : Offset D} :
    Alike ((shift o).reply x) ((shift o).reply y) := by
  have hL : level x ≤ maxLevel L := LawfulLocation.level_le x
  have hM : level x ≤ maxLevel M := h.level_eq ▸ LawfulLocation.level_le y
  simp only [reply, LocationCode.shift, h.level_eq, h.coordinates_eq]
  cases (List.finRange D).find? fun d => 1 < (o.get d).natAbs with
  | some d => exact .fault _
  | none =>
    cases Word.twoPow (level x) with
    | error e => exact .fault e
    | ok extent =>
      generalize (Vector.ofFn fun d => ((coordinates x).get d : Int) + o.get d) = moved
      simp only [ok_bind]
      by_cases hin : ∀ d : Fin D, 0 ≤ moved.get d ∧ moved.get d < extent
      · simp only [if_pos hin, bind_assoc, pure_bind]
        exact alike_locate (x := x) (y := y) hL hM
      · simp only [if_neg hin, pure_bind]
        exact .nowhere none

/-- A move that does not go deeper than both forms can store does the same to locations with the same
path. -/
theorem alike_reply (h : SamePath x y) {m : Move D}
    (hm : m.Within (min (maxLevel L) (maxLevel M)) (level x)) : Alike (m.reply x) (m.reply y) := by
  cases m with
  | push p => exact alike_push h (lt_min_iff.1 hm).1 (lt_min_iff.1 hm).2
  | pop => exact alike_pop h
  | child p => exact alike_child h (lt_min_iff.1 hm).1 (lt_min_iff.1 hm).2
  | parent => exact alike_parent h
  | ancestor l => exact alike_ancestor h
  | shift o => exact alike_shift h
  | locate place l => exact alike_locate (le_min_iff.1 hm).1 (le_min_iff.1 hm).2

/-! ## Moves one after the other -/

omit [LawfulLocation L] [LawfulLocation M] in
/-- Like replies lead to like places. -/
theorem samePath_next (h : SamePath x y) {m : Move D} (hm : Alike (m.reply x) (m.reply y)) :
    SamePath (m.next x) (m.next y) := by
  unfold next
  generalize m.reply x = r at hm
  generalize m.reply y = r' at hm
  cases hm with
  | fault e => exact h
  | nowhere p => exact h
  | reached p h' => exact h'

theorem alike_replies (h : SamePath x y) {moves : List (Move D)}
    (hmoves : AllWithin (min (maxLevel L) (maxLevel M)) x moves) :
    List.Forall₂ Alike (replies x moves) (replies y moves) ∧
      List.Forall₂ SamePath (reached x moves) (reached y moves) := by
  induction moves generalizing x y with
  | nil => exact ⟨.nil, .cons h .nil⟩
  | cons m ms ih =>
    have hm := alike_reply h hmoves.1
    have hms := ih (samePath_next h hm) hmoves.2
    exact ⟨.cons hm hms.1, .cons h hms.2⟩

end Move

/-! ## Answers -/

/-- Whatever is asked of the two locations has one answer, and each converts to the other. -/
structure SameAnswers (x : L) (y : M) : Prop where
  level : level y = level x
  coordinates : coordinates y = coordinates x
  path : path y = path x
  positionAt (l : Nat) : positionAt y l = positionAt x l
  isRoot : isRoot y = isRoot x
  isValid : isValid y = isValid x
  convert : convert M x = .ok y
  convert_back : LocationCode.convert L y = .ok x

/-- Two locations of the one form stand to each other as two of the other form do. -/
structure SameRelations (x x' : L) (y y' : M) : Prop where
  isAncestorOf : isAncestorOf y y' = isAncestorOf x x'
  compare : compare y y' = compare x x'
  eq_iff : y = y' ↔ x = x'

/-- The two stored forms take moves in lockstep: whatever locations with the same path moves start
from, as long as no move goes deeper than both forms can store, the replies are alike and all
locations reached have the same paths. Locations with the same path have the same answers to
everything, and stand to each other in the same way. -/
structure InLockstep (L M : Type) [LocationCode D L] [LocationCode D M] : Prop where
  root : SamePath (root : L) (root : M)
  run (x : L) (y : M) : SamePath x y → ∀ moves : List (Move D),
    Move.AllWithin (min (maxLevel L) (maxLevel M)) x moves →
      List.Forall₂ Move.Alike (Move.replies x moves) (Move.replies y moves) ∧
        List.Forall₂ SamePath (Move.reached x moves) (Move.reached y moves)
  answers (x : L) (y : M) : SamePath x y → SameAnswers x y
  relations (x x' : L) (y y' : M) : SamePath x y → SamePath x' y' → SameRelations x x' y y'
  convert (x : L) : level x ≤ maxLevel M →
    ∃ y : M, SamePath x y ∧ convert M x = .ok y ∧ LocationCode.convert L y = .ok x
  convert_back (y : M) : level y ≤ maxLevel L →
    ∃ x : L, SamePath x y ∧ LocationCode.convert L y = .ok x ∧ LocationCode.convert M x = .ok y

section Lawful

variable [LawfulLocation L] [LawfulLocation M] {x x' : L} {y y' : M}

theorem sameAnswers_of_samePath (h : SamePath x y) : SameAnswers x y where
  level := h.level_eq
  coordinates := h.coordinates_eq
  path := h
  positionAt l := by
    unfold LocationCode.positionAt
    rw [h.level_eq]
    by_cases hl : 1 ≤ l ∧ l ≤ LocationCode.level x
    · rw [if_pos hl, if_pos hl, h.childPosition_eq hl.1 hl.2]
    · rw [if_neg hl, if_neg hl]
  isRoot := by
    unfold LocationCode.isRoot
    rw [h.level_eq]
  isValid := by rw [LawfulLocation.isValid_eq, LawfulLocation.isValid_eq]
  convert := samePath_iff_convert.1 h
  convert_back := samePath_iff_convert.1 h.symm

theorem eq_iff_of_samePath (h : SamePath x y) (h' : SamePath x' y') : y = y' ↔ x = x' := by
  constructor
  · rintro rfl
    exact path_injective (h.symm.trans h')
  · rintro rfl
    exact path_injective (h.trans h'.symm)

theorem sameRelations_of_samePath (h : SamePath x y) (h' : SamePath x' y') :
    SameRelations x x' y y' where
  isAncestorOf := by
    apply Bool.eq_iff_iff.2
    rw [isAncestorOf_iff_path, isAncestorOf_iff_path, Ne, Ne, eq_iff_of_samePath h h', h, h']
  compare := by rw [compare_eq_compare_path, compare_eq_compare_path, h, h']
  eq_iff := eq_iff_of_samePath h h'

theorem exists_samePath (hx : level x ≤ maxLevel M) :
    ∃ y : M, SamePath x y ∧ convert M x = .ok y ∧ convert L y = .ok x := by
  obtain ⟨y, hy⟩ := exists_convert hx
  have h := samePath_iff_convert.2 hy
  exact ⟨y, h, hy, samePath_iff_convert.1 h.symm⟩

theorem inLockstep (L M : Type) [LocationCode D L] [LocationCode D M] [LawfulLocation L]
    [LawfulLocation M] : InLockstep L M where
  root := samePath_iff.2 (by simp)
  run _ _ h _ hmoves := Move.alike_replies h hmoves
  answers _ _ h := sameAnswers_of_samePath h
  relations _ _ _ _ h h' := sameRelations_of_samePath h h'
  convert _ hx := exists_samePath hx
  convert_back y hy := by
    obtain ⟨x, h, hx, hy'⟩ := exists_samePath hy
    exact ⟨x, h.symm, hx, hy'⟩

end Lawful

/-- Codes of either width and grid coordinates take moves in lockstep. -/
theorem inLockstep_codes_grid (D : Nat) [Dimension D] :
    InLockstep (MortonLocation D 32) (MortonLocation D 64) ∧
      InLockstep (MortonLocation D 32) (GridLocation D) ∧
        InLockstep (MortonLocation D 64) (GridLocation D) :=
  ⟨inLockstep _ _, inLockstep _ _, inLockstep _ _⟩

/-- In space, where codes of 32 bits are ten levels deep. -/
theorem inLockstep_codes_grid_space : Dimension 3 ∧
    InLockstep (MortonLocation 3 32) (MortonLocation 3 64) ∧
      InLockstep (MortonLocation 3 32) (GridLocation 3) ∧
        InLockstep (MortonLocation 3 64) (GridLocation 3) :=
  ⟨inferInstance, inLockstep_codes_grid 3⟩

end AdaptiveMesh
