import AdaptiveMesh.Proofs.Location.MovesInWords

/-!
# Ancestors and the order

An ancestor is found by popping child positions, and the order is found from the front of two codes
or paths. `OrdersAncestors` says that the two fit together: an ancestor is a proper beginning of the
path, it goes before all its descendants, and these follow each other without a gap.
-/

namespace AdaptiveMesh

open LocationCode

variable {D : Nat}

/-! ## Ancestors in words -/

namespace LocationCode

variable {L : Type} [LocationCode D L] [WordMoves L]

/-- Pops child positions until the location is no deeper than a level, but at most `n` of them. -/
def popTo (l : Nat) : Nat → L → Except Fault L
  | 0, x => return x
  | n + 1, x => do
    if l < (← WordMoves.levelInWords x) then popTo l n (← WordMoves.popInWords x).2
    else return x

/-- The ancestor at a level no deeper than the location's own. -/
def ancestorInWords (x : L) (l : Nat) : Except Fault L := do
  let own ← WordMoves.levelInWords x
  if l ≤ own then popTo l own x else throw (.ancestorBelowNode l own)

/-- Whether `a` is a proper ancestor of `b`. -/
def isAncestorOfInWords (a b : L) : Except Fault Bool := do
  let l ← WordMoves.levelInWords a
  if l < (← WordMoves.levelInWords b) then return (← ancestorInWords b l) = a else return false

variable [LawfulLocation L] [LosslessMoves L]

/-- Every pop is one step up, so as many of them are made as there are levels in between. -/
theorem popTo_eq {l n : Nat} {x : L} (h : level x ≤ l + n) :
    popTo l n x = .ok (up (level x - l) x) := by
  induction n generalizing x with
  | zero =>
    rw [Nat.sub_eq_zero_of_le (show level x ≤ l from h)]
    rfl
  | succ n ih =>
    rw [popTo, LosslessMoves.level_eq, ok_bind]
    by_cases hl : l < level x
    · have hpos : 0 < level x := Nat.zero_lt_of_lt hl
      have hparent : parent? x = some (pop x hpos).2 := dif_pos hpos
      have hlevel : level (pop x hpos).2 = level x - 1 := LawfulLocation.level_pop x hpos
      have hups : level x - l = level x - 1 - l + 1 := by omega
      rw [if_pos hl, LosslessMoves.pop_eq, ascend, dif_pos hpos, ok_bind, ih (by omega), hlevel,
        hups, up, hparent]
    · rw [if_neg hl, Nat.sub_eq_zero_of_le (Nat.not_lt.1 hl)]
      rfl

theorem ancestorInWords_eq (x : L) (l : Nat) : ancestorInWords x l = ancestor x l := by
  rw [ancestorInWords, LosslessMoves.level_eq, ok_bind, popTo_eq (Nat.le_add_left _ _)]
  rfl

theorem isAncestorOfInWords_eq (a b : L) : isAncestorOfInWords a b = .ok (isAncestorOf a b) := by
  rw [isAncestorOfInWords, LosslessMoves.level_eq, LosslessMoves.level_eq, ok_bind, ok_bind,
    ancestorInWords_eq, isAncestorOf]
  by_cases h : level a < level b
  · rw [if_pos h, ancestor, if_pos h.le, decide_eq_true h]
    rfl
  · rw [if_neg h, decide_eq_false h]
    rfl

end LocationCode

/-! ## Ancestors in the order -/

/-- A location is above another exactly if its path is a proper beginning of the other's, which is
to say that its coordinates are the front bits of the other's. It goes before everything below it,
and what goes between the two is below it as well. -/
structure OrdersAncestors (L : Type) [LocationCode D L] [WordMoves L] : Prop where
  inWords (a b : L) : isAncestorOfInWords a b = .ok (isAncestorOf a b)
  iff_path (a b : L) : isAncestorOf a b = true ↔ path a <+: path b ∧ path a ≠ path b
  iff_coordinates (a b : L) : isAncestorOf a b = true ↔ level a < level b ∧
    ∀ d : Fin D, (coordinates b).get d >>> (level b - level a) = (coordinates a).get d
  compare_lt (a b : L) : isAncestorOf a b = true → compare a b = .lt
  between (a b c : L) : compare a b = .lt → compare b c = .lt → isAncestorOf a c = true →
    isAncestorOf a b = true

theorem ordersAncestors (L : Type) [LocationCode D L] [LawfulLocation L] [WordMoves L]
    [LosslessMoves L] : OrdersAncestors L where
  inWords := isAncestorOfInWords_eq
  iff_path a b := by
    have hne : path a ≠ path b ↔ a ≠ b := not_congr ⟨path_injective, congrArg path⟩
    rw [isAncestorOf_iff_path, hne]
  iff_coordinates a b := by
    rw [isAncestorOf_iff]
    refine and_congr_right fun _ => forall_congr' fun d => ?_
    rw [Nat.shiftRight_eq_div_pow]
    exact eq_comm
  compare_lt a b h := compare_of_isAncestorOf h
  between a b c hab hbc hac := isAncestorOf_of_between hac hab (by rw [hbc]; rfl)

/-- In each stored form the order puts every location in front of a run of all that is below it. -/
theorem ordersAncestors_codes_grid (D : Nat) [Dimension D] :
    OrdersAncestors (MortonLocation D 32) ∧ OrdersAncestors (MortonLocation D 64) ∧
      OrdersAncestors (GridLocation D) :=
  ⟨ordersAncestors _, ordersAncestors _, ordersAncestors _⟩

/-- In space the highest corner of level 32 lies below the highest child of the root, since the
front bit of its coordinates is set. -/
theorem ordersAncestors_codes_grid_space : Dimension 3 ∧ ∃ a b : GridLocation 3,
    level a = 1 ∧ level b = 32 ∧ isAncestorOf a b = true ∧ path a <+: path b ∧
      compare a b = .lt := by
  obtain ⟨-, -, horders⟩ := ordersAncestors_codes_grid 3
  obtain ⟨a, ha, haplace⟩ := exists_location (L := GridLocation 3) (l := 1) (by decide)
    (fun _ => 1) (by decide)
  obtain ⟨b, hb, hbplace⟩ := exists_location (L := GridLocation 3) (l := 32) (by decide)
    (fun _ => 2 ^ 32 - 1) (by decide)
  have habove : isAncestorOf a b = true := by
    refine (horders.iff_coordinates a b).2 ⟨by rw [ha, hb]; decide, fun d => ?_⟩
    show place b d >>> (level b - level a) = place a d
    rw [hbplace, haplace, ha, hb]
    decide
  exact ⟨inferInstance, a, b, ha, hb, habove, ((horders.iff_path a b).1 habove).1,
    horders.compare_lt a b habove⟩

end AdaptiveMesh
