import AdaptiveMesh.Word
import Mathlib

/-!
# Words that fit

The checked operations give the exact result where that fits its word. `shiftDown`, `shiftUp` and
`narrow` are more of them: they check what the operation on words takes for granted.
-/

namespace AdaptiveMesh

namespace Word

theorem checked_of_le {n : Nat} (h : bound ≤ n) : checked n = .error .overflow :=
  if_neg (Nat.not_lt.2 h)

theorem add_eq_ok {a b : Nat} (h : a + b < bound) : add a b = .ok (a + b) := checked_of_lt h

theorem mul_eq_ok {a b : Nat} (h : a * b < bound) : mul a b = .ok (a * b) := checked_of_lt h

theorem sub_eq_ok {a b : Nat} (h : b ≤ a) : sub a b = .ok (a - b) := if_pos h

theorem add_eq_ok_iff {a b c : Nat} : add a b = .ok c ↔ a + b < bound ∧ c = a + b :=
  checked_eq_ok_iff

theorem mul_eq_ok_iff {a b c : Nat} : mul a b = .ok c ↔ a * b < bound ∧ c = a * b :=
  checked_eq_ok_iff

theorem sub_eq_ok_iff {a b c : Nat} : sub a b = .ok c ↔ b ≤ a ∧ c = a - b := by
  unfold sub
  split
  · next h => simp [h, eq_comm]
  · next h => simp [h]

theorem pow_eq_ok_iff {b e c : Nat} (hb : b < bound) : pow b e = .ok c ↔ b ^ e < bound ∧ c = b ^ e := by
  rw [pow_eq_checked e hb, checked_eq_ok_iff]

theorem pow_eq_ok {b e : Nat} (hb : b < bound) (h : b ^ e < bound) : pow b e = .ok (b ^ e) :=
  (pow_eq_ok_iff hb).2 ⟨h, rfl⟩

theorem pow_two_eq_checked (b : Nat) : pow b 2 = checked (b ^ 2) := by
  rcases Nat.lt_or_ge 1 b with hb | hb
  · rw [pow, if_neg (by omega), if_neg (by decide)]
  · exact pow_eq_checked 2 (Nat.lt_of_le_of_lt hb (by decide))

theorem bound_eq : bound = 2 * 2 ^ (width - 1) := by decide

theorem half_bound_lt : 2 ^ (width - 1) < bound := Nat.pow_lt_pow_right (by decide) (by decide)

theorem arraySize_eq_ok_iff {size bytes n : Nat} :
    arraySize size bytes = .ok n ↔ size * bytes < 2 ^ (width - 1) ∧ n = size := by
  unfold arraySize
  split
  · next h => simp [h, eq_comm]
  · next h => simp [h]

/-- A word of `bits` bits moved down by `n` of them, which has to leave some. -/
def shiftDown (bits word n : Nat) : Except Fault Nat :=
  if n < bits then .ok (word / 2 ^ n) else .error .overflow

theorem shiftDown_eq_ok {bits word n : Nat} (h : n < bits) :
    shiftDown bits word n = .ok (word / 2 ^ n) := if_pos h

/-- A word of `bits` bits moved up by `n` of them, which has to keep every bit that is set. -/
def shiftUp (bits word n : Nat) : Except Fault Nat :=
  if n < bits ∧ word * 2 ^ n < 2 ^ bits then .ok (word * 2 ^ n) else .error .overflow

/-- The number in a word of `bits` bits, which has to have room for it. -/
def narrow (bits n : Nat) : Except Fault Nat :=
  if n < 2 ^ bits then .ok n else .error .overflow

/-- A signed number of steps from a word, if a word counts where they lead. -/
def addSigned? (n : Nat) (z : Int) : Option Nat :=
  if 0 ≤ n + z ∧ n + z < bound then some (n + z).toNat else none

theorem shiftUp_eq_ok {bits word n : Nat} (hn : n < bits) (h : word * 2 ^ n < 2 ^ bits) :
    shiftUp bits word n = .ok (word * 2 ^ n) := if_pos ⟨hn, h⟩

theorem narrow_eq_ok {bits n : Nat} (h : n < 2 ^ bits) : narrow bits n = .ok n := if_pos h

theorem toSigned_of_lt {n : Nat} (h : n < 2 ^ (width - 1)) : toSigned n = n := if_pos h

theorem eq_of_checkedSigned {z w : Int} (h : checkedSigned z = .ok w) : w = z := by
  unfold checkedSigned at h
  dsimp only at h
  split at h
  · exact (Except.ok.inj h).symm
  · contradiction

theorem checkedSigned_natCast {n : Nat} (h : n < 2 ^ (width - 1)) :
    checkedSigned (n : Int) = .ok (n : Int) := by
  unfold checkedSigned
  generalize 2 ^ (width - 1) = bound at h
  exact if_pos ⟨by omega, by omega⟩

end Word

end AdaptiveMesh
