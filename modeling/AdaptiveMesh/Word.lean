import AdaptiveMesh.Bits
import AdaptiveMesh.Fault

/-!
# Checked 64-bit arithmetic

Natural numbers that have to fit a word of 64 bits. Each operation answers the exact result, or
`Fault.overflow` where that result does not fit: `checked` is the whole rule, and the operations
are the exact ones followed by it. Signed words appear only where two words are compared after a
subtraction.
-/

namespace AdaptiveMesh

namespace Word

/-- Bits of a word. -/
def width : Nat := 64

/-- Words are below this bound. -/
def bound : Nat := 2 ^ width

/-- The number, if it fits a word. -/
def checked (n : Nat) : Except Fault Nat :=
  if n < bound then .ok n else .error .overflow

def add (a b : Nat) : Except Fault Nat := checked (a + b)

def mul (a b : Nat) : Except Fault Nat := checked (a * b)

def sub (a b : Nat) : Except Fault Nat :=
  if b ≤ a then .ok (a - b) else .error .overflow

/-- A one moved up by `n` bits, which has to leave it inside the word. -/
def twoPow (n : Nat) : Except Fault Nat :=
  if n < width then .ok (2 ^ n) else .error .overflow

/-- The same as `checked (b ^ e)`, without raising a base above one to a power that cannot fit. -/
def pow (b e : Nat) : Except Fault Nat :=
  if b ≤ 1 then .ok (if e = 0 then 1 else b)
  else if width ≤ e then .error .overflow
  else checked (b ^ e)

/-- The signed number with the same 64 bits. -/
def toSigned (n : Nat) : Int :=
  if n < 2 ^ (width - 1) then n else (n : Int) - bound

/-- The number, if it fits a signed word. -/
def checkedSigned (z : Int) : Except Fault Int :=
  let bound : Int := (2 ^ (width - 1) : Nat)
  if -bound ≤ z ∧ z < bound then .ok z else .error .overflow

/-- The size of an array with entries of `bytes` bytes, if a signed word counts all its bytes. -/
def arraySize (size bytes : Nat) : Except Fault Nat :=
  if size * bytes < 2 ^ (width - 1) then .ok size else .error .capacity

/-! ## When each operation succeeds -/

theorem checked_of_lt {n : Nat} (h : n < bound) : checked n = .ok n := if_pos h

theorem checked_eq_ok_iff {n m : Nat} : checked n = .ok m ↔ n < bound ∧ m = n := by
  unfold checked
  split
  · next h => simp [h, eq_comm]
  · next h => simp [h]

theorem twoPow_of_lt {n : Nat} (h : n < width) : twoPow n = .ok (2 ^ n) := if_pos h

theorem pow_eq_checked {b : Nat} (e : Nat) (hb : b < bound) : pow b e = checked (b ^ e) := by
  unfold pow
  split
  · next h =>
    rcases Nat.le_one_iff_eq_zero_or_eq_one.mp h with rfl | rfl
    · rcases Nat.eq_zero_or_pos e with rfl | he
      · simp [checked, bound, width]
      · simp [checked, bound, width, Nat.zero_pow he, Nat.ne_of_gt he]
    · simp [checked, bound, width]
  · next h =>
    split
    · next he =>
      have : bound ≤ b ^ e :=
        calc bound = 2 ^ width := rfl
          _ ≤ 2 ^ e := Nat.pow_le_pow_right (by decide) he
          _ ≤ b ^ e := Nat.pow_le_pow_left (by omega) e
      simp [checked, Nat.not_lt.mpr this]
    · rfl

end Word

end AdaptiveMesh
