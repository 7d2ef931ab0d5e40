/-!
# Bits of naturals

A natural as its binary digits: the number with given bits, and how many digits a number has when
bits are put behind it or taken off its end.

Child positions are made of `ofBits`, which needs its bound to build one. Batteries has the same
number as `Nat.ofBits`, with `Nat.ofBits_lt_two_pow` and `Nat.testBit_ofBits`; this module is one of
those that run and import only core, so it has its own.
-/

namespace AdaptiveMesh

/-- In this namespace `b ^ e` on naturals is the core power, also beside a library that gives every
monoid a power of its own. -/
scoped instance (priority := 2000) corePower : Pow Nat Nat := instPowNat

/-- The number whose bit `i`, for every `i` below `n`, is `f i`. -/
def ofBits (f : Nat → Bool) : Nat → Nat
  | 0 => 0
  | n + 1 => ofBits f n + if f n then 2 ^ n else 0

theorem ofBits_lt (f : Nat → Bool) (n : Nat) : ofBits f n < 2 ^ n := by
  induction n with
  | zero => simp [ofBits]
  | succ n ih =>
    simp only [ofBits, Nat.pow_succ]
    split <;> omega

theorem testBit_ofBits (f : Nat → Bool) (n i : Nat) :
    (ofBits f n).testBit i = (decide (i < n) && f i) := by
  induction n with
  | zero => simp [ofBits]
  | succ n ih =>
    have hsplit : ofBits f (n + 1) = 2 ^ n * (f n).toNat + ofBits f n := by
      cases h : f n <;> simp [ofBits, h, Nat.add_comm]
    rw [hsplit, Nat.testBit_two_pow_mul_add _ (ofBits_lt f n)]
    rcases Nat.lt_trichotomy i n with hi | rfl | hi
    · simp [ih, hi, show i < n + 1 by omega]
    · cases f i <;> simp
    · obtain ⟨j, hj⟩ : ∃ j, i - n = j + 1 := ⟨i - n - 1, by omega⟩
      cases f n <;>
        simp [hj, Nat.testBit_succ, show ¬ i < n by omega, show ¬ i < n + 1 by omega]

theorem log2_two_pow_mul_add {n k r : Nat} (hn : n ≠ 0) (hr : r < 2 ^ k) :
    (2 ^ k * n + r).log2 = n.log2 + k := by
  have h₁ : 2 ^ n.log2 ≤ n := Nat.log2_self_le hn
  have h₂ : n < 2 ^ (n.log2 + 1) := Nat.lt_log2_self
  have hpos : 0 < 2 ^ k := Nat.two_pow_pos k
  have hne : 2 ^ k * n + r ≠ 0 := by
    have := Nat.mul_pos hpos (Nat.pos_of_ne_zero hn)
    omega
  rw [Nat.log2_eq_iff hne]
  constructor
  · calc 2 ^ (n.log2 + k) = 2 ^ k * 2 ^ n.log2 := by rw [Nat.pow_add, Nat.mul_comm]
      _ ≤ 2 ^ k * n := Nat.mul_le_mul_left _ h₁
      _ ≤ 2 ^ k * n + r := Nat.le_add_right _ _
  · calc 2 ^ k * n + r < 2 ^ k * (n + 1) := by rw [Nat.mul_add, Nat.mul_one]; omega
      _ ≤ 2 ^ k * 2 ^ (n.log2 + 1) := Nat.mul_le_mul_left _ h₂
      _ = 2 ^ (n.log2 + k + 1) := by
        rw [← Nat.pow_add]
        congr 1
        omega

theorem log2_div_two_pow {n k : Nat} (h : k ≤ n.log2) (hn : n ≠ 0) :
    n / 2 ^ k ≠ 0 ∧ (n / 2 ^ k).log2 + k = n.log2 := by
  have hpos : 0 < 2 ^ k := Nat.two_pow_pos k
  have hne : n / 2 ^ k ≠ 0 := by
    have : 2 ^ k ≤ n := Nat.le_trans (Nat.pow_le_pow_right (by decide) h) (Nat.log2_self_le hn)
    have := Nat.div_pos this hpos
    omega
  refine ⟨hne, ?_⟩
  have := log2_two_pow_mul_add hne (Nat.mod_lt n hpos)
  rw [Nat.div_add_mod] at this
  omega

end AdaptiveMesh
