import AdaptiveMesh.Axis
import AdaptiveMesh.Count
import AdaptiveMesh.Proofs.Except
import AdaptiveMesh.Proofs.Word

/-!
# Counts that fit

The counts are exact where they fit a word. Each node has `2 ^ dim` children, so a level has that
many times the nodes of the level above, and all levels together are a geometric sum.

The ways to choose are counted by products that are larger than the counts. Before step `i` a run
holds the number of ways to choose `i` things, so the step multiplies to `i + 1` times the next
number and divides exactly. Up to half of the things the products grow, and the last one tells
whether the run stays in its word.
-/

namespace AdaptiveMesh

theorem Dimension.lt_width {D : Nat} [Dimension D] : D < Word.width :=
  lt_of_le_of_lt Dimension.le_three (by decide)

namespace Count

variable {dim : Nat}

theorem children_eq_ok (hdim : dim < Word.width) : children dim = .ok (2 ^ dim) :=
  Word.twoPow_of_lt hdim

theorem nodesAtLevel_eq_checked (hdim : dim < Word.width) (level : Nat) :
    nodesAtLevel dim level = Word.checked ((2 ^ dim) ^ level) := by
  rw [nodesAtLevel, children_eq_ok hdim, ok_bind]
  exact Word.pow_eq_checked level (Nat.pow_lt_pow_right (by decide) hdim)

/-- Adding level by level overflows only if the sum does, since no level takes away from it. -/
theorem addLevels_eq_checked (hdim : dim < Word.width) (levels level : Nat) {total : Nat}
    (htotal : total < Word.bound) : addLevels dim levels level total =
      Word.checked (total + ∑ l ∈ Finset.range levels, (2 ^ dim) ^ (level + l)) := by
  induction levels generalizing level total with
  | zero => rw [addLevels, Finset.sum_range_zero, Nat.add_zero, Word.checked_of_lt htotal]
  | succ levels ih =>
    have hsum : total + ∑ l ∈ Finset.range (levels + 1), (2 ^ dim) ^ (level + l) =
        total + (2 ^ dim) ^ level + ∑ l ∈ Finset.range levels, (2 ^ dim) ^ (level + 1 + l) := by
      rw [Finset.sum_range_succ', Nat.add_zero, Nat.add_assoc, Nat.add_comm ((2 ^ dim) ^ level)]
      simp only [Nat.add_assoc, Nat.add_comm 1]
    rw [hsum, addLevels, nodesAtLevel_eq_checked hdim]
    generalize (2 ^ dim) ^ level = here
    rcases Nat.lt_or_ge (total + here) Word.bound with hfits | hover
    · rw [Word.checked_of_lt (lt_of_le_of_lt (Nat.le_add_left here total) hfits), ok_bind,
        Word.add_eq_ok hfits, ok_bind, ih _ hfits]
    · rw [Word.checked_of_le (hover.trans (Nat.le_add_right _ _))]
      rcases Nat.lt_or_ge here Word.bound with hhere | hhere
      · rw [Word.checked_of_lt hhere, ok_bind, Word.add, Word.checked_of_le hover]
        rfl
      · rw [Word.checked_of_le hhere]
        rfl

theorem nodesUpToLevel_eq_checked (hdim : dim < Word.width) (level : Nat) :
    nodesUpToLevel dim level =
      Word.checked (∑ l ∈ Finset.range (level + 1), (2 ^ dim) ^ l) := by
  rw [nodesUpToLevel, addLevels_eq_checked hdim _ _ (by decide), Nat.zero_add]
  simp only [Nat.zero_add]

/-- The nodes of all levels in closed form. -/
theorem sum_levels_eq (hdim : 0 < dim) (level : Nat) :
    ∑ l ∈ Finset.range (level + 1), (2 ^ dim) ^ l =
      (2 ^ (dim * (level + 1)) - 1) / (2 ^ dim - 1) := by
  rw [Nat.geomSum_eq (Nat.one_lt_two_pow hdim.ne'), ← pow_mul]

/-! ## Ways to choose -/

section Choose

variable {n i : Nat}

/-- A run goes on from what its first steps give. -/
theorem binomialSteps_add (n a b i result : Nat) : binomialSteps n (a + b) i result =
    binomialSteps n a i result >>= fun r => binomialSteps n b (i + a) r := by
  induction a generalizing i result with
  | zero => rw [Nat.zero_add, binomialSteps, ok_bind, Nat.add_zero]
  | succ a ih =>
    rw [Nat.add_right_comm, binomialSteps, binomialSteps, bind_assoc]
    refine bind_congr fun product => ?_
    rw [ih, Nat.add_right_comm, Nat.add_assoc i a 1]

theorem choose_mul_sub (n i : Nat) : n.choose i * (n - i) = (i + 1) * n.choose (i + 1) := by
  rw [← Nat.choose_succ_right_eq, Nat.mul_comm]

/-- A step leads from one number of ways to the next. -/
theorem binomialSteps_one (n i : Nat) : binomialSteps n 1 i (n.choose i) =
    Word.checked ((i + 1) * n.choose (i + 1)) >>= fun _ => .ok (n.choose (i + 1)) := by
  rw [binomialSteps, Word.mul, choose_mul_sub]
  unfold Word.checked
  split
  · rw [ok_bind, ok_bind, binomialSteps, Nat.mul_div_cancel_left _ (Nat.succ_pos i)]
  · rfl

/-- A run that is not refused has counted the ways to choose as many things as it took steps. -/
theorem eq_choose_of_binomialSteps {r : Nat} (h : binomialSteps n i 0 1 = .ok r) :
    r = n.choose i := by
  -- the step that has not been taken into account is the last one
  induction i generalizing r with
  | zero => rw [Nat.choose_zero_right, Except.ok.inj h]
  | succ i ih =>
    rw [binomialSteps_add, Nat.zero_add] at h
    obtain ⟨s, hs, h⟩ := bind_eq_ok_iff.1 h
    rw [ih hs, binomialSteps_one] at h
    obtain ⟨-, -, h⟩ := bind_eq_ok_iff.1 h
    exact (Except.ok.inj h).symm

/-- Up to half of `n` the products grow. -/
theorem mul_choose_le_mul_choose {j : Nat} (hij : i ≤ j) (hj : 2 * j ≤ n) :
    i * n.choose i ≤ j * n.choose j := by
  induction j, hij using Nat.le_induction with
  | base => exact le_rfl
  | succ j hij ih =>
    calc i * n.choose i ≤ j * n.choose j := ih (by omega)
      _ ≤ (j + 1) * n.choose (j + 1) :=
        Nat.mul_le_mul (Nat.le_succ j) (Nat.choose_le_succ_of_lt_half_left (by omega))

theorem binomialSteps_eq_ok (hi : 2 * i ≤ n) (hfits : i * n.choose i < Word.bound) :
    binomialSteps n i 0 1 = .ok (n.choose i) := by
  induction i with
  | zero => rw [Nat.choose_zero_right, binomialSteps]
  | succ i ih =>
    have hle := mul_choose_le_mul_choose (Nat.le_succ i) hi
    rw [binomialSteps_add, Nat.zero_add, ih (by omega) (hle.trans_lt hfits), ok_bind,
      binomialSteps_one, Word.checked_of_lt hfits, ok_bind]

/-- If the last product leaves the word, there is a first one that does. -/
theorem exists_mul_overflow (hi : 2 * i ≤ n) (hover : Word.bound ≤ i * n.choose i) : ∃ j < i,
    binomialSteps n j 0 1 = .ok (n.choose j) ∧
      Word.mul (n.choose j) (n - j) = .error .overflow := by
  induction i with
  | zero =>
    rw [Nat.zero_mul] at hover
    exact absurd hover (by decide)
  | succ i ih =>
    rcases Nat.lt_or_ge (i * n.choose i) Word.bound with hfits | hearlier
    · refine ⟨i, Nat.lt_succ_self i, binomialSteps_eq_ok (by omega) hfits, ?_⟩
      rw [Word.mul, choose_mul_sub, Word.checked_of_le hover]
    · obtain ⟨j, hj, h⟩ := ih (by omega) hearlier
      exact ⟨j, Nat.lt_succ_of_lt hj, h⟩

/-- A product that is refused ends the run. -/
theorem binomialSteps_eq_error {j r : Nat} {e : Fault} (hj : j < i)
    (h : binomialSteps n j 0 1 = .ok r) (he : Word.mul r (n - j) = .error e) :
    binomialSteps n i 0 1 = .error e := by
  obtain ⟨b, rfl⟩ : ∃ b, i = j + (b + 1) := ⟨i - j - 1, by omega⟩
  rw [binomialSteps_add, h, ok_bind, Nat.zero_add, binomialSteps, he]
  rfl

theorem choose_min {k : Nat} (hk : k ≤ n) : n.choose (min k (n - k)) = n.choose k := by
  rcases Nat.le_total k (n - k) with h | h
  · rw [Nat.min_eq_left h]
  · rw [Nat.min_eq_right h, Nat.choose_symm hk]

/-- Counting the ways to choose answers their number or is refused for a product that leaves the
word, and which of both is told by the last product. What a run holds before a step and multiplies
there is divided exactly. -/
theorem binomial_exact_until_overflow (n k : Nat) :
    (n < k → binomial n k = .ok 0) ∧
    (k ≤ n → ∃ m, m = min k (n - k) ∧ binomial n k = binomialSteps n m 0 1 ∧
      (∀ i < m, (binomialSteps n m 0 1 =
          binomialSteps n i 0 1 >>= fun r => binomialSteps n (m - i) i r) ∧
        ∀ r, binomialSteps n i 0 1 = .ok r → r = n.choose i ∧ i + 1 ∣ r * (n - i)) ∧
      (m * n.choose m < Word.bound → binomial n k = .ok (n.choose k)) ∧
      (Word.bound ≤ m * n.choose m → binomial n k = .error .overflow ∧ ∃ i < m, ∃ r,
        binomialSteps n i 0 1 = .ok r ∧ Word.mul r (n - i) = .error .overflow)) ∧
    ∀ r, binomial n k = .ok r → r = n.choose k := by
  have hnone (h : n < k) : binomial n k = .ok 0 := if_pos h
  have hrun (h : k ≤ n) : binomial n k = binomialSteps n (min k (n - k)) 0 1 :=
    if_neg (Nat.not_lt.2 h)
  refine ⟨hnone, fun hk => ⟨_, rfl, hrun hk, fun i hi => ⟨?_, fun r hr => ?_⟩, fun hfits => ?_,
    fun hover => ?_⟩, fun r hr => ?_⟩
  · have hadd := binomialSteps_add n i (min k (n - k) - i) 0 1
    rwa [Nat.add_sub_cancel' hi.le, Nat.zero_add] at hadd
  · rw [eq_choose_of_binomialSteps hr, choose_mul_sub]
    exact ⟨rfl, Nat.dvd_mul_right _ _⟩
  · rw [hrun hk, binomialSteps_eq_ok (by omega) hfits, choose_min hk]
  · obtain ⟨i, hi, hsteps, hmul⟩ := exists_mul_overflow (by omega) hover
    exact ⟨(hrun hk).trans (binomialSteps_eq_error hi hsteps hmul), i, hi, _, hsteps, hmul⟩
  · rcases Nat.lt_or_ge n k with h | h
    · rw [hnone h] at hr
      rw [Nat.choose_eq_zero_of_lt h, Except.ok.inj hr]
    · rw [hrun h] at hr
      rw [eq_choose_of_binomialSteps hr, choose_min h]

/-- The ways to choose half of 62 things are counted. Those for 63 would fit the word, but the
product before the last division does not. -/
theorem binomial_exact_until_overflow_half : 31 ≤ 62 ∧ 32 ≤ 63 ∧
    binomial 62 31 = .ok 465428353255261088 ∧
    Nat.choose 63 32 < Word.bound ∧ binomial 63 32 = .error .overflow := by
  have h62 : Nat.choose 62 31 = 465428353255261088 := by norm_num [Nat.choose]
  have h63 : Nat.choose 63 31 = 916312070471295267 := by norm_num [Nat.choose]
  obtain ⟨-, hfits, -⟩ := binomial_exact_until_overflow 62 31
  obtain ⟨m, rfl, -, -, hok, -⟩ := hfits (by decide)
  obtain ⟨-, hover, -⟩ := binomial_exact_until_overflow 63 32
  obtain ⟨m', rfl, -, -, -, herror⟩ := hover (by decide)
  rw [show min 31 (62 - 31) = 31 from rfl, h62] at hok
  rw [show min 32 (63 - 32) = 31 from rfl, h63] at herror
  refine ⟨by decide, by decide, hok (by decide), ?_, (herror (by decide)).1⟩
  rw [Nat.choose_symm_of_eq_add (show 63 = 32 + 31 from rfl), h63]
  decide

end Choose

end Count

end AdaptiveMesh
