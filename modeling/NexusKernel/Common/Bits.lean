import Mathlib

/-!
# Masks on natural numbers

`x & ~(2^k - 1)` clears the low `k` bits, which is rounding down to a multiple of
`2^k`. The complement is taken in a word of `w` bits.
-/

namespace NexusKernel

/-- Masking a `w`-bit number with all but the low `k` bits rounds it down to a
    multiple of `2^k`. -/
theorem and_high_mask {x k w : ℕ} (hk : k ≤ w) (hx : x < 2 ^ w) :
    x &&& (2 ^ w - 2 ^ k) = x / 2 ^ k * 2 ^ k := by
  have hmask : 2 ^ w - 2 ^ k = (2 ^ (w - k) - 1) * 2 ^ k := by
    rw [Nat.sub_mul, one_mul, ← pow_add, Nat.sub_add_cancel hk]
  apply Nat.eq_of_testBit_eq
  intro i
  rw [hmask, Nat.testBit_and, Nat.testBit_mul_two_pow, Nat.testBit_mul_two_pow,
    Nat.testBit_two_pow_sub_one, Nat.testBit_div_two_pow]
  by_cases hi : k ≤ i
  · by_cases hiw : i < w
    · simp [hi, show i - k < w - k by omega]
    · have : x.testBit i = false :=
        Nat.testBit_eq_false_of_lt (lt_of_lt_of_le hx (Nat.pow_le_pow_right (by norm_num) (by omega)))
      simp [hi, this]
  · simp [hi]

end NexusKernel
