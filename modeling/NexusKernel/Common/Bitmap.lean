import NexusKernel.Common.Mem

/-!
# Packed bitmaps

A bitmap packs eight bits to a byte, least significant first. `bit b` is the
sequence of its bits; setting or clearing one bit of the bytes is a
`Function.update` of that sequence (`bit_setBit`, `bit_clearBit`), and `count`
counts the set bits below a bound.
-/

namespace NexusKernel.Bitmap

/-- Bit `i` of the bitmap `b`. -/
def bit (b : ℕ → Byte) (i : ℕ) : Bool := (b (i / 8)).getLsbD (i % 8)

/-- `b[i / 8] |= 1 << (i % 8)`. -/
def setBit (b : ℕ → Byte) (i : ℕ) : ℕ → Byte :=
  Function.update b (i / 8) (b (i / 8) ||| (1#8 <<< (i % 8)))

/-- `b[i / 8] &= ~(1 << (i % 8))`. -/
def clearBit (b : ℕ → Byte) (i : ℕ) : ℕ → Byte :=
  Function.update b (i / 8) (b (i / 8) &&& ~~~(1#8 <<< (i % 8)))

/-- `(b[i / 8] >> (i % 8)) & 1`, as a truth value. -/
def testBit (b : ℕ → Byte) (i : ℕ) : Bool := (b (i / 8) >>> (i % 8)) &&& 1#8 ≠ 0#8

theorem getLsbD_one_shiftLeft {i j : ℕ} (hj : j < 8) :
    (1#8 <<< i).getLsbD j = decide (j = i) := by
  rw [BitVec.getLsbD_shiftLeft, BitVec.getLsbD_one]
  by_cases h : j = i
  · subst h
    simp [hj]
  · by_cases h' : j < i
    · simp [h, h']
    · simp [h, show j - i ≠ 0 by omega]

theorem testBit_eq (b : ℕ → Byte) (i : ℕ) : testBit b i = bit b i := by
  have h : ∀ x : Byte, decide (x &&& 1#8 ≠ 0#8) = x.getLsbD 0 := by decide
  unfold testBit bit
  rw [h, BitVec.getLsbD_ushiftRight, Nat.add_zero]

theorem bit_setBit (b : ℕ → Byte) (i : ℕ) : bit (setBit b i) = Function.update (bit b) i true := by
  funext j
  unfold bit setBit
  by_cases hbyte : j / 8 = i / 8
  · rw [hbyte, Function.update_self, BitVec.getLsbD_or,
      getLsbD_one_shiftLeft (Nat.mod_lt _ (by norm_num))]
    by_cases hj : j = i
    · subst hj; simp
    · rw [Function.update_of_ne hj, hbyte]
      simp [show j % 8 ≠ i % 8 by omega]
  · rw [Function.update_of_ne hbyte, Function.update_of_ne (by rintro rfl; exact hbyte rfl)]

theorem bit_clearBit (b : ℕ → Byte) (i : ℕ) :
    bit (clearBit b i) = Function.update (bit b) i false := by
  funext j
  unfold bit clearBit
  have hlt : j % 8 < 8 := Nat.mod_lt _ (by norm_num)
  by_cases hbyte : j / 8 = i / 8
  · rw [hbyte, Function.update_self, BitVec.getLsbD_and, BitVec.getLsbD_not,
      getLsbD_one_shiftLeft hlt]
    by_cases hj : j = i
    · subst hj; simp
    · rw [Function.update_of_ne hj, hbyte]
      simp [show j % 8 ≠ i % 8 by omega, hlt]
  · rw [Function.update_of_ne hbyte, Function.update_of_ne (by rintro rfl; exact hbyte rfl)]

/-- The bits determine the bytes. -/
theorem bit_injective {b c : ℕ → Byte} (h : bit b = bit c) : b = c := by
  funext n
  apply BitVec.eq_of_getLsbD_eq
  intro j hj
  have hbit := congrFun h (8 * n + j)
  unfold bit at hbit
  rwa [show (8 * n + j) / 8 = n by omega, show (8 * n + j) % 8 = j by omega] at hbit

/-! ## Counting -/

/-- The number of `i < n` with `f i`. -/
def count (f : ℕ → Bool) (n : ℕ) : ℕ := ((Finset.range n).filter fun i => f i = true).card

theorem count_le (f : ℕ → Bool) (n : ℕ) : count f n ≤ n :=
  (Finset.card_filter_le _ _).trans (Finset.card_range n).le

theorem count_eq_self {f : ℕ → Bool} {n : ℕ} (h : ∀ i < n, f i = true) : count f n = n := by
  rw [count, Finset.filter_true_of_mem, Finset.card_range]
  intro i hi
  exact h i (Finset.mem_range.mp hi)

theorem count_update_of_lt (f : ℕ → Bool) {n i : ℕ} (hi : i < n) (v : Bool) :
    count (Function.update f i v) n + (if f i then 1 else 0) = count f n + if v then 1 else 0 := by
  have hmem : i ∈ Finset.range n := Finset.mem_range.mpr hi
  have hrest : ∀ g : ℕ → Bool, count g n =
      (∑ j ∈ (Finset.range n).erase i, if g j = true then 1 else 0) + if g i then 1 else 0 := by
    intro g
    rw [count, Finset.card_filter, Finset.sum_erase_add _ _ hmem]
  rw [hrest (Function.update f i v), hrest f, Function.update_self]
  have hsame : (∑ j ∈ (Finset.range n).erase i, if Function.update f i v j = true then 1 else 0) =
      ∑ j ∈ (Finset.range n).erase i, if f j = true then 1 else 0 := by
    apply Finset.sum_congr rfl
    intro j hj
    rw [Function.update_of_ne (Finset.ne_of_mem_erase hj)]
  omega

/-- Set and clear bits add up. -/
theorem count_add_count_not (f : ℕ → Bool) (n : ℕ) : count f n + count (fun i => !f i) n = n := by
  have h := Finset.card_filter_add_card_filter_not (s := Finset.range n) fun i => f i = true
  rw [Finset.card_range] at h
  simpa [count] using h

end NexusKernel.Bitmap
