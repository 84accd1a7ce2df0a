import Mathlib

/-!
# Byte-addressed memory

A memory is a total map from addresses to bytes. Addresses are natural numbers;
a client that can wrap around says so with `u32`. 32-bit words are little-endian.

* `read32`, `write32`: word access, with the two rules every proof about a
  layout in memory uses: a word that was just written reads back
  (`read32_write32_self`), and a word that does not overlap the written one is
  unchanged (`read32_write32_of_disjoint`).
* `fill`: the effect of writing one byte value to a range.
* `AgreeOn`: two memories agree on a range; every read inside the range is then
  the same (`AgreeOn.read32`).
-/

namespace NexusKernel

/-- A byte (`uint8_t`). -/
abbrev Byte := BitVec 8

/-- A memory: the byte at every address. -/
abbrev Mem := ℕ → Byte

/-- Reduction to 32 bits, the wrap-around of `uint32_t` arithmetic. -/
def u32 (x : ℕ) : ℕ := x % 2 ^ 32

theorem u32_lt (x : ℕ) : u32 x < 2 ^ 32 := Nat.mod_lt _ (by norm_num)

theorem u32_of_lt {x : ℕ} (h : x < 2 ^ 32) : u32 x = x := Nat.mod_eq_of_lt h

/-- `uint32_t` subtraction. -/
def sub32 (x y : ℕ) : ℕ := u32 (x + 2 ^ 32 - u32 y)

theorem sub32_of_le {x y : ℕ} (hx : x < 2 ^ 32) (h : y ≤ x) : sub32 x y = x - y := by
  unfold sub32 u32; omega

/-! ## Words -/

/-- The little-endian 32-bit word at `a`. -/
def read32 (m : Mem) (a : ℕ) : ℕ :=
  (m a).toNat + 2 ^ 8 * (m (a + 1)).toNat + 2 ^ 16 * (m (a + 2)).toNat +
    2 ^ 24 * (m (a + 3)).toNat

/-- Store the low 32 bits of `v` at `a`, little-endian. -/
def write32 (m : Mem) (a v : ℕ) : Mem := fun x =>
  if a ≤ x ∧ x < a + 4 then BitVec.ofNat 8 (v / 256 ^ (x - a)) else m x

theorem read32_lt (m : Mem) (a : ℕ) : read32 m a < 2 ^ 32 := by
  unfold read32
  have h0 := (m a).isLt
  have h1 := (m (a + 1)).isLt
  have h2 := (m (a + 2)).isLt
  have h3 := (m (a + 3)).isLt
  omega

theorem write32_outside {m : Mem} {a v x : ℕ} (h : x < a ∨ a + 4 ≤ x) :
    write32 m a v x = m x := by
  unfold write32; rw [if_neg (by omega)]

theorem read32_write32_self (m : Mem) (a v : ℕ) : read32 (write32 m a v) a = v % 2 ^ 32 := by
  unfold read32 write32
  rw [if_pos (by omega), if_pos (by omega), if_pos (by omega), if_pos (by omega)]
  simp only [BitVec.toNat_ofNat, Nat.sub_self, Nat.add_sub_cancel_left, pow_zero]
  omega

theorem read32_write32_of_lt {m : Mem} {a v : ℕ} (h : v < 2 ^ 32) :
    read32 (write32 m a v) a = v := by
  rw [read32_write32_self, Nat.mod_eq_of_lt h]

theorem read32_write32_of_disjoint {m : Mem} {a b v : ℕ} (h : b + 4 ≤ a ∨ a + 4 ≤ b) :
    read32 (write32 m a v) b = read32 m b := by
  unfold read32
  rw [write32_outside (by omega), write32_outside (by omega), write32_outside (by omega),
    write32_outside (by omega)]

/-! ## Ranges -/

/-- `m` and `m'` hold the same bytes at the addresses of `[lo, hi)`. -/
def AgreeOn (m m' : Mem) (lo hi : ℕ) : Prop := ∀ x, lo ≤ x → x < hi → m' x = m x

theorem AgreeOn.refl (m : Mem) (lo hi : ℕ) : AgreeOn m m lo hi := fun _ _ _ => rfl

theorem AgreeOn.trans {m m' m'' : Mem} {lo hi : ℕ} (h : AgreeOn m m' lo hi)
    (h' : AgreeOn m' m'' lo hi) : AgreeOn m m'' lo hi :=
  fun x h1 h2 => (h' x h1 h2).trans (h x h1 h2)

theorem AgreeOn.mono {m m' : Mem} {lo hi lo' hi' : ℕ} (h : AgreeOn m m' lo hi) (h1 : lo ≤ lo')
    (h2 : hi' ≤ hi) : AgreeOn m m' lo' hi' :=
  fun x hx1 hx2 => h x (by omega) (by omega)

theorem AgreeOn.read32 {m m' : Mem} {lo hi a : ℕ} (h : AgreeOn m m' lo hi) (h1 : lo ≤ a)
    (h2 : a + 4 ≤ hi) : read32 m' a = read32 m a := by
  unfold NexusKernel.read32
  rw [h a (by omega) (by omega), h (a + 1) (by omega) (by omega),
    h (a + 2) (by omega) (by omega), h (a + 3) (by omega) (by omega)]

theorem agreeOn_write32 {m : Mem} {a v lo hi : ℕ} (h : hi ≤ a ∨ a + 4 ≤ lo) :
    AgreeOn m (write32 m a v) lo hi :=
  fun _ _ _ => write32_outside (by omega)

/-- `n` bytes from `a` set to `v`. -/
def fill (m : Mem) (a n : ℕ) (v : Byte) : Mem := fun x => if a ≤ x ∧ x < a + n then v else m x

theorem fill_inside {m : Mem} {a n x : ℕ} {v : Byte} (h1 : a ≤ x) (h2 : x < a + n) :
    fill m a n v x = v := if_pos ⟨h1, h2⟩

theorem fill_outside {m : Mem} {a n x : ℕ} {v : Byte} (h : x < a ∨ a + n ≤ x) :
    fill m a n v x = m x := if_neg (by omega)

theorem agreeOn_fill {m : Mem} {a n lo hi : ℕ} {v : Byte} (h : hi ≤ a ∨ a + n ≤ lo) :
    AgreeOn m (fill m a n v) lo hi :=
  fun _ _ _ => fill_outside (by omega)

/-- A word inside a zeroed range is zero. -/
theorem read32_fill_zero {m : Mem} {a n b : ℕ} (h1 : a ≤ b) (h2 : b + 4 ≤ a + n) :
    read32 (fill m a n 0) b = 0 := by
  unfold read32
  rw [fill_inside (by omega) (by omega), fill_inside (by omega) (by omega),
    fill_inside (by omega) (by omega), fill_inside (by omega) (by omega)]
  rfl

theorem read32_fill_of_disjoint {m : Mem} {a n b : ℕ} {v : Byte} (h : b + 4 ≤ a ∨ a + n ≤ b) :
    read32 (fill m a n v) b = read32 m b :=
  (agreeOn_fill (by omega)).read32 le_rfl le_rfl

end NexusKernel
