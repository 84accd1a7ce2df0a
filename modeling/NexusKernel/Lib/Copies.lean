import NexusKernel.Lib.String

/-!
# Copies through 32-bit pointers (`kernel/lib/string.c`, lines 12–35)

`memcpy` and `memmove` in `Lib.String` address memory by natural numbers. Here the
pointers are 32-bit words, as in the code. A pointer may end up behind the last byte of
the address space, at 0; `memmove` may even start there when it copies downwards.

Results:
* `copyUp_eq`, `copyDown_eq`: as long as no range wraps around, the loops are those over
  natural numbers.
* `memmove_simultaneous`: `memmove` copies as if all bytes were read before any is
  written, and does what `memcpy` does on ranges that do not overlap.
-/

namespace NexusKernel.Lib

/-- The loop `while (count--) *d++ = *s++` (lines 16–17 and 26–27). -/
def copyUp (m : Mem) (d s : BitVec 32) : (count : ℕ) → Mem
  | 0 => m
  | count + 1 => copyUp (Function.update m d.toNat (m s.toNat)) (d + 1) (s + 1) count

/-- The loop `while (count--) *--d = *--s` (lines 31–32). -/
def copyDown (m : Mem) (d s : BitVec 32) : (count : ℕ) → Mem
  | 0 => m
  | count + 1 => copyDown (Function.update m (d - 1).toNat (m (s - 1).toNat)) (d - 1) (s - 1) count

/-- `memcpy` (lines 12–19): what it returns and the memory after it. -/
def memcpy32 (m : Mem) (dest src count : BitVec 32) : BitVec 32 × Mem :=
  (dest, copyUp m dest src count.toNat)

/-- `memmove` (lines 21–35). -/
def memmove32 (m : Mem) (dest src count : BitVec 32) : BitVec 32 × Mem :=
  (dest, if dest < src then copyUp m dest src count.toNat
    else copyDown m (dest + count) (src + count) count.toNat)

/-! ## Ranges that do not wrap around -/

section

variable {m : Mem} {d s : BitVec 32} {n : ℕ}

theorem toNat_add_one {p : BitVec 32} (h : p.toNat + 1 < 2 ^ 32) : (p + 1).toNat = p.toNat + 1 :=
  BitVec.toNat_add_of_lt h

theorem copyUp_eq (hd : d.toNat + n ≤ 2 ^ 32) (hs : s.toNat + n ≤ 2 ^ 32) :
    copyUp m d s n = memcpy m d.toNat s.toNat n := by
  induction n generalizing m d s with
  | zero => rfl
  | succ n ih =>
    rw [copyUp, memcpy]
    -- after the last byte the pointers are not used again, so they may wrap around
    cases n with
    | zero => rfl
    | succ n =>
      have hd' : (d + 1).toNat = d.toNat + 1 := toNat_add_one (by omega)
      have hs' : (s + 1).toNat = s.toNat + 1 := toNat_add_one (by omega)
      rw [ih (by omega) (by omega), hd', hs']

/-- The pointer behind `n + 1` bytes is decremented to the last of them. -/
theorem toNat_end_sub_one {p : BitVec 32} (h : p.toNat + n < 2 ^ 32) :
    (p + BitVec.ofNat 32 (n + 1) - 1).toNat = p.toNat + n ∧
      p + BitVec.ofNat 32 (n + 1) - 1 = p + BitVec.ofNat 32 n := by
  have heq : p + BitVec.ofNat 32 (n + 1) - 1 = p + BitVec.ofNat 32 n := by
    rw [BitVec.ofNat_add, ← BitVec.add_assoc]
    exact BitVec.add_sub_cancel _ _
  have hn : (BitVec.ofNat 32 n).toNat = n := by
    rw [BitVec.toNat_ofNat, Nat.mod_eq_of_lt (by omega)]
  refine ⟨?_, heq⟩
  rw [heq, BitVec.toNat_add_of_lt (by omega), hn]

theorem copyDown_eq (hd : d.toNat + n ≤ 2 ^ 32) (hs : s.toNat + n ≤ 2 ^ 32) :
    copyDown m (d + BitVec.ofNat 32 n) (s + BitVec.ofNat 32 n) n =
      memmoveDown m d.toNat s.toNat n := by
  induction n generalizing m with
  | zero => rfl
  | succ n ih =>
    obtain ⟨hdNat, hdSub⟩ := toNat_end_sub_one (p := d) (n := n) (by omega)
    obtain ⟨hsNat, hsSub⟩ := toNat_end_sub_one (p := s) (n := n) (by omega)
    rw [copyDown, memmoveDown, hdNat, hsNat, hdSub, hsSub]
    exact ih (by omega) (by omega)

end

/-- A copy of `n` bytes that reads all of them before it writes any. -/
structure SimultaneousCopy (dest src n : ℕ) (before after : Mem) : Prop where
  copied : ∀ i < n, after (dest + i) = before (src + i)
  unchanged : ∀ x, x < dest ∨ dest + n ≤ x → after x = before x

theorem simultaneousCopy_copyIn (m : Mem) (dest src n : ℕ) :
    SimultaneousCopy dest src n m (copyIn m dest n fun i => m (src + i)) where
  copied i hi := by
    rw [copyIn, if_pos (by omega), Nat.add_sub_cancel_left]
  unchanged x hx := if_neg (by omega)

section

variable {dest src count : BitVec 32}

/-- `memmove` with 32-bit pointers is that with natural numbers. -/
theorem memmove32_eq (m : Mem) (hdest : dest.toNat + count.toNat ≤ 2 ^ 32)
    (hsrc : src.toNat + count.toNat ≤ 2 ^ 32) :
    memmove32 m dest src count = (dest, memmove m dest.toNat src.toNat count.toNat) := by
  rw [memmove32, memmove, copyUp_eq hdest hsrc]
  have hcount : BitVec.ofNat 32 count.toNat = count := by simp
  have hdown := copyDown_eq (m := m) hdest hsrc
  rw [hcount] at hdown
  rw [hdown]
  rfl

theorem memcpy32_eq (m : Mem) (hdest : dest.toNat + count.toNat ≤ 2 ^ 32)
    (hsrc : src.toNat + count.toNat ≤ 2 ^ 32) :
    memcpy32 m dest src count = (dest, memcpy m dest.toNat src.toNat count.toNat) := by
  rw [memcpy32, copyUp_eq hdest hsrc]

end

/-- For every memory and all ranges inside the address space, however they overlap:
    `memmove` is a simultaneous copy, and it is `memcpy` if they do not overlap. -/
theorem memmove_simultaneous (m : Mem) {dest src count : BitVec 32}
    (hdest : dest.toNat + count.toNat ≤ 2 ^ 32) (hsrc : src.toNat + count.toNat ≤ 2 ^ 32) :
    SimultaneousCopy dest.toNat src.toNat count.toNat m (memmove32 m dest src count).2 ∧
      (Disjoint (Set.Ico dest.toNat (dest.toNat + count.toNat))
          (Set.Ico src.toNat (src.toNat + count.toNat)) →
        memmove32 m dest src count = memcpy32 m dest src count) := by
  rw [memmove32_eq m hdest hsrc, memcpy32_eq m hdest hsrc, memmove_eq]
  refine ⟨simultaneousCopy_copyIn m _ _ _, ?_⟩
  intro hdisjoint
  rw [Set.Ico_disjoint_Ico] at hdisjoint
  rw [memcpy_eq (by omega)]

/-- Three bytes moved up by one, at the end of the address space. -/
theorem memmove_simultaneous_top :
    let m : Mem := fun x => BitVec.ofNat 8 (x - 0xFFFFFFF0)
    SimultaneousCopy 0xFFFFFFFD 0xFFFFFFFC 3 m (memmove32 m 0xFFFFFFFD 0xFFFFFFFC 3).2 := by
  intro m
  have hdest : (0xFFFFFFFD : BitVec 32).toNat + (3 : BitVec 32).toNat ≤ 2 ^ 32 := by decide
  have hsrc : (0xFFFFFFFC : BitVec 32).toNat + (3 : BitVec 32).toNat ≤ 2 ^ 32 := by decide
  exact (memmove_simultaneous m hdest hsrc).1

end NexusKernel.Lib
