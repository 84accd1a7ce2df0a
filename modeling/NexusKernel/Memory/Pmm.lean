import NexusKernel.Common.Bitmap

/-!
# The physical frame allocator (`kernel/memory/pmm.c`)

One bit per 4 KiB frame, set when the frame is in use, and two counters.
`pmm_init` marks everything used, walks the multiboot memory map twice (once for
the end of memory, once to release the available regions) and reserves the first
megabyte; afterwards frames are found by a lowest-first scan over whole bytes of
the bitmap.

Results:
* `mmapWalk_eq_foldl`: over a memory map whose entries lie one after another up
  to `mmap_end`, either walk of `pmm_init` is a fold over the entries.
* `bootPmm_bit`: which bits are clear after `pmm_init`.
* `findFree_eq_some_iff`, `findFree_eq_none_iff`: the scan finds the lowest clear
  bit below the last multiple of eight.
-/

namespace NexusKernel.Memory

open Bitmap

/-! ## State -/

/-- `BITMAP_SIZE` (`pmm.c`, line 6), in bytes. -/
def bitmapSize : ℕ := 131072 / 8

/-- `PAGE_SIZE` (`types.h`). -/
def pageSize : ℕ := 4096

/-- `frame_bitmap`, `total_frames` and `used_frames` (`pmm.c`, lines 8–10). -/
structure Pmm where
  frameBitmap : ℕ → Byte
  totalFrames : ℕ
  usedFrames : ℕ

/-- `bitmap_set` (lines 12–15). -/
def bitmapSet (s : Pmm) (f : ℕ) : Pmm := { s with frameBitmap := setBit s.frameBitmap f }

/-- `bitmap_clear` (lines 17–20). -/
def bitmapClear (s : Pmm) (f : ℕ) : Pmm := { s with frameBitmap := clearBit s.frameBitmap f }

/-- `bitmap_test` (lines 22–25). -/
def bitmapTest (s : Pmm) (f : ℕ) : Bool := testBit s.frameBitmap f

/-- The body of the outer loop of `bitmap_find_free` (lines 30–35): the first
    clear bit of a byte that is not `0xFF`. -/
def firstClear (x : Byte) : Option ℕ :=
  if x ≠ 0xFF#8 then (List.range 8).find? fun j => x &&& (1#8 <<< j) = 0#8 else none

/-- The scan of `bitmap_find_free` (lines 29–36) over `total_frames / 8` bytes. -/
def findFree (s : Pmm) : Option ℕ :=
  (List.range (s.totalFrames / 8)).findSome? fun i =>
    (firstClear (s.frameBitmap i)).map fun j => i * 8 + j

/-- `bitmap_find_free` (lines 27–38); `(uint32_t)-1` when nothing is free. -/
def bitmapFindFree (s : Pmm) : ℕ := (findFree s).getD (2 ^ 32 - 1)

/-! ## Frames -/

/-- `bitmap_set(f); used_frames++;` (lines 97–98, 113–114 and 131–132). -/
def takeFrame (s : Pmm) (f : ℕ) : Pmm :=
  let s := bitmapSet s f
  { s with usedFrames := u32 (s.usedFrames + 1) }

/-- `bitmap_clear(f); used_frames--;` (lines 87–88 and 122–123). -/
def releaseFrame (s : Pmm) (f : ℕ) : Pmm :=
  let s := bitmapClear s f
  { s with usedFrames := sub32 s.usedFrames 1 }

/-- `pmm_alloc_frame` (lines 106–116): the address returned, `0` on failure. -/
def pmmAllocFrame (s : Pmm) : ℕ × Pmm :=
  let frame := bitmapFindFree s
  if frame = 2 ^ 32 - 1 then (0, s) else (u32 (frame * pageSize), takeFrame s frame)

/-- `pmm_free_frame` (lines 118–125). -/
def pmmFreeFrame (s : Pmm) (frameAddr : ℕ) : Pmm :=
  let frame := frameAddr / pageSize
  if frame < s.totalFrames ∧ bitmapTest s frame = true then releaseFrame s frame else s

/-- `pmm_mark_used` (lines 127–134). -/
def pmmMarkUsed (s : Pmm) (frameAddr : ℕ) : Pmm :=
  let frame := frameAddr / pageSize
  if frame < s.totalFrames ∧ bitmapTest s frame = false then takeFrame s frame else s

/-- `pmm_mark_free` (lines 136–139). -/
def pmmMarkFree (s : Pmm) (frameAddr : ℕ) : Pmm := pmmFreeFrame s frameAddr

/-- `pmm_get_free_frames` (lines 151–154). -/
def pmmGetFreeFrames (s : Pmm) : ℕ := sub32 s.totalFrames s.usedFrames

/-! ## Initialisation -/

/-- The fields of `multiboot_info_t` that `pmm_init` reads. -/
structure MultibootInfo where
  flags : ℕ
  memUpper : ℕ
  mmapLength : ℕ
  mmapAddr : ℕ

/-- `multiboot_mmap_entry_t` (`multiboot.h`, lines 29–34). -/
structure MmapEntry where
  size : ℕ
  addr : ℕ
  len : ℕ
  type : ℕ
deriving DecidableEq

/-- The packed entry at address `a`: `size` at 0, `addr` at 4, `len` at 12,
    `type` at 20. -/
def entryAt (mem : Mem) (a : ℕ) : MmapEntry where
  size := read32 mem a
  addr := read32 mem (a + 4) + 2 ^ 32 * read32 mem (a + 8)
  len := read32 mem (a + 12) + 2 ^ 32 * read32 mem (a + 16)
  type := read32 mem (a + 20)

/-- `while ((uint32_t)mmap < mmap_end) { body; mmap += mmap->size + 4; }`
    (lines 63–68 and 78–92), with at most `fuel` tests of the loop condition. -/
def mmapWalk {σ : Type} (mem : Mem) (mmapEnd : ℕ) (body : σ → MmapEntry → σ) :
    (fuel : ℕ) → (mmap : ℕ) → σ → Option σ
  | 0, _, _ => none
  | fuel + 1, mmap, s =>
    if mmap < mmapEnd then
      mmapWalk mem mmapEnd body fuel (u32 (mmap + (entryAt mem mmap).size + 4))
        (body s (entryAt mem mmap))
    else some s

/-- The body of the first walk (lines 64–66): the largest `region_end`. -/
def memEndBody (memEnd : ℕ) (e : MmapEntry) : ℕ :=
  let regionEnd := u32 (e.addr + e.len)
  if regionEnd > memEnd then regionEnd else memEnd

/-- `frame_start` (line 83). -/
def frameStart (e : MmapEntry) : ℕ := u32 (u32 e.addr + pageSize - 1) / pageSize

/-- `frame_end` (line 84). -/
def frameEnd (e : MmapEntry) : ℕ := u32 (u32 e.addr + u32 e.len) / pageSize

/-- The body of the second walk (lines 79–90), with
    `MULTIBOOT_MEMORY_AVAILABLE = 1`. -/
def releaseBody (s : Pmm) (e : MmapEntry) : Pmm :=
  if e.type = 1 then
    (List.range' (frameStart e) (min (frameEnd e) s.totalFrames - frameStart e)).foldl
      releaseFrame s
  else s

/-- The body of the reservation loop (lines 95–100). -/
def reserveBody (s : Pmm) (i : ℕ) : Pmm :=
  if bitmapTest s i = false then takeFrame s i else s

/-- `memset(frame_bitmap, 0xFF, …)` with both counters at `total` frames, capped
    at the size of the bitmap (lines 49–54 and 70–75). -/
def allUsed (s : Pmm) (total : ℕ) : Pmm :=
  let total := if total > bitmapSize * 8 then bitmapSize * 8 else total
  { frameBitmap := fill s.frameBitmap 0 bitmapSize 0xFF#8, totalFrames := total, usedFrames := total }

/-- `pmm_init` (lines 40–104) from any earlier contents `s` of the variables;
    `mem` is the memory the map is in, `none` means that `fuel` tests did not end
    a walk. -/
def pmmInit (fuel : ℕ) (mem : Mem) (mbi : MultibootInfo) (s : Pmm) : Option Pmm :=
  if mbi.flags &&& 0x20 = 0 then
    let memKb := u32 (mbi.memUpper + 1024)
    some (allUsed s (memKb / 4))
  else do
    let mmapEnd := u32 (mbi.mmapAddr + mbi.mmapLength)
    let memEnd ← mmapWalk mem mmapEnd memEndBody fuel mbi.mmapAddr 0
    let s ← mmapWalk mem mmapEnd releaseBody fuel mbi.mmapAddr (allUsed s (memEnd / pageSize))
    some ((List.range 256).foldl reserveBody s)

/-! ## The scan -/

theorem and_one_shiftLeft_eq_zero (x : Byte) {j : ℕ} (hj : j < 8) :
    x &&& (1#8 <<< j) = 0#8 ↔ x.getLsbD j = false := by
  revert x
  interval_cases j <;> decide

theorem firstClear_eq_find? (x : Byte) :
    firstClear x = (List.range 8).find? fun j => !x.getLsbD j := by
  have hcongr : ((List.range 8).find? fun j => x &&& (1#8 <<< j) = 0#8) =
      (List.range 8).find? fun j => !x.getLsbD j := by
    apply List.find?_congr
    intro j hj
    simp [and_one_shiftLeft_eq_zero x (List.mem_range.mp hj)]
  rw [firstClear, hcongr]
  split_ifs with hff
  · rfl
  · obtain rfl := not_not.mp hff
    decide

/-- The byte-wise scan is a search through the bits in order. -/
theorem findFree_eq_find? (s : Pmm) :
    findFree s = (List.range (8 * (s.totalFrames / 8))).find? fun f => !bit s.frameBitmap f := by
  unfold findFree
  generalize s.totalFrames / 8 = n
  induction n with
  | zero => rfl
  | succ n ih =>
    have hbyte : (firstClear (s.frameBitmap n)).map (fun j => n * 8 + j) =
        ((List.range 8).map fun j => 8 * n + j).find? fun f => !bit s.frameBitmap f := by
      rw [firstClear_eq_find?, List.find?_map, Nat.mul_comm]
      congr 1
      apply List.find?_congr
      intro j hj
      have hj := List.mem_range.mp hj
      rw [Function.comp_apply, bit, show (8 * n + j) / 8 = n by omega,
        show (8 * n + j) % 8 = j by omega]
    rw [List.range_succ, List.findSome?_append, ih, Nat.mul_succ, List.range_add,
      List.find?_append, ← hbyte]
    simp

theorem findFree_eq_some_iff (s : Pmm) (f : ℕ) :
    findFree s = some f ↔ f < 8 * (s.totalFrames / 8) ∧ bit s.frameBitmap f = false ∧
      ∀ g < f, bit s.frameBitmap g = true := by
  rw [findFree_eq_find?, List.find?_range_eq_some]
  simp only [Bool.not_eq_true', List.mem_range, Bool.not_not]
  exact and_left_comm

theorem findFree_eq_none_iff (s : Pmm) :
    findFree s = none ↔ ∀ f < 8 * (s.totalFrames / 8), bit s.frameBitmap f = true := by
  rw [findFree_eq_find?, List.find?_eq_none]
  simp

/-! ## Freeing and marking, on the bits -/

theorem pmmFreeFrame_eq (s : Pmm) (a : ℕ) : pmmFreeFrame s a =
    if a / pageSize < s.totalFrames ∧ bit s.frameBitmap (a / pageSize) = true then
      releaseFrame s (a / pageSize)
    else s := by
  simp only [pmmFreeFrame, bitmapTest, testBit_eq]

theorem pmmMarkUsed_eq (s : Pmm) (a : ℕ) : pmmMarkUsed s a =
    if a / pageSize < s.totalFrames ∧ bit s.frameBitmap (a / pageSize) = false then
      takeFrame s (a / pageSize)
    else s := by
  simp only [pmmMarkUsed, bitmapTest, testBit_eq]

/-! ## Memory maps -/

/-- The entries `es` lie in memory one after another from `a` on. -/
def MmapAt (mem : Mem) : ℕ → List MmapEntry → Prop
  | _, [] => True
  | a, e :: es => entryAt mem a = e ∧ MmapAt mem (a + e.size + 4) es

/-- The number of bytes the entries `es` take. -/
def mmapBytes (es : List MmapEntry) : ℕ := (es.map fun e => e.size + 4).sum

/-- `mbi` announces a memory map that is exactly the list `es`. -/
structure MemoryMap (mem : Mem) (mbi : MultibootInfo) (es : List MmapEntry) : Prop where
  present : mbi.flags &&& 0x20 ≠ 0
  entries : MmapAt mem mbi.mmapAddr es
  length_eq : mbi.mmapLength = mmapBytes es
  fits : mbi.mmapAddr + mbi.mmapLength < 2 ^ 32

theorem mmapWalk_eq_foldl {σ : Type} {mem : Mem} {body : σ → MmapEntry → σ}
    {es : List MmapEntry} {a fuel : ℕ} (s : σ) (hes : MmapAt mem a es)
    (hfits : a + mmapBytes es < 2 ^ 32) (hfuel : es.length < fuel) :
    mmapWalk mem (a + mmapBytes es) body fuel a s = some (es.foldl body s) := by
  -- the end of the map stays put while the cursor moves over the entries
  induction es generalizing a fuel s with
  | nil =>
    obtain ⟨fuel, rfl⟩ := Nat.exists_eq_succ_of_ne_zero (show fuel ≠ 0 by simp at hfuel; omega)
    simp [mmapWalk, mmapBytes]
  | cons e es ih =>
    obtain ⟨fuel, rfl⟩ := Nat.exists_eq_succ_of_ne_zero (show fuel ≠ 0 by omega)
    obtain ⟨he, hes⟩ := hes
    have hbytes : a + mmapBytes (e :: es) = (a + e.size + 4) + mmapBytes es := by
      simp only [mmapBytes, List.map_cons, List.sum_cons]; omega
    rw [hbytes] at hfits ⊢
    rw [mmapWalk, if_pos (by omega), he, u32_of_lt (by omega), ih _ hes hfits, List.foldl_cons]
    simpa using hfuel

/-- The allocator after `pmm_init` on the memory map `es`. -/
def bootPmm (s : Pmm) (es : List MmapEntry) : Pmm :=
  (List.range 256).foldl reserveBody
    (es.foldl releaseBody (allUsed s (es.foldl memEndBody 0 / pageSize)))

theorem pmmInit_eq {mem : Mem} {mbi : MultibootInfo} {es : List MmapEntry}
    (hmap : MemoryMap mem mbi es) (s : Pmm) {fuel : ℕ} (hfuel : es.length < fuel) :
    pmmInit fuel mem mbi s = some (bootPmm s es) := by
  have hfits := hmap.fits
  have hwalk : ∀ {σ : Type} (body : σ → MmapEntry → σ) (t : σ),
      mmapWalk mem (u32 (mbi.mmapAddr + mbi.mmapLength)) body fuel mbi.mmapAddr t =
        some (es.foldl body t) := by
    intro σ body t
    rw [u32_of_lt hfits, hmap.length_eq]
    exact mmapWalk_eq_foldl t hmap.entries (hmap.length_eq ▸ hfits) hfuel
  rw [pmmInit, if_neg hmap.present]
  simp only [hwalk, Option.bind_eq_bind, Option.bind_some, bootPmm]

/-! ## The bits after initialisation -/

/-- The second walk of `pmm_init` releases frame `f` because of the entry `e`. -/
def Releases (total : ℕ) (e : MmapEntry) (f : ℕ) : Prop :=
  e.type = 1 ∧ frameStart e ≤ f ∧ f < frameEnd e ∧ f < total

theorem allUsed_totalFrames (s : Pmm) (total : ℕ) :
    (allUsed s total).totalFrames = min total 131072 := by
  show (if total > bitmapSize * 8 then bitmapSize * 8 else total) = min total 131072
  unfold bitmapSize
  split_ifs <;> omega

theorem allUsed_bit (s : Pmm) (total : ℕ) {f : ℕ} (hf : f < 131072) :
    bit (allUsed s total).frameBitmap f = true := by
  have hbyte : fill s.frameBitmap 0 bitmapSize 0xFF#8 (f / 8) = 0xFF#8 :=
    fill_inside (Nat.zero_le _) (by unfold bitmapSize; omega)
  have hff : ∀ j < 8, (0xFF#8).getLsbD j = true := by decide
  simp only [allUsed, bit, hbyte]
  exact hff _ (Nat.mod_lt _ (by norm_num))

theorem foldl_releaseFrame_totalFrames (l : List ℕ) (s : Pmm) :
    (l.foldl releaseFrame s).totalFrames = s.totalFrames := by
  induction l generalizing s with
  | nil => rfl
  | cons f l ih => rw [List.foldl_cons, ih]; rfl

theorem foldl_releaseFrame_bit (l : List ℕ) (s : Pmm) (f : ℕ) :
    bit (l.foldl releaseFrame s).frameBitmap f = true ↔ bit s.frameBitmap f = true ∧ f ∉ l := by
  induction l generalizing s with
  | nil => simp
  | cons g l ih =>
    rw [List.foldl_cons, ih, List.mem_cons, releaseFrame, bitmapClear, bit_clearBit]
    by_cases hf : f = g
    · subst hf; simp
    · simp [hf]

theorem releaseBody_totalFrames (s : Pmm) (e : MmapEntry) :
    (releaseBody s e).totalFrames = s.totalFrames := by
  unfold releaseBody
  split_ifs
  · exact foldl_releaseFrame_totalFrames _ s
  · rfl

theorem releaseBody_bit (s : Pmm) (e : MmapEntry) (f : ℕ) :
    bit (releaseBody s e).frameBitmap f = true ↔
      bit s.frameBitmap f = true ∧ ¬ Releases s.totalFrames e f := by
  unfold releaseBody Releases
  split_ifs with htype
  · rw [foldl_releaseFrame_bit, List.mem_range'_1]
    apply and_congr_right
    intro _
    omega
  · simp [htype]

theorem foldl_releaseBody_totalFrames (es : List MmapEntry) (s : Pmm) :
    (es.foldl releaseBody s).totalFrames = s.totalFrames := by
  induction es generalizing s with
  | nil => rfl
  | cons e es ih => rw [List.foldl_cons, ih, releaseBody_totalFrames]

theorem foldl_releaseBody_bit (es : List MmapEntry) (s : Pmm) (f : ℕ) :
    bit (es.foldl releaseBody s).frameBitmap f = true ↔
      bit s.frameBitmap f = true ∧ ∀ e ∈ es, ¬ Releases s.totalFrames e f := by
  induction es generalizing s with
  | nil => simp
  | cons e es ih =>
    rw [List.foldl_cons, ih, releaseBody_totalFrames, releaseBody_bit, List.forall_mem_cons,
      and_assoc]

theorem reserveBody_totalFrames (s : Pmm) (i : ℕ) :
    (reserveBody s i).totalFrames = s.totalFrames := by
  unfold reserveBody
  split_ifs <;> rfl

theorem reserveBody_bit (s : Pmm) (i f : ℕ) :
    bit (reserveBody s i).frameBitmap f = true ↔ bit s.frameBitmap f = true ∨ f = i := by
  unfold reserveBody bitmapTest
  rw [testBit_eq]
  by_cases hf : f = i
  · subst hf
    split_ifs with h
    · simp [takeFrame, bitmapSet, bit_setBit]
    · simpa using h
  · split_ifs
    · simp [takeFrame, bitmapSet, bit_setBit, hf]
    · simp [hf]

theorem foldl_reserveBody_totalFrames (l : List ℕ) (s : Pmm) :
    (l.foldl reserveBody s).totalFrames = s.totalFrames := by
  induction l generalizing s with
  | nil => rfl
  | cons i l ih => rw [List.foldl_cons, ih, reserveBody_totalFrames]

theorem foldl_reserveBody_bit (l : List ℕ) (s : Pmm) (f : ℕ) :
    bit (l.foldl reserveBody s).frameBitmap f = true ↔ bit s.frameBitmap f = true ∨ f ∈ l := by
  induction l generalizing s with
  | nil => simp
  | cons i l ih => rw [List.foldl_cons, ih, reserveBody_bit, List.mem_cons, or_assoc]

/-- `total_frames` after `pmm_init`. -/
theorem bootPmm_totalFrames (s : Pmm) (es : List MmapEntry) :
    (bootPmm s es).totalFrames = min (es.foldl memEndBody 0 / pageSize) 131072 := by
  rw [bootPmm, foldl_reserveBody_totalFrames, foldl_releaseBody_totalFrames, allUsed_totalFrames]

/-- The clear bits after `pmm_init` are those of the frames above the first
    megabyte that an available entry releases. -/
theorem bootPmm_bit (s : Pmm) (es : List MmapEntry) {f : ℕ} (hf : f < 131072) :
    bit (bootPmm s es).frameBitmap f = false ↔
      256 ≤ f ∧ ∃ e ∈ es, Releases (bootPmm s es).totalFrames e f := by
  rw [← Bool.not_eq_true, bootPmm_totalFrames, bootPmm, foldl_reserveBody_bit,
    foldl_releaseBody_bit, allUsed_totalFrames, List.mem_range]
  simp only [allUsed_bit s _ hf, true_and, not_or, not_forall, not_not, not_lt, exists_prop]
  exact and_comm

end NexusKernel.Memory
