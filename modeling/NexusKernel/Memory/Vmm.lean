import NexusKernel.Common.Bits
import NexusKernel.Memory.Pmm

/-!
# Page directories (`kernel/memory/vmm.c`)

A page directory is a `page_directory_t` at a physical address: 1024 entries,
1024 words `tables_physical` and `physical_addr`, 12 KiB with its page alignment.
Physical memory is identity mapped where the kernel touches it, so every function
works on one byte memory. The functions take the frame allocator as a parameter:
`pmm_alloc_frame` in the kernel, any `FrameSource` in the results about one
directory.

Each write is also logged, as the range of addresses it covers; nothing reads
the log but the results on which frames a call writes to.

The `cr0`, `cr3` and `invlpg` instructions, `current_directory`,
`kernel_end_addr` and the console output are left out: no function here reads
what they change.

Results:
* `getOrCreateTable_present`, `getOrCreateTable_full`, `getOrCreateTable_fresh`:
  the three ways a table is looked up.
* `vmmCreateAddressSpace_full`, `vmmCreateAddressSpace_fresh`: likewise for a new
  directory.
* `vmmGetPhysical_eq`: a translation is the page's entry and the offset.
-/

namespace NexusKernel.Memory

/-! ## Layout -/

/-- `PAGE_PRESENT` (`vmm.h`, line 6). -/
def pagePresent : ℕ := 0x001

/-- `PAGE_WRITABLE` (`vmm.h`, line 7). -/
def pageWritable : ℕ := 0x002

/-- `sizeof(page_directory_t)`: 8196 bytes rounded up to the page alignment. -/
def directorySize : ℕ := 12288

/-- The address of `dir->entries[i]` (`vmm.h`, line 16). -/
def entryAddr (dir i : ℕ) : ℕ := dir + 4 * i

/-- The address of `dir->tables_physical[i]` (`vmm.h`, line 17). -/
def tableAddr (dir i : ℕ) : ℕ := dir + 4096 + 4 * i

/-- The address of `dir->physical_addr` (`vmm.h`, line 18). -/
def physicalAddr (dir : ℕ) : ℕ := dir + 8192

/-- Physical memory, the allocator's state and the ranges `(address, length)`
    written so far, latest first. -/
structure Vm (σ : Type) where
  mem : Mem
  pmm : σ
  writes : List (ℕ × ℕ)

section

variable {σ : Type}

/-- A 32-bit store. -/
def Vm.store32 (s : Vm σ) (a v : ℕ) : Vm σ :=
  { s with mem := write32 s.mem a v, writes := (a, 4) :: s.writes }

/-- `memset(a, 0, n)`. -/
def Vm.clear (s : Vm σ) (a n : ℕ) : Vm σ :=
  { s with mem := fill s.mem a n 0, writes := (a, n) :: s.writes }

/-- `dir->entries[i]`. -/
def dirEntry (mem : Mem) (dir i : ℕ) : ℕ := read32 mem (entryAddr dir i)

/-- `virt >> 22` (lines 112, 122 and 136). -/
def tableIdx (virt : ℕ) : ℕ := virt >>> 22

/-- `(virt >> 12) & 0x3FF` (lines 113, 123 and 137). -/
def pageIdx (virt : ℕ) : ℕ := (virt >>> 12) &&& 0x3FF

/-! ## Functions -/

/-- `get_or_create_table` (lines 14–31); `0` is `NULL`. -/
def getOrCreateTable (alloc : σ → ℕ × σ) (s : Vm σ) (dir i flags : ℕ) : ℕ × Vm σ :=
  if dirEntry s.mem dir i &&& pagePresent ≠ 0 then (dirEntry s.mem dir i &&& 0xFFFFF000, s)
  else
    let (tablePhys, pmm) := alloc s.pmm
    let s := { s with pmm := pmm }
    if tablePhys = 0 then (0, s)
    else
      let s := s.store32 (entryAddr dir i) (tablePhys ||| flags ||| pagePresent ||| pageWritable)
      let s := s.store32 (tableAddr dir i) tablePhys
      (tablePhys, s.clear tablePhys pageSize)

/-- `vmm_map_page` (lines 110–118). -/
def vmmMapPage (alloc : σ → ℕ × σ) (s : Vm σ) (dir virt phys flags : ℕ) : Vm σ :=
  let (table, s) := getOrCreateTable alloc s dir (tableIdx virt) flags
  if table ≠ 0 then
    s.store32 (table + 4 * pageIdx virt) ((phys &&& 0xFFFFF000) ||| (flags &&& 0xFFF) ||| pagePresent)
  else s

/-- `vmm_unmap_page` (lines 120–132). -/
def vmmUnmapPage (s : Vm σ) (dir virt : ℕ) : Vm σ :=
  if dirEntry s.mem dir (tableIdx virt) &&& pagePresent = 0 then s
  else
    let table := dirEntry s.mem dir (tableIdx virt) &&& 0xFFFFF000
    s.store32 (table + 4 * pageIdx virt) 0

/-- `vmm_get_physical` (lines 134–147). -/
def vmmGetPhysical (mem : Mem) (dir virt : ℕ) : ℕ :=
  if dirEntry mem dir (tableIdx virt) &&& pagePresent = 0 then 0
  else
    let table := dirEntry mem dir (tableIdx virt) &&& 0xFFFFF000
    let entry := read32 mem (table + 4 * pageIdx virt)
    if entry &&& pagePresent = 0 then 0 else (entry &&& 0xFFFFF000) ||| (virt &&& 0xFFF)

/-- The body of the loop of `vmm_create_address_space` (lines 82–83). -/
def copyEntry (kernelDirectory dir : ℕ) (s : Vm σ) (i : ℕ) : Vm σ :=
  if dirEntry s.mem kernelDirectory i &&& pagePresent ≠ 0 then
    s.store32 (entryAddr dir i) (dirEntry s.mem kernelDirectory i)
  else s

/-- `vmm_create_address_space` (lines 70–87); `0` is `NULL`. -/
def vmmCreateAddressSpace (alloc : σ → ℕ × σ) (kernelDirectory : ℕ) (s : Vm σ) : ℕ × Vm σ :=
  let (dirPhys, pmm) := alloc s.pmm
  let s := { s with pmm := pmm }
  if dirPhys = 0 then (0, s)
  else
    let s := s.clear dirPhys directorySize
    let s := s.store32 (physicalAddr dirPhys) dirPhys
    (dirPhys, (List.range 1024).foldl (copyEntry kernelDirectory dirPhys) s)

/-- The body of the loop of `vmm_destroy_address_space` (lines 95–98). -/
def freeTable (free : σ → ℕ → σ) (kernelDirectory : ℕ) (mem : Mem) (dir : ℕ) (pmm : σ) (i : ℕ) : σ :=
  if dirEntry mem dir i &&& pagePresent ≠ 0 ∧ dirEntry mem kernelDirectory i &&& pagePresent = 0 then
    free pmm (dirEntry mem dir i &&& 0xFFFFF000)
  else pmm

/-- `vmm_destroy_address_space` (lines 89–102). -/
def vmmDestroyAddressSpace (free : σ → ℕ → σ) (kernelDirectory : ℕ) (s : Vm σ) (dir : ℕ) : Vm σ :=
  if dir = 0 ∨ dir = kernelDirectory then s
  else
    let pmm := (List.range 1024).foldl (freeTable free kernelDirectory s.mem dir) s.pmm
    { s with pmm := free pmm (read32 s.mem (physicalAddr dir)) }

/-- `vmm_init` (lines 33–51): the kernel directory and the state after it. The
    result of `pmm_alloc_frame` is not checked. -/
def vmmInit (alloc : σ → ℕ × σ) (s : Vm σ) : ℕ × Vm σ :=
  let (dirPhys, pmm) := alloc s.pmm
  let s := { s with pmm := pmm }
  let s := s.clear dirPhys directorySize
  let s := s.store32 (physicalAddr dirPhys) dirPhys
  let s := (List.range 1024).foldl (fun s i =>
    vmmMapPage alloc s dirPhys (i * pageSize) (i * pageSize) (pagePresent ||| pageWritable)) s
  (dirPhys, vmmMapPage alloc s dirPhys 0xB8000 0xB8000 (pagePresent ||| pageWritable))

/-! ## Looking up a table -/

variable {alloc : σ → ℕ × σ} {s : Vm σ} {dir i flags : ℕ}

/-- `dir->entries[i]` is present. -/
def Present (mem : Mem) (dir i : ℕ) : Prop := dirEntry mem dir i &&& pagePresent ≠ 0

instance (mem : Mem) (dir i : ℕ) : Decidable (Present mem dir i) :=
  inferInstanceAs (Decidable (_ ≠ _))

/-- The page table `dir->entries[i]` names. -/
def tableOf (mem : Mem) (dir i : ℕ) : ℕ := dirEntry mem dir i &&& 0xFFFFF000

theorem getOrCreateTable_present (h : Present s.mem dir i) :
    getOrCreateTable alloc s dir i flags = (tableOf s.mem dir i, s) := if_pos h

theorem getOrCreateTable_full (h : ¬ Present s.mem dir i) (ht : (alloc s.pmm).1 = 0) :
    getOrCreateTable alloc s dir i flags = (0, { s with pmm := (alloc s.pmm).2 }) :=
  (if_neg h).trans (if_pos ht)

/-- The state after a new table at `t` has been entered and cleared (lines 24–28). -/
def enterTable (s : Vm σ) (dir i flags t : ℕ) : Vm σ :=
  ((s.store32 (entryAddr dir i) (t ||| flags ||| pagePresent ||| pageWritable)).store32
    (tableAddr dir i) t).clear t pageSize

theorem getOrCreateTable_fresh (h : ¬ Present s.mem dir i) (ht : (alloc s.pmm).1 ≠ 0) :
    getOrCreateTable alloc s dir i flags =
      ((alloc s.pmm).1,
        enterTable { s with pmm := (alloc s.pmm).2 } dir i flags (alloc s.pmm).1) :=
  (if_neg h).trans (if_neg ht)

/-- The value `vmm_map_page` stores. -/
def newPageEntry (phys flags : ℕ) : ℕ :=
  (phys &&& 0xFFFFF000) ||| (flags &&& 0xFFF) ||| pagePresent

theorem vmmMapPage_eq (alloc : σ → ℕ × σ) (s : Vm σ) (dir virt phys flags : ℕ) :
    vmmMapPage alloc s dir virt phys flags =
      if (getOrCreateTable alloc s dir (tableIdx virt) flags).1 ≠ 0 then
        (getOrCreateTable alloc s dir (tableIdx virt) flags).2.store32
          ((getOrCreateTable alloc s dir (tableIdx virt) flags).1 + 4 * pageIdx virt)
          (newPageEntry phys flags)
      else (getOrCreateTable alloc s dir (tableIdx virt) flags).2 := rfl

variable {virt phys : ℕ}

theorem vmmMapPage_present (hp : Present s.mem dir (tableIdx virt))
    (h0 : tableOf s.mem dir (tableIdx virt) ≠ 0) :
    vmmMapPage alloc s dir virt phys flags =
      s.store32 (tableOf s.mem dir (tableIdx virt) + 4 * pageIdx virt)
        (newPageEntry phys flags) := by
  rw [vmmMapPage_eq, getOrCreateTable_present hp, if_pos h0]

theorem vmmMapPage_null (hp : Present s.mem dir (tableIdx virt))
    (h0 : tableOf s.mem dir (tableIdx virt) = 0) :
    vmmMapPage alloc s dir virt phys flags = s := by
  rw [vmmMapPage_eq, getOrCreateTable_present hp, if_neg (not_not.mpr h0)]

theorem vmmMapPage_full (hp : ¬ Present s.mem dir (tableIdx virt)) (ht : (alloc s.pmm).1 = 0) :
    vmmMapPage alloc s dir virt phys flags = { s with pmm := (alloc s.pmm).2 } := by
  rw [vmmMapPage_eq, getOrCreateTable_full hp ht, if_neg (not_not.mpr rfl)]

theorem vmmMapPage_fresh (hp : ¬ Present s.mem dir (tableIdx virt)) (ht : (alloc s.pmm).1 ≠ 0) :
    vmmMapPage alloc s dir virt phys flags =
      (enterTable { s with pmm := (alloc s.pmm).2 } dir (tableIdx virt) flags
        (alloc s.pmm).1).store32 ((alloc s.pmm).1 + 4 * pageIdx virt)
        (newPageEntry phys flags) := by
  rw [vmmMapPage_eq, getOrCreateTable_fresh hp ht, if_pos ht]

/-! ## Creating a directory -/

/-- The state after the directory at `d` has been cleared and has got the kernel
    directory's present entries (lines 77–84). -/
def newDirectory (kernelDirectory : ℕ) (s : Vm σ) (d : ℕ) : Vm σ :=
  (List.range 1024).foldl (copyEntry kernelDirectory d)
    ((s.clear d directorySize).store32 (physicalAddr d) d)

theorem pmm_newDirectory (k d : ℕ) (s : Vm σ) : (newDirectory k s d).pmm = s.pmm := by
  refine List.foldlRecOn (motive := fun t : Vm σ => t.pmm = s.pmm) _ _ rfl ?_
  intro t ht i _
  unfold copyEntry
  split_ifs
  · exact ht
  · exact ht

theorem vmmCreateAddressSpace_full {k : ℕ} (ht : (alloc s.pmm).1 = 0) :
    vmmCreateAddressSpace alloc k s = (0, { s with pmm := (alloc s.pmm).2 }) := if_pos ht

theorem vmmCreateAddressSpace_fresh {k : ℕ} (ht : (alloc s.pmm).1 ≠ 0) :
    vmmCreateAddressSpace alloc k s =
      ((alloc s.pmm).1, newDirectory k { s with pmm := (alloc s.pmm).2 } (alloc s.pmm).1) :=
  if_neg ht

/-! ## Entries and translations -/

theorem and_pageMask {x : ℕ} (hx : x < 2 ^ 32) : x &&& 0xFFFFF000 = x / 4096 * 4096 := by
  have h := and_high_mask (k := 12) (by norm_num) hx
  norm_num at h
  exact h

theorem tableOf_eq (mem : Mem) (dir i : ℕ) : tableOf mem dir i = dirEntry mem dir i / 4096 * 4096 :=
  and_pageMask (read32_lt mem _)

theorem tableOf_aligned (mem : Mem) (dir i : ℕ) : tableOf mem dir i % 4096 = 0 := by
  rw [tableOf_eq]; omega

/-- Flag bits below the page offset do not disturb a page-aligned address. -/
theorem or_low_and_pageMask {base low : ℕ} (hbase : base % 4096 = 0) (hlt : base < 2 ^ 32)
    (hlow : low < 4096) : (base ||| low) &&& 0xFFFFF000 = base := by
  have hsplit : 2 ^ 12 * (base / 4096) = base := by omega
  have hor : base ||| low = base + low := by
    rw [← hsplit, Nat.two_pow_add_eq_or_of_lt hlow]
  rw [hor, and_pageMask (by omega)]
  omega

theorem or_pagePresent_and (x : ℕ) : (x ||| pagePresent) &&& pagePresent ≠ 0 := by
  rw [Nat.and_or_distrib_right]
  intro h
  exact absurd (Nat.or_eq_zero_iff.mp h).2 (by decide)

theorem tableIdx_eq (virt : ℕ) : tableIdx virt = virt / 4096 / 1024 := by
  rw [tableIdx, Nat.shiftRight_eq_div_pow, Nat.div_div_eq_div_mul]

theorem pageIdx_eq (virt : ℕ) : pageIdx virt = virt / 4096 % 1024 := by
  rw [pageIdx, Nat.shiftRight_eq_div_pow, show 0x3FF = 2 ^ 10 - 1 by norm_num,
    Nat.and_two_pow_sub_one_eq_mod]

theorem tableIdx_lt {virt : ℕ} (h : virt < 2 ^ 32) : tableIdx virt < 1024 := by
  rw [tableIdx_eq]; omega

theorem pageIdx_lt (virt : ℕ) : pageIdx virt < 1024 := by
  rw [pageIdx_eq]; omega

/-- The page frame a table entry names, if it is present. -/
def decodeEntry (e : ℕ) : Option ℕ :=
  if e &&& pagePresent = 0 then none else some (e &&& 0xFFFFF000)

/-- The entry of page number `n` in its table. -/
def pageEntry (mem : Mem) (dir n : ℕ) : ℕ := read32 mem (tableOf mem dir (n / 1024) + 4 * (n % 1024))

/-- The page frame that page number `n` is mapped to. -/
def pageFrame (mem : Mem) (dir n : ℕ) : Option ℕ :=
  if Present mem dir (n / 1024) then
    decodeEntry (read32 mem (tableOf mem dir (n / 1024) + 4 * (n % 1024)))
  else none

theorem pageFrame_of_present {mem : Mem} {n : ℕ} (h : Present mem dir (n / 1024)) :
    pageFrame mem dir n = decodeEntry (pageEntry mem dir n) := if_pos h

theorem pageFrame_of_not_present {mem : Mem} {n : ℕ} (h : ¬ Present mem dir (n / 1024)) :
    pageFrame mem dir n = none := if_neg h

/-- A translation is the frame of the page and the offset in the page. -/
theorem vmmGetPhysical_eq (mem : Mem) (dir virt : ℕ) : vmmGetPhysical mem dir virt =
    (pageFrame mem dir (virt / 4096)).elim 0 fun p => p ||| (virt &&& 0xFFF) := by
  unfold vmmGetPhysical pageFrame decodeEntry
  rw [tableIdx_eq, pageIdx_eq]
  by_cases hdir : Present mem dir (virt / 4096 / 1024)
  · rw [if_neg hdir, if_pos hdir]
    simp only [tableOf]
    split_ifs with hentry <;> simp [hentry]
  · rw [if_pos (not_not.mp hdir), if_neg hdir]
    rfl

end

end NexusKernel.Memory
