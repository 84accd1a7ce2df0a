import NexusKernel.Common.Bits
import NexusKernel.Lib.String

/-!
# The kernel heap (`kernel/memory/kheap.c`)

A first-fit allocator over the static array `heap_area`. Every block starts with a
16-byte header (`heap_block_t`: `size`, `free`, `next`, `prev`, four bytes each;
`bool` is `int`), and the blocks form a doubly linked list from `heap_start`.

The model works on the bytes of memory: a header field is the 32-bit word at its
offset, so nothing is assumed about headers and payloads being apart. Pointers and
`size_t` values are natural numbers, with `u32` and `sub32` where the code computes
in 32 bits. The messages that `kprintf` prints have no effect on the heap and are
left out.
-/

namespace NexusKernel.Memory

/-- `KHEAP_SIZE` (`kheap.h`, line 7). -/
def kheapSize : ℕ := 4 * 1024 * 1024

/-- `HEAP_BLOCK_HEADER_SIZE`, that is `sizeof(heap_block_t)` (`kheap.c`, line 8). -/
def headerSize : ℕ := 16

/-- `HEAP_MIN_BLOCK_SIZE` (`kheap.c`, line 9). -/
def heapMinBlockSize : ℕ := 16

/-- The place of `heap_area` (`kheap.c`, line 12): a page-aligned array of
    `KHEAP_SIZE` bytes whose end is an address. -/
structure HeapArea where
  addr : ℕ
  pos : 0 < addr
  aligned : addr % 4096 = 0
  fits : addr + kheapSize < 2 ^ 32

/-- `heap_start`, `heap_initialized` and the memory. -/
structure Kheap where
  mem : Mem
  heapStart : ℕ
  heapInitialized : Bool

/-! ## Header fields -/

/-- `block->size`. -/
def blockSize (m : Mem) (block : ℕ) : ℕ := read32 m block

/-- `block->free`; any non-zero value is true. -/
def blockFree (m : Mem) (block : ℕ) : ℕ := read32 m (block + 4)

/-- `block->next`. -/
def blockNext (m : Mem) (block : ℕ) : ℕ := read32 m (block + 8)

/-- `block->prev`. -/
def blockPrev (m : Mem) (block : ℕ) : ℕ := read32 m (block + 12)

def setSize (m : Mem) (block v : ℕ) : Mem := write32 m block v

def setFree (m : Mem) (block : ℕ) (v : Bool) : Mem := write32 m (block + 4) (if v then 1 else 0)

def setNext (m : Mem) (block v : ℕ) : Mem := write32 m (block + 8) v

def setPrev (m : Mem) (block v : ℕ) : Mem := write32 m (block + 12) v

/-! ## The functions of `kheap.c` -/

/-- `kheap_init` (lines 16–26), on whatever the memory held before. -/
def kheapInit (A : HeapArea) (m : Mem) : Kheap :=
  let m := setSize m A.addr (kheapSize - headerSize)
  let m := setFree m A.addr true
  let m := setNext m A.addr 0
  let m := setPrev m A.addr 0
  { mem := m, heapStart := A.addr, heapInitialized := true }

/-- `split_block` (lines 28–44). -/
def splitBlock (m : Mem) (block size : ℕ) : Mem :=
  if u32 (size + headerSize + heapMinBlockSize) ≤ blockSize m block then
    let newBlock := u32 (block + headerSize + size)
    let m := setSize m newBlock (sub32 (sub32 (blockSize m block) size) headerSize)
    let m := setFree m newBlock true
    let m := setNext m newBlock (blockNext m block)
    let m := setPrev m newBlock block
    let m := if blockNext m block ≠ 0 then setPrev m (blockNext m block) newBlock else m
    let m := setNext m block newBlock
    setSize m block size
  else m

/-- The first `if` of `coalesce_block` (lines 48–53): merge with the next block. -/
def coalesceNext (m : Mem) (block : ℕ) : Mem :=
  if blockNext m block ≠ 0 ∧ blockFree m (blockNext m block) ≠ 0 then
    let m := setSize m block (u32 (blockSize m block +
      (headerSize + blockSize m (blockNext m block))))
    let m := setNext m block (blockNext m (blockNext m block))
    if blockNext m block ≠ 0 then setPrev m (blockNext m block) block else m
  else m

/-- The second `if` of `coalesce_block` (lines 55–60): merge into the previous block. -/
def coalescePrev (m : Mem) (block : ℕ) : Mem :=
  if blockPrev m block ≠ 0 ∧ blockFree m (blockPrev m block) ≠ 0 then
    let m := setSize m (blockPrev m block) (u32 (blockSize m (blockPrev m block) +
      (headerSize + blockSize m block)))
    let m := setNext m (blockPrev m block) (blockNext m block)
    if blockNext m block ≠ 0 then setPrev m (blockNext m block) (blockPrev m block) else m
  else m

/-- `coalesce_block` (lines 46–61). -/
def coalesceBlock (m : Mem) (block : ℕ) : Mem := coalescePrev (coalesceNext m block) block

/-- The rounding `(size + 7) & ~7` of `kmalloc` (line 68). It wraps to 0 for the
    seven largest 32-bit sizes. -/
def roundSize (size : ℕ) : ℕ := u32 (size + 7) &&& (2 ^ 32 - 2 ^ 3)

/-- The number of iterations after which the loop of `kmalloc` is cut off. A list
    of blocks that fit in `heap_area` is shorter (`kmalloc_returns`). -/
def maxBlocks : ℕ := kheapSize / headerSize + 1

/-- The `while (current)` loop of `kmalloc` (lines 70–78): the returned pointer and
    the new memory, or `none` if it did not end within `fuel` iterations. -/
def kmallocLoop (m : Mem) (size : ℕ) : (fuel : ℕ) → (current : ℕ) → Option (ℕ × Mem)
  | 0, _ => none
  | fuel + 1, current =>
    if current = 0 then some (0, m)
    else if blockFree m current ≠ 0 ∧ size ≤ blockSize m current then
      some (u32 (current + headerSize), setFree (splitBlock m current size) current false)
    else kmallocLoop m size fuel (blockNext m current)

/-- `kmalloc` (lines 63–82): the returned pointer (0 is `NULL`) and the new heap. -/
def kmalloc (h : Kheap) (size : ℕ) : Option (ℕ × Kheap) :=
  if h.heapInitialized = false ∨ size = 0 then some (0, h)
  else
    (kmallocLoop h.mem (roundSize size) maxBlocks h.heapStart).map fun r =>
      (r.1, { h with mem := r.2 })

/-- `kfree` (lines 96–104). -/
def kfree (h : Kheap) (ptr : ℕ) : Kheap :=
  if ptr = 0 then h
  else
    let block := sub32 ptr headerSize
    { h with mem := coalesceBlock (setFree h.mem block true) block }

/-- `(addr + alignment - 1) & ~(alignment - 1)` (line 91). -/
def alignUp (addr alignment : ℕ) : ℕ :=
  sub32 (u32 (addr + alignment)) 1 &&& (2 ^ 32 - 1 - sub32 alignment 1)

/-- `kmalloc_aligned` (lines 84–94). The pointer it returns may lie anywhere in the
    block that `kmalloc` returned. -/
def kmallocAligned (h : Kheap) (size alignment : ℕ) : Option (ℕ × Kheap) :=
  (kmalloc h (u32 (size + alignment))).map fun r =>
    (if r.1 = 0 then 0 else alignUp r.1 alignment, r.2)

/-- `krealloc` (lines 106–127). -/
def krealloc (h : Kheap) (ptr newSize : ℕ) : Option (ℕ × Kheap) :=
  if ptr = 0 then kmalloc h newSize
  else if newSize = 0 then some (0, kfree h ptr)
  else
    let block := sub32 ptr headerSize
    if newSize ≤ blockSize h.mem block then some (ptr, h)
    else
      (kmalloc h newSize).map fun r =>
        if r.1 = 0 then (0, r.2)
        else
          let mem := memcpy r.2.mem r.1 ptr (blockSize r.2.mem block)
          (r.1, kfree { r.2 with mem := mem } ptr)

/-! ## The block list -/

/-- A block as the list from `heap_start` shows it. -/
structure HeapBlock where
  addr : ℕ
  size : ℕ
  free : Bool
  next : ℕ
  prev : ℕ
  deriving DecidableEq, Repr

/-- The blocks met by following `next` from `a`, at most `fuel` of them. -/
def blocksFrom (m : Mem) : (fuel : ℕ) → (a : ℕ) → List HeapBlock
  | 0, _ => []
  | fuel + 1, a =>
    if a = 0 then []
    else ⟨a, blockSize m a, blockFree m a ≠ 0, blockNext m a, blockPrev m a⟩ ::
      blocksFrom m fuel (blockNext m a)

/-- The list from `heap_start`. -/
def blockList (h : Kheap) : List HeapBlock := blocksFrom h.mem maxBlocks h.heapStart

theorem roundSize_eq (size : ℕ) : roundSize size = u32 (size + 7) / 8 * 8 :=
  and_high_mask (by norm_num) (u32_lt _)

/-- The request is rounded up to a multiple of 8, unless it wraps to 0. -/
theorem roundSize_cases {size : ℕ} (h : size < 2 ^ 32) :
    (size + 7 < 2 ^ 32 ∧ size ≤ roundSize size ∧ roundSize size < size + 8) ∨
      (2 ^ 32 ≤ size + 7 ∧ roundSize size = 0) := by
  rw [roundSize_eq, u32]
  omega

theorem roundSize_dvd (size : ℕ) : 8 ∣ roundSize size := by
  rw [roundSize_eq]; exact Dvd.intro_left _ rfl

end NexusKernel.Memory
