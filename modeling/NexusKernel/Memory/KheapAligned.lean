import NexusKernel.Memory.KheapCanonical
import NexusKernel.Memory.KheapSizes

/-!
# Freeing an aligned allocation

`kfree` takes the sixteen bytes before the pointer for the header. When
`kmalloc_aligned` has moved the pointer up to meet the alignment, these bytes are
payload (or half a header), and what `kfree` does depends on what the heap happens to
hold there.

Results:
* `restores_of_aligned`: if the block is aligned as it is, `kfree` undoes the
  allocation, whatever the client stored.
* `not_restores_of_moved`: if the pointer is moved and the bytes before it are zero,
  the block is never released.
* `aligned_free_restores_iff`: so `kfree` undoes the allocation in every reachable heap
  with a given block list iff the first free block that is large enough is aligned.
-/

namespace NexusKernel.Memory

open Tiling

/-- If `kmalloc_aligned(size, alignment)` returns a pointer, then `kfree` of it, after any
    stores of the client into the `size` bytes, restores the block list, and the payloads
    of the blocks that were live are as before. -/
def AlignedFreeRestores (s : HeapState) (size alignment : ℕ) : Prop :=
  ∀ p heap m', kmallocAligned s.heap size alignment = some (p, heap) → p ≠ 0 →
    (∀ x, x < p ∨ p + size ≤ x → m' x = heap.mem x) →
    blockList (kfree { heap with mem := m' } p) = blockList s.heap ∧
      ∀ b ∈ blockList s.heap, b.free = false → ∀ x ∈ b.payload,
        (kfree { heap with mem := m' } p).mem x = s.heap.mem x

/-! ## The block that is found -/

/-- The first free block of at least `size` bytes, rounded up. -/
def firstFit (h : Kheap) (size : ℕ) : Option HeapBlock :=
  (blockList h).find? fun b => b.free && decide (roundSize size ≤ b.size)

/-- The loop of `kmalloc` takes the first block of the list that is free and large enough. -/
theorem kmallocLoop_fst {m : Mem} {size fuel a : ℕ} {r : ℕ × Mem}
    (hr : kmallocLoop m size fuel a = some r) :
    r.1 = ((blocksFrom m fuel a).find? fun b => b.free && decide (size ≤ b.size)).elim 0
      fun b => u32 (b.addr + headerSize) := by
  -- along the list, which both follow
  induction fuel generalizing a with
  | zero => exact absurd hr (Option.some_ne_none r).symm
  | succ fuel ih =>
    rw [kmallocLoop] at hr
    rw [blocksFrom]
    split_ifs at hr ⊢ with h0 hfit
    · rw [← Option.some_inj.mp hr]
      rfl
    · rw [List.find?_cons_of_pos (by simpa using hfit), ← Option.some_inj.mp hr]
      rfl
    · rw [List.find?_cons_of_neg (by simpa using hfit)]
      exact ih hr

section

variable {A : HeapArea} {s : HeapState} {cs : List Cell}

/-- The pointer that `kmalloc` returns is a multiple of a power of two iff the payload of the
    block found is, if there is one. -/
theorem dvd_kmalloc_iff (h : HeapInv A s cs) {size k q : ℕ} {heap : Kheap} (h0 : size ≠ 0)
    (hk : k < 32) (hmalloc : kmalloc s.heap size = some (q, heap)) :
    2 ^ k ∣ q ↔ ∀ b, firstFit s.heap size = some b → 2 ^ k ∣ b.addr + headerSize := by
  rw [kmalloc, if_neg (by simp [h.initialized, h0]), Option.map_eq_some_iff] at hmalloc
  obtain ⟨r, hr, heq⟩ := hmalloc
  have hq : q = (firstFit s.heap size).elim 0 fun b => u32 (b.addr + headerSize) := by
    rw [← (Prod.mk.inj heq).1]
    exact kmallocLoop_fst hr
  have hpow : 2 ^ k ∣ 2 ^ 32 := Nat.pow_dvd_pow 2 hk.le
  rw [hq]
  cases firstFit s.heap size with
  | none => simp
  | some b =>
    simp only [Option.elim_some, Option.some_inj, forall_eq']
    exact Nat.dvd_mod_iff hpow

/-! ## The pointer is not moved -/

theorem alignUp_of_dvd {addr k : ℕ} (hk : k < 32) (hfits : addr + 2 ^ k ≤ 2 ^ 32) (hpos : 0 < addr)
    (hdvd : 2 ^ k ∣ addr) : alignUp addr (2 ^ k) = addr := by
  obtain ⟨hdvd', hle, hlt⟩ := alignUp_spec hk hfits hpos
  have hsub := Nat.eq_zero_of_dvd_of_lt (Nat.dvd_sub hdvd' hdvd) (by omega)
  omega

/-- The block that `kmalloc` found: where it is, and that its end is an address. -/
theorem kmalloc_fits (h : HeapInv A s cs) {size q : ℕ} {heap : Kheap} (hsize : size ≤ 2 ^ 32 - 8)
    (hk : kmalloc s.heap size = some (q, heap)) (hq : q ≠ 0) :
    16 ≤ q ∧ 8 ∣ q ∧ q + size < 2 ^ 32 := by
  obtain ⟨cs', h', -, hblock, -⟩ := heapInv_kmalloc h hk
  obtain ⟨x, n, hx, rfl, hn⟩ := hblock hq
  have hle := (le_roundSize hsize).trans hn
  have hbounds := hx.bounds
  have hfits := h'.fits
  have haligned := h'.addr_aligned hx
  omega

theorem restores_of_aligned (h : HeapInv A s cs) {size k q : ℕ} {heap : Kheap}
    (hsum : size + 2 ^ k ≤ 2 ^ 32 - 8) (hk : k < 32)
    (hmalloc : kmalloc s.heap (size + 2 ^ k) = some (q, heap)) (hdvd : 2 ^ k ∣ q) :
    AlignedFreeRestores s size (2 ^ k) := by
  intro p heap' m' hcall hp hm
  rw [kmallocAligned, u32_of_lt (by omega), hmalloc, Option.map_some, Option.some_inj] at hcall
  obtain ⟨rfl, rfl⟩ := Prod.mk.inj hcall
  have hq : q ≠ 0 := by
    intro h0
    exact hp (if_pos h0)
  obtain ⟨hlow, -, hfits⟩ := kmalloc_fits h hsum hmalloc hq
  have hptr : (if q = 0 then 0 else alignUp q (2 ^ k)) = q :=
    (if_neg hq).trans (alignUp_of_dvd hk (by omega) (by omega) hdvd)
  simp only [hptr] at hm ⊢
  obtain ⟨ds, hds, hused, hpayload⟩ := heapInv_kmalloc_kfree h m' hmalloc hq (by
    intro x hx
    have hround := le_roundSize hsum
    exact hm x (by omega))
  refine ⟨blockList_eq_of_used hds h hused, ?_⟩
  intro b hb hfree x hx
  rw [h.blockList_eq] at hb
  have hplaced := mem_cellBlocks hb
  rw [hfree] at hplaced
  exact hpayload b.addr b.size hplaced x hx.1 hx.2

/-! ## The pointer is moved -/

theorem read32_eq_zero {m : Mem} {a : ℕ} (h : ∀ x, a ≤ x → x < a + 4 → m x = 0) :
    read32 m a = 0 := by
  simp [read32, h a (by omega) (by omega), h (a + 1) (by omega) (by omega),
    h (a + 2) (by omega) (by omega), h (a + 3) (by omega) (by omega)]

/-- A block of the list shows the flag of its header. -/
theorem free_of_mem_blocksFrom {m : Mem} {fuel a : ℕ} {b : HeapBlock}
    (hb : b ∈ blocksFrom m fuel a) : b.free = decide (blockFree m b.addr ≠ 0) := by
  induction fuel generalizing a with
  | zero => exact absurd hb List.not_mem_nil
  | succ fuel ih =>
    rw [blocksFrom] at hb
    split_ifs at hb
    · exact absurd hb List.not_mem_nil
    · obtain rfl | hb := List.mem_cons.mp hb
      · rfl
      · exact ih hb

/-- With zeros where `kfree` looks for `next` and `prev`, it only stores its flag. -/
theorem kfree_of_zeros {heap : Kheap} {p : ℕ} (hp : 16 ≤ p) (hlt : p < 2 ^ 32)
    (hzero : ∀ x, p - 8 ≤ x → x < p → heap.mem x = 0) :
    (kfree heap p).mem = setFree heap.mem (p - 16) true := by
  have hsub : sub32 p headerSize = p - 16 := sub32_of_le hlt hp
  have hread : ∀ a, p - 8 ≤ a → a + 4 ≤ p → read32 (setFree heap.mem (p - 16) true) a = 0 := by
    intro a h1 h2
    apply read32_eq_zero
    intro x hx1 hx2
    rw [setFree, write32_outside (by omega)]
    exact hzero x (by omega) (by omega)
  have hnext : coalesceNext (setFree heap.mem (p - 16) true) (p - 16) =
      setFree heap.mem (p - 16) true :=
    if_neg fun h => h.1 (hread (p - 16 + 8) (by omega) (by omega))
  have hprev : coalescePrev (setFree heap.mem (p - 16) true) (p - 16) =
      setFree heap.mem (p - 16) true :=
    if_neg fun h => h.1 (hread (p - 16 + 12) (by omega) (by omega))
  rw [kfree, if_neg (by omega)]
  dsimp only
  rw [hsub, coalesceBlock, hnext, hprev]

/-- The address of a moved pointer: at least eight bytes into the payload. -/
theorem add_eight_le_alignUp {q k : ℕ} (hk : k < 32) (hfits : q + 2 ^ k ≤ 2 ^ 32) (hpos : 0 < q)
    (h8 : 8 ∣ q) (hmoved : ¬ 2 ^ k ∣ q) : q + 8 ≤ alignUp q (2 ^ k) := by
  obtain ⟨hdvd, hle, -⟩ := alignUp_spec hk hfits hpos
  have hthree : 3 ≤ k := by
    by_contra hlt
    have hpow : 2 ^ k ∣ 2 ^ 3 := Nat.pow_dvd_pow 2 (by omega)
    exact hmoved (hpow.trans h8)
  have h8' : 8 ∣ alignUp q (2 ^ k) := (Nat.pow_dvd_pow 2 hthree).trans hdvd
  have hne : alignUp q (2 ^ k) ≠ q := by
    intro he
    exact hmoved (he ▸ hdvd)
  omega

theorem not_restores_of_moved (h : HeapInv A s cs) {size k q : ℕ} {heap : Kheap}
    (hsum : size + 2 ^ k ≤ 2 ^ 32 - 8) (hk : k < 32)
    (hmalloc : kmalloc s.heap (size + 2 ^ k) = some (q, heap)) (hmoved : ¬ 2 ^ k ∣ q)
    (hzero : ∀ x, q ≤ x → x < q + (size + 2 ^ k) → s.heap.mem x = 0) :
    ¬ AlignedFreeRestores s size (2 ^ k) := by
  have hq : q ≠ 0 := by
    intro h0
    exact hmoved (h0 ▸ dvd_zero _)
  obtain ⟨hlow, h8, hfits⟩ := kmalloc_fits h hsum hmalloc hq
  obtain ⟨-, -, hlt⟩ := alignUp_spec hk (show q + 2 ^ k ≤ 2 ^ 32 by omega) (by omega)
  have hge := add_eight_le_alignUp hk (by omega) (by omega) h8 hmoved
  set p := alignUp q (2 ^ k) with hp
  have hcall : kmallocAligned s.heap size (2 ^ k) = some (p, heap) := by
    rw [kmallocAligned, u32_of_lt (by omega), hmalloc, Option.map_some, if_neg hq]
  -- the new block is used, and the bytes of its payload are still zero
  obtain ⟨cs', h', -, hblock, hoff⟩ := heapInv_kmalloc h hmalloc
  obtain ⟨x, n, hx, hqx, hn⟩ := hblock hq
  have hle := (le_roundSize hsum).trans hn
  have hmem : ∀ y, q ≤ y → y < q + (size + 2 ^ k) → heap.mem y = 0 := by
    intro y h1 h2
    rw [hoff y (offHeaders_of_placed hx (by omega) (by simp only; omega))]
    exact hzero y h1 h2
  have hused : blockFree heap.mem (q - 16) = 0 := by
    obtain ⟨pre, post, rfl, rfl⟩ := exists_split_of_mem_placed hx
    rw [show q - 16 = A.addr + span 16 pre from Nat.sub_eq_of_eq_add hqx]
    exact (seg_append.mp h'.repr).2.1.free
  have hkept : blockFree (kfree heap p).mem (q - 16) = 0 := by
    rw [kfree_of_zeros (by omega) (by omega) fun y h1 h2 => hmem y (by omega) (by omega), setFree,
      blockFree, read32_write32_of_disjoint (by omega)]
    exact hused
  intro hrestores
  obtain ⟨hlist, -⟩ := hrestores p heap heap.mem hcall (by omega) fun _ _ => rfl
  -- but before the allocation it was free
  obtain hfail | ⟨pre, c, post, m', hcs, hc, -, hk', -⟩ := h.kmalloc_eq (size + 2 ^ k)
  · rw [hmalloc] at hfail
    exact hq (congrArg Prod.fst (Option.some_inj.mp hfail))
  · rw [hmalloc] at hk'
    have hqpre : q = A.addr + span 16 pre + 16 := congrArg Prod.fst (Option.some_inj.mp hk')
    have hplaced := mem_placed_split (H := 16) (a := A.addr) pre post c
    rw [← hcs] at hplaced
    obtain ⟨b, hb, haddr, -, hfree⟩ := exists_mem_cellBlocks (p := 0) hplaced
    rw [← h.blockList_eq, ← hlist] at hb
    have hshown : b.free = decide (blockFree (kfree heap p).mem b.addr ≠ 0) :=
      free_of_mem_blocksFrom hb
    rw [haddr, show A.addr + span 16 pre = q - 16 by omega, hkept, hfree, hc] at hshown
    exact absurd hshown (by decide)

/-! ## A heap with zeros -/

theorem update_fill (m : Mem) (a n : ℕ) (v : Byte) :
    Function.update (fill m a n v) (a + n) v = fill m a (n + 1) v := by
  funext x
  by_cases hx : x = a + n
  · rw [hx, Function.update_self, fill_inside (by omega) (by omega)]
  · rw [Function.update_of_ne hx]
    unfold fill
    apply if_congr _ rfl rfl
    omega

/-- A client can fill its block with zeros. -/
theorem HeapReachable.fill (hs : HeapReachable A s) {p n : ℕ} (hp : p ∈ s.live)
    (hn : n ≤ blockSize s.heap.mem (sub32 p headerSize)) :
    HeapReachable A { s with heap := { s.heap with mem := NexusKernel.fill s.heap.mem p n 0 } } := by
  obtain ⟨cs, h⟩ := hs.heapInv
  obtain ⟨pre, -, -, -, hpre, hsub, -⟩ := h.split_of_live hp
  induction n with
  | zero =>
    have hsame : NexusKernel.fill s.heap.mem p 0 0 = s.heap.mem := by
      funext x
      exact fill_outside (by omega)
    rw [hsame]
    exact hs
  | succ n ih =>
    refine (ih (by omega)).call (c := .store (p + n) 0) (p := 0) ?_ (by simp)
    have hsize : blockSize (NexusKernel.fill s.heap.mem p n 0) (sub32 p headerSize) =
        blockSize s.heap.mem (sub32 p headerSize) :=
      read32_fill_of_disjoint (by omega)
    have hstep : heapStep { s with heap := { s.heap with mem := NexusKernel.fill s.heap.mem p n 0 } }
        (.store (p + n) 0) = some { s with heap := { s.heap with
          mem := NexusKernel.fill s.heap.mem p (n + 1) 0 } } := by
      rw [heapStep, if_pos ⟨p, hp, by omega, by rw [hsize]; omega⟩, update_fill]
    rw [heapCall, hstep]
    rfl

/-- From every reachable heap one is reached that has the same block list, and zeros in
    the block that `kmalloc` finds. -/
theorem exists_reachable_zeros (hs : HeapReachable A s) (h : HeapInv A s cs) {size q : ℕ}
    {heap : Kheap} (hsize : size ≤ 2 ^ 32 - 8) (hmalloc : kmalloc s.heap size = some (q, heap))
    (hq : q ≠ 0) :
    ∃ t, HeapReachable A t ∧ HeapInv A t cs ∧ ∀ x, q ≤ x → x < q + size → t.heap.mem x = 0 := by
  have hround := le_roundSize hsize
  obtain ⟨cs₁, h₁, -, hblock, -⟩ := heapInv_kmalloc h hmalloc
  obtain ⟨x, n, hx, hqx, hn⟩ := hblock hq
  simp only [if_neg hq] at h₁
  have hmem : q ∈ q :: s.live := List.mem_cons_self
  have hlive : blockSize heap.mem (sub32 q headerSize) = n := by
    have hused := h₁.used_of_live hmem
    rw [show q - 16 = x by omega] at hused
    exact hused.size_unique (by norm_num) hx
  have hcall : heapCall s (.kmalloc size) = some (q, ⟨heap, q :: s.live⟩) := by
    rw [heapCall, if_pos (by omega), hmalloc, Option.map_some, if_neg hq]
  have hs₁ : HeapReachable A ⟨heap, q :: s.live⟩ := hs.call hcall (by simp)
  have hs₂ := hs₁.fill hmem (n := size) (by rw [hlive]; omega)
  have h₂ := heapInv_overwrite h₁ (fill heap.mem q size 0) hmem (by
    intro y hy
    exact fill_outside (by rw [hlive] at hy; omega))
  obtain ⟨-, -, -, hoff⟩ := heapInv_kfree h₂ hmem
  obtain ⟨ds, hds, hused, -⟩ := heapInv_kmalloc_kfree h (fill heap.mem q size 0) hmalloc hq (by
    intro y hy
    exact fill_outside (by omega))
  have hcs : ds = cs := canonical_unique (by norm_num) hds.canonical h.canonical
    (by rw [hds.span, h.span]) hused
  refine ⟨_, hs₂.call (c := .kfree q) (p := 0) (t := ⟨kfree { heap with
    mem := fill heap.mem q size 0 } q, s.live⟩) ?_ (by simp), hcs ▸ hds, ?_⟩
  · rw [heapCall, heapStep, if_pos (Or.inr hmem), List.erase_cons_head]
    rfl
  · intro y h1 h2
    rw [hoff y (offHeaders_of_placed hx (by omega) (by simp only; omega))]
    exact fill_inside h1 (by omega)

end

/-- For every reachable heap, every size and every power of two that do not wrap: in
    every reachable heap with its block list `kfree` undoes `kmalloc_aligned`, whatever
    the client stores in between, iff the payload of the first free block that is large
    enough for both is aligned as it is (or there is no such block). -/
theorem aligned_free_restores_iff (A : HeapArea) (s : HeapState) (hs : HeapReachable A s)
    (size k : ℕ) (hsum : size + 2 ^ k ≤ 2 ^ 32 - 8) :
    (∀ t, HeapReachable A t → blockList t.heap = blockList s.heap →
      AlignedFreeRestores t size (2 ^ k)) ↔
    ∀ b, firstFit s.heap (size + 2 ^ k) = some b → 2 ^ k ∣ b.addr + headerSize := by
  obtain ⟨cs, h⟩ := hs.heapInv
  obtain ⟨⟨q, heap⟩, hmalloc⟩ := h.kmalloc_returns (size + 2 ^ k)
  have hk : k < 32 := (Nat.pow_lt_pow_iff_right (by norm_num)).mp (show 2 ^ k < 2 ^ 32 by omega)
  have hpos : size + 2 ^ k ≠ 0 := by positivity
  rw [← dvd_kmalloc_iff h hpos hk hmalloc]
  -- `kmalloc` returns the same pointer in every heap with this tiling
  have hsame : ∀ t, HeapInv A t cs → ∃ heap', kmalloc t.heap (size + 2 ^ k) = some (q, heap') := by
    intro t ht
    have hfst := h.kmalloc_fst_congr ht (size + 2 ^ k)
    rw [hmalloc] at hfst
    obtain ⟨r, hr, hrq⟩ := Option.map_eq_some_iff.mp hfst.symm
    exact ⟨r.2, hr.trans (congrArg some (Prod.ext hrq rfl))⟩
  constructor
  · intro hrestores
    by_contra hmoved
    have hq : q ≠ 0 := by
      intro h0
      exact hmoved (h0 ▸ dvd_zero _)
    obtain ⟨t, hreach, ht, hzero⟩ := exists_reachable_zeros hs h hsum hmalloc hq
    obtain ⟨heap', hmalloc'⟩ := hsame t ht
    exact not_restores_of_moved ht hsum hk hmalloc' hmoved hzero
      (hrestores t hreach (by rw [ht.blockList_eq, h.blockList_eq]))
  · intro hdvd t hreach hlist
    obtain ⟨ds, ht⟩ := hreach.heapInv
    rw [ht.blockList_eq, h.blockList_eq] at hlist
    have hcs := congrArg (List.map fun b => Cell.mk b.size b.free) hlist
    rw [map_cellBlocks, map_cellBlocks] at hcs
    obtain ⟨heap', hmalloc'⟩ := hsame t (hcs ▸ ht)
    exact restores_of_aligned ht hsum hk hmalloc' hdvd

/-- On the fresh heap the block for 16 bytes aligned to 16 is aligned as it is. -/
theorem aligned_free_restores_iff_at2M :
    (∃ heap, kmallocAligned (heapBoot heapAreaAt2M fun _ => 0).heap 16 (2 ^ 4) =
      some (0x200010, heap)) ∧
    AlignedFreeRestores (heapBoot heapAreaAt2M fun _ => 0) 16 (2 ^ 4) := by
  have hfit : (firstFit (heapBoot heapAreaAt2M fun _ => 0).heap (16 + 2 ^ 4)).map HeapBlock.addr =
      some 0x200000 := by decide +kernel
  have haligned : (kmallocAligned (heapBoot heapAreaAt2M fun _ => 0).heap 16 (2 ^ 4)).map Prod.fst =
      some 0x200010 := by decide +kernel
  obtain ⟨r, hr, hq⟩ := Option.map_eq_some_iff.mp haligned
  refine ⟨⟨r.2, by rw [hr, ← hq]⟩, ?_⟩
  refine (aligned_free_restores_iff heapAreaAt2M _ (.boot _) 16 4 (by norm_num)).mpr ?_ _ (.boot _) rfl
  intro b hb
  rw [hb, Option.map_some, Option.some_inj] at hfit
  rw [hfit]
  decide

/-- On the fresh heap 16 bytes aligned to 32 start 16 bytes into the block; after `kfree`
    the block is still in use. -/
theorem aligned_block_never_freed :
    ∃ heap, kmallocAligned (heapBoot heapAreaAt2M fun _ => 0).heap 16 32 = some (0x200020, heap) ∧
      (blockList (heapBoot heapAreaAt2M fun _ => 0).heap).map HeapBlock.free = [true] ∧
      (blockList (kfree heap 0x200020)).map HeapBlock.free = [false, true] ∧
      ¬ AlignedFreeRestores (heapBoot heapAreaAt2M fun _ => 0) 16 32 := by
  have hcall : (kmallocAligned (heapBoot heapAreaAt2M fun _ => 0).heap 16 32).map
      (fun r => (r.1, (blockList (kfree r.2 0x200020)).map HeapBlock.free)) =
        some (0x200020, [false, true]) := by decide +kernel
  have hbefore : (blockList (heapBoot heapAreaAt2M fun _ => 0).heap).map HeapBlock.free = [true] := by
    decide +kernel
  obtain ⟨r, hr, heq⟩ := Option.map_eq_some_iff.mp hcall
  obtain ⟨hptr, hafter⟩ := Prod.mk.inj heq
  have hr' : kmallocAligned (heapBoot heapAreaAt2M fun _ => 0).heap 16 32 = some (0x200020, r.2) := by
    rw [hr, ← hptr]
  refine ⟨r.2, hr', hbefore, hafter, ?_⟩
  intro hrestores
  obtain ⟨hlist, -⟩ := hrestores 0x200020 r.2 r.2.mem hr' (by norm_num) fun _ _ => rfl
  have hfree := congrArg (List.map HeapBlock.free) hlist
  rw [hbefore] at hfree
  exact absurd (hafter.symm.trans hfree) (by decide)

end NexusKernel.Memory
