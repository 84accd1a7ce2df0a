import NexusKernel.Memory.KheapCanonical
import NexusKernel.Memory.KheapSizes

/-!
# What `krealloc` keeps

`krealloc` takes the length of its copy from the header of the old block, and the block
that `kmalloc` returns to it, or the one that `kfree` merges, may be a neighbour of the
old one. Here it is seen from the client: which pointers are live, how large their
blocks are, and what bytes they hold.

Results:
* `krealloc_returns`: the call always returns.
* `krealloc_preserves`: on failure nothing has changed; otherwise the bytes are those of
  the old block and no other live block is touched.
-/

namespace NexusKernel.Memory

open Tiling

section

variable {A : HeapArea} {s : HeapState} {cs : List Cell}

theorem krealloc_returns (h : HeapInv A s cs) (ptr size : ℕ) :
    ∃ r, krealloc s.heap ptr size = some r := by
  obtain ⟨q, hq⟩ := h.kmalloc_returns size
  unfold krealloc
  dsimp only
  split_ifs
  · exact ⟨q, hq⟩
  · exact ⟨_, rfl⟩
  · exact ⟨_, rfl⟩
  · exact ⟨_, by rw [hq]; rfl⟩

/-- A live block is a used cell of the tiling. -/
theorem HeapInv.used_of_mem (h : HeapInv A s cs) {p n : ℕ} (hp : (p, n) ∈ liveBlocks s) :
    ∃ x, p = x + 16 ∧ Used 16 A.addr cs x n := by
  obtain ⟨x, k, -, hx⟩ := (h.live p).mp hp.1
  exact ⟨x, hx, h.used_iff.mpr (hx ▸ hp)⟩

end

/-- For every reachable heap, every live block `(ptr, n)` and every new size that does not
    wrap: `krealloc` returns, and the live blocks are then those of the block list. If
    it returns `NULL`, the block list and the memory are as before and `ptr` is live. If
    it returns `q`, its block is large enough and starts with the old bytes, `ptr` is no
    longer live unless it is `q`, and every other live block keeps its place, its size
    and its bytes. -/
theorem krealloc_preserves (A : HeapArea) (s : HeapState) (hs : HeapReachable A s) (ptr n : ℕ)
    (hptr : (ptr, n) ∈ liveBlocks s) (size : ℕ) (hpos : 1 ≤ size) (hsize : size ≤ 2 ^ 32 - 8) :
    ∃ q t, heapCall s (.krealloc ptr size) = some (q, t) ∧
      TilesHeapArea A (blockList t.heap) t.live ∧
      (q = 0 → blockList t.heap = blockList s.heap ∧ t.heap.mem = s.heap.mem ∧ ptr ∈ t.live) ∧
      (q ≠ 0 →
        (∃ k, (q, k) ∈ liveBlocks t ∧ size ≤ k) ∧
        (∀ i < min n size, t.heap.mem (q + i) = s.heap.mem (ptr + i)) ∧
        (ptr ∈ t.live → q = ptr) ∧
        ∀ p k, (p, k) ∈ liveBlocks s → p ≠ ptr →
          (p, k) ∈ liveBlocks t ∧ ∀ i < k, t.heap.mem (p + i) = s.heap.mem (p + i)) := by
  obtain ⟨cs, h⟩ := hs.heapInv
  obtain ⟨⟨q, heap⟩, hr⟩ := krealloc_returns h ptr size
  have hlive : ptr ∈ s.live := hptr.1
  have hcall : heapCall s (.krealloc ptr size) =
      some (q, { heap := heap, live := kreallocLive s.live ptr size q }) := by
    rw [heapCall, if_pos ⟨by omega, Or.inr hlive⟩, hr]
    rfl
  obtain ⟨ds, hds⟩ := (heapInv_call h hcall fun _ _ hc _ => by cases hc; exact hsize).1
  refine ⟨q, _, hcall, hds.tilesHeapArea, ?_⟩
  obtain ⟨x, rfl, hx⟩ := h.used_of_mem hptr
  have hn : blockSize s.heap.mem (sub32 (x + 16) headerSize) = n := by
    have hused := h.used_of_live hlive
    rw [Nat.add_sub_cancel] at hused
    exact hused.size_unique (by norm_num) hx
  obtain he | ⟨he, hfit⟩ | ⟨hlt, ds', hmoved⟩ := krealloc_cases h hlive (by omega) hr fun _ => hsize
  · -- no block is large enough
    obtain ⟨rfl, rfl⟩ := Prod.mk.inj he
    have hsame : kreallocLive s.live (x + 16) size 0 = s.live := by
      rw [kreallocLive, if_pos rfl, if_neg (by omega)]
    rw [hsame]
    exact ⟨fun _ => ⟨rfl, rfl, hlive⟩, fun hq => absurd rfl hq⟩
  · -- the old block is large enough
    obtain ⟨rfl, rfl⟩ := Prod.mk.inj he
    have hsame : kreallocLive s.live (x + 16) size (x + 16) = s.live := by
      rw [kreallocLive, if_neg (by omega), if_pos rfl]
    rw [hsame]
    refine ⟨fun hq => absurd hq (by omega), fun _ => ⟨⟨n, hptr, by omega⟩, fun _ _ => rfl, fun _ => rfl, ?_⟩⟩
    intro p k hp _
    exact ⟨hp, fun _ _ => rfl⟩
  · have hne : q ≠ x + 16 := fun he => hmoved.fresh (he ▸ hlive)
    obtain ⟨y, k, hy, hyq, hle⟩ := hmoved.block
    simp only at hyq
    have hlive' : kreallocLive s.live (x + 16) size q = q :: s.live.erase (x + 16) := by
      rw [kreallocLive, if_neg (by omega), if_neg hne]
    rw [hlive']
    have hinv := hmoved.inv
    simp only at hinv
    refine ⟨fun hq => absurd hq (by omega), fun _ => ⟨⟨k, ?_, hle⟩, ?_, ?_, ?_⟩⟩
    · rw [hyq] at hinv ⊢
      exact hinv.used_iff.mp hy
    · intro i hi
      exact hmoved.copied i (by omega)
    · intro hmem
      obtain hmem | hmem := List.mem_cons.mp hmem
      · exact hmem.symm
      · exact absurd rfl ((h.nodup.mem_erase_iff.mp hmem).1)
    · intro p l hp hpne
      obtain ⟨z, rfl, hz⟩ := h.used_of_mem hp
      obtain ⟨hz', hbytes⟩ := hmoved.others z l hz hpne
      exact ⟨hinv.used_iff.mp hz', fun i hi => hbytes _ (by omega) (by omega)⟩

/-- A block at the start of the heap, followed by the free rest, grows. -/
theorem krealloc_preserves_at2M :
    ∃ s, HeapReachable heapAreaAt2M s ∧ (0x200010, 24) ∈ liveBlocks s ∧
      ∃ q t, heapCall s (.krealloc 0x200010 100) = some (q, t) ∧
        TilesHeapArea heapAreaAt2M (blockList t.heap) t.live := by
  obtain ⟨⟨p, s⟩, hs⟩ := Option.isSome_iff_exists.mp (show (heapCall (heapBoot heapAreaAt2M fun _ => 0)
    (.kmalloc 24)).isSome = true by decide +kernel)
  have hblock : (heapCall (heapBoot heapAreaAt2M fun _ => 0) (.kmalloc 24)).map
      (fun r => decide (0x200010 ∈ r.2.live ∧ blockSize r.2.heap.mem (0x200010 - 16) = 24)) =
        some true := by decide +kernel
  rw [hs, Option.map_some, Option.some_inj, decide_eq_true_iff] at hblock
  have hreach : HeapReachable heapAreaAt2M s := (HeapReachable.boot _).call hs nofun
  refine ⟨s, hreach, hblock, ?_⟩
  obtain ⟨q, t, hcall, htiles, -⟩ := krealloc_preserves heapAreaAt2M s hreach 0x200010 24 hblock 100
    (by norm_num) (by norm_num)
  exact ⟨q, t, hcall, htiles⟩

end NexusKernel.Memory
