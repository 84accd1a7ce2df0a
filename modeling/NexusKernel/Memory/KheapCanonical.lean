import NexusKernel.Memory.KheapInvariant

/-!
# The block list is determined by the live blocks

The tiling that memory represents is canonical, so it is determined by its used
cells (`Tiling.canonical_unique`), and these are the live blocks.

Results:

* `blockList_unique`: two heaps with the same live blocks have the same block list.
* `kheap_canonical`: no two adjacent blocks are free; the block list is a function
  of the live blocks; releases commute; `kfree` undoes `kmalloc`; with nothing live
  the heap is one free block.
-/

namespace NexusKernel.Memory

open Tiling

/-- The live pointers with the sizes of their blocks. -/
def liveBlocks (s : HeapState) : Set (ℕ × ℕ) :=
  {q | q.1 ∈ s.live ∧ blockSize s.heap.mem (q.1 - 16) = q.2}

section

variable {A : HeapArea} {s t : HeapState} {cs ds : List Cell}

/-- The used cells are the live blocks. -/
theorem HeapInv.used_iff (h : HeapInv A s cs) {x n : ℕ} :
    Used 16 A.addr cs x n ↔ (x + 16, n) ∈ liveBlocks s := by
  have hsize : ∀ {k}, Used 16 A.addr cs x k → blockSize s.heap.mem x = k := by
    intro k hk
    obtain ⟨pre, post, rfl, rfl⟩ := exists_split_of_mem_placed hk
    exact (seg_append.mp h.repr).2.1.size
  constructor
  · intro hx
    exact ⟨(h.live _).mpr ⟨x, n, hx, rfl⟩, hsize hx⟩
  · rintro ⟨hp, hn⟩
    obtain ⟨y, k, hy, he⟩ := (h.live _).mp hp
    have hxy : y = x := by simp only at he; omega
    subst hxy
    have hn : blockSize s.heap.mem y = n := hn
    rw [← hn, hsize hy]
    exact hy

/-- Two heaps with the same used cells have the same block list. -/
theorem blockList_eq_of_used (hs : HeapInv A s cs) (ht : HeapInv A t ds)
    (h : ∀ x n, Used 16 A.addr cs x n ↔ Used 16 A.addr ds x n) :
    blockList s.heap = blockList t.heap := by
  have hcd : cs = ds := canonical_unique (by norm_num) hs.canonical ht.canonical
    (by rw [hs.span, ht.span]) h
  rw [hs.blockList_eq, ht.blockList_eq, hcd]

theorem blockList_unique (hs : HeapInv A s cs) (ht : HeapInv A t ds)
    (h : liveBlocks s = liveBlocks t) : blockList s.heap = blockList t.heap := by
  apply blockList_eq_of_used hs ht
  intro x n
  rw [hs.used_iff, ht.used_iff, h]

/-- Releasing the pointers `ps`, one after the other, takes exactly these out of the
    used cells. -/
theorem heapInv_kfree_all (h : HeapInv A s cs) {ps : List ℕ} (hnodup : ps.Nodup)
    (hps : ∀ p ∈ ps, p ∈ s.live) :
    ∃ ds, HeapInv A { heap := ps.foldl kfree s.heap, live := ps.foldl List.erase s.live } ds ∧
      ∀ x n, Used 16 A.addr ds x n ↔ Used 16 A.addr cs x n ∧ x + 16 ∉ ps := by
  induction ps generalizing s cs with
  | nil => exact ⟨cs, h, by simp⟩
  | cons p ps ih =>
    obtain ⟨hp, hnodup⟩ := List.nodup_cons.mp hnodup
    obtain ⟨cs', h', hused, -⟩ := heapInv_kfree h (hps p List.mem_cons_self)
    have hps' : ∀ q ∈ ps, q ∈ s.live.erase p := by
      intro q hq
      rw [h.nodup.mem_erase_iff]
      exact ⟨fun he => hp (he ▸ hq), hps q (List.mem_cons_of_mem _ hq)⟩
    obtain ⟨ds, hds, hused'⟩ := ih h' hnodup hps'
    refine ⟨ds, hds, ?_⟩
    intro x n
    rw [hused', hused, List.mem_cons]
    tauto

/-- `kmalloc`, whatever stores into the new block, and `kfree` leave the used cells and
    their payloads as they were. -/
theorem heapInv_kmalloc_kfree (h : HeapInv A s cs) {size p : ℕ} {heap : Kheap} (m' : Mem)
    (hk : kmalloc s.heap size = some (p, heap)) (hp : p ≠ 0)
    (hm : ∀ x, x < p ∨ p + roundSize size ≤ x → m' x = heap.mem x) :
    ∃ ds, HeapInv A { heap := kfree { heap with mem := m' } p, live := s.live } ds ∧
      (∀ x n, Used 16 A.addr ds x n ↔ Used 16 A.addr cs x n) ∧
      ∀ x n, Used 16 A.addr cs x n → ∀ y, x + 16 ≤ y → y < x + 16 + n →
        (kfree { heap with mem := m' } p).mem y = s.heap.mem y := by
  have hfresh : p ∉ s.live := by
    rcases h.kmalloc_eq size with hk' | ⟨pre, c, post, m', hcs, hc, -, hk', -⟩
    · rw [hk] at hk'; cases hk'; exact absurd rfl hp
    · rw [hk] at hk'; cases hk'; exact h.carved_fresh hcs hc
  obtain ⟨cs', h₁, hkeep, hsize, hoff⟩ := heapInv_kmalloc h hk
  obtain ⟨x₁, n₁, hx₁, rfl, hn₁⟩ := hsize hp
  simp only [if_neg hp] at h₁
  have hblock := (h₁.used_of_live List.mem_cons_self).size_unique (by norm_num) hx₁
  have h₂ := heapInv_overwrite h₁ (p := x₁ + 16) m' List.mem_cons_self (by
    intro y hy
    exact hm y (by rw [hblock] at hy; omega))
  obtain ⟨ds, hds, hused, hoff'⟩ := heapInv_kfree h₂ (show x₁ + 16 ∈ _ from List.mem_cons_self)
  rw [List.erase_cons_head] at hds
  refine ⟨ds, hds, ?_, ?_⟩
  · intro x n
    constructor
    · intro hx
      obtain ⟨y, k, hy, he⟩ := (h.live _).mp ((hds.live _).mpr ⟨x, n, hx, rfl⟩)
      have hxy : y = x := by omega
      subst hxy
      rwa [((hused y n).mp hx).1.size_unique (by norm_num) (hkeep y k hy)]
    · intro hx
      refine (hused x n).mpr ⟨hkeep x n hx, ?_⟩
      intro he
      exact hfresh (he ▸ (h.live _).mpr ⟨x, n, hx, rfl⟩)
  · intro x n hx y h1 h2
    have hx' := hkeep x n hx
    have hy := offHeaders_of_placed hx' h1 h2
    -- another block's payload is not the new one's
    have hapart : y < x₁ + 16 ∨ x₁ + 16 + n₁ ≤ y := by
      obtain ⟨he, -⟩ | hd | hd := placed_disjoint hx' hx₁
      · exact absurd ((h.live _).mpr ⟨x, n, hx, rfl⟩) (he ▸ hfresh)
      · simp only at hd; omega
      · simp only at hd; omega
    rw [hoff' y hy, ← hoff y hy]
    exact hm y (by omega)

end

/-- In every state `s` reached from `kheap_init`: no two adjacent blocks are free; any
    other reachable state with the same live blocks has the same block list; freeing
    live pointers gives the same block list in every order; `kfree` right after a
    successful `kmalloc` restores the block list; and with no live pointer the heap is
    one free block. -/
theorem kheap_canonical (A : HeapArea) (m : Mem) (ops : List HeapOp) (s : HeapState)
    (hrun : run heapStep (heapBoot A m) ops = some s) :
    (blockList s.heap).IsChain (fun b c => ¬(b.free = true ∧ c.free = true)) ∧
      (∀ m' ops' t, run heapStep (heapBoot A m') ops' = some t → liveBlocks s = liveBlocks t →
        blockList s.heap = blockList t.heap) ∧
      (∀ ps qs : List ℕ, ps.Nodup → (∀ p ∈ ps, p ∈ s.live) → ps.Perm qs →
        blockList (ps.foldl kfree s.heap) = blockList (qs.foldl kfree s.heap)) ∧
      (∀ size p heap, size < 2 ^ 32 → kmalloc s.heap size = some (p, heap) → p ≠ 0 →
        blockList (kfree heap p) = blockList s.heap) ∧
      (s.live = [] → blockList s.heap = [⟨A.addr, kheapSize - 16, true, 0, 0⟩]) := by
  obtain ⟨cs, hinv⟩ := heapInv_run hrun
  refine ⟨?_, ?_, ?_, ?_, ?_⟩
  · rw [hinv.blockList_eq]
    have hcan := hinv.canonical
    rw [← map_cellBlocks 0 A.addr cs] at hcan
    exact (List.isChain_map _).mp hcan
  · intro m' ops' t hrun' hlive
    obtain ⟨ds, hinv'⟩ := heapInv_run hrun'
    exact blockList_unique hinv hinv' hlive
  · intro ps qs hnodup hps hperm
    obtain ⟨cs1, h1, hu1⟩ := heapInv_kfree_all hinv hnodup hps
    obtain ⟨cs2, h2, hu2⟩ := heapInv_kfree_all hinv (hperm.nodup_iff.mp hnodup)
      fun q hq => hps q (hperm.mem_iff.mpr hq)
    apply blockList_eq_of_used h1 h2
    intro x n
    rw [hu1, hu2, hperm.mem_iff]
  · intro size p heap _ hk hp
    obtain ⟨ds, hds, hused, -⟩ := heapInv_kmalloc_kfree hinv _ hk hp fun _ _ => rfl
    exact blockList_eq_of_used hds hinv hused
  · intro hlive
    have hboot := heapInv_boot A m
    have hb : blockList s.heap = blockList (heapBoot A m).heap := by
      apply blockList_eq_of_used hinv hboot
      intro x n
      constructor
      · intro hx
        have := (hinv.live _).mpr ⟨x, n, hx, rfl⟩
        simp [hlive] at this
      · intro hx
        have := (hboot.live _).mpr ⟨x, n, hx, rfl⟩
        simp [heapBoot] at this
    rw [hb, hboot.blockList_eq]
    rfl

/-- Two blocks allocated and one released. -/
theorem kheap_canonical_at2M :
    ∃ s, run heapStep (heapBoot heapAreaAt2M fun _ => 0)
        [.kmalloc 100, .kmalloc 8, .kfree 0x200010] = some s ∧
      (blockList s.heap).IsChain (fun b c => ¬(b.free = true ∧ c.free = true)) := by
  obtain ⟨s, hs⟩ := Option.isSome_iff_exists.mp (show (run heapStep (heapBoot heapAreaAt2M fun _ => 0)
    [.kmalloc 100, .kmalloc 8, .kfree 0x200010]).isSome = true by decide +kernel)
  exact ⟨s, hs, (kheap_canonical heapAreaAt2M _ _ s hs).1⟩

end NexusKernel.Memory
