import NexusKernel.Common.Heap
import NexusKernel.Memory.KheapCanonical
import NexusKernel.Memory.KheapSizes

/-!
# The kernel heap as its clients see it

The file system and the other clients are verified for every `Heap` that keeps its law.
The allocator of `kheap.c` is one: the live blocks of a represented heap, with the sizes
in their headers.

A client of this heap asks for at most `2 ^ 32 - 8` bytes, so that no request wraps, and
frees live pointers only; a call outside these bounds is not passed on.

Results:
* `lawful_kheapClient`: the law of heaps.
* `blockList_eq_of_clientBlocks`: the live blocks determine the block list.
-/

namespace NexusKernel.Memory

open Tiling

/-- A heap whose memory represents a tiling of `heap_area`. -/
structure ClientHeap (A : HeapArea) where
  state : HeapState
  represented : ∃ cs, HeapInv A state cs

variable {A : HeapArea}

/-- The heap that `kheap_init` leaves. -/
def clientBoot (A : HeapArea) (m : Mem) : ClientHeap A := ⟨heapBoot A m, _, heapInv_boot A m⟩

/-- `kmalloc`, with the pointer added to the live ones. -/
def clientKmalloc (s : ClientHeap A) (size : ℕ) : ℕ × ClientHeap A :=
  if size ≤ 2 ^ 32 - 8 then
    match hk : kmalloc s.state.heap size with
    | none => (0, s)
    | some r => (r.1, ⟨{ heap := r.2, live := if r.1 = 0 then s.state.live else r.1 :: s.state.live }, by
        obtain ⟨cs, h⟩ := s.represented
        obtain ⟨cs', h', -⟩ := heapInv_kmalloc h hk
        exact ⟨cs', h'⟩⟩)
  else (0, s)

/-- `kfree` of a live pointer. -/
def clientKfree (s : ClientHeap A) (ptr : ℕ) : ClientHeap A :=
  if hptr : ptr ∈ s.state.live then
    ⟨{ heap := kfree s.state.heap ptr, live := s.state.live.erase ptr }, by
      obtain ⟨cs, h⟩ := s.represented
      obtain ⟨cs', h', -⟩ := heapInv_kfree h hptr
      exact ⟨cs', h'⟩⟩
  else s

/-- The heap of `kheap.c`. -/
def kheapClient (A : HeapArea) : Heap (ClientHeap A) where
  kmalloc := clientKmalloc
  kfree := clientKfree

/-- The size of the live block at `p`, by its header. -/
def clientBlocks (s : ClientHeap A) (p : ℕ) : Option ℕ :=
  if p ∈ s.state.live then some (blockSize s.state.heap.mem (p - 16)) else none

theorem clientBlocks_eq_some_iff {s : ClientHeap A} {p n : ℕ} :
    clientBlocks s p = some n ↔ (p, n) ∈ liveBlocks s.state := by
  unfold clientBlocks liveBlocks
  split_ifs with hp <;> simp [hp]

/-- What `clientKmalloc` did: nothing, or what `kmalloc` did when it found a block. -/
theorem clientKmalloc_cases (s : ClientHeap A) (size : ℕ) :
    clientKmalloc s size = (0, s) ∨
      ∃ p heap, size ≤ 2 ^ 32 - 8 ∧ kmalloc s.state.heap size = some (p, heap) ∧ p ≠ 0 ∧
        (clientKmalloc s size).1 = p ∧
        (clientKmalloc s size).2.state = { heap := heap, live := p :: s.state.live } := by
  unfold clientKmalloc
  split_ifs with hsize
  · split
    · exact Or.inl rfl
    · rename_i r hk
      obtain ⟨cs, h⟩ := s.represented
      by_cases hr : r.1 = 0
      · left
        have hheap := h.kmalloc_fail hk hr
        refine Prod.ext hr ?_
        simp only [hheap, if_true]
      · exact Or.inr ⟨r.1, r.2, hsize, hk, hr, rfl, by simp only [if_neg hr]⟩
  · exact Or.inl rfl

/-- `clientKfree` of a live pointer takes its block out of the live ones. -/
theorem liveBlocks_clientKfree {s : ClientHeap A} {ptr : ℕ} (hptr : ptr ∈ s.state.live) {p n : ℕ} :
    (p, n) ∈ liveBlocks (clientKfree s ptr).state ↔ (p, n) ∈ liveBlocks s.state ∧ p ≠ ptr := by
  obtain ⟨cs, h⟩ := s.represented
  obtain ⟨cs', h', hused, -⟩ := heapInv_kfree h hptr
  have hstate : (clientKfree s ptr).state =
      { heap := kfree s.state.heap ptr, live := s.state.live.erase ptr } := by
    rw [clientKfree, dif_pos hptr]
  rw [hstate]
  constructor
  · intro hp
    obtain ⟨x, n', -, rfl⟩ := (h'.live p).mp hp.1
    obtain ⟨hx, hne⟩ := (hused x n).mp (h'.used_iff.mpr hp)
    exact ⟨h.used_iff.mp hx, hne⟩
  · intro ⟨hp, hne⟩
    obtain ⟨x, n', -, rfl⟩ := (h.live p).mp hp.1
    exact h'.used_iff.mp ((hused x n).mpr ⟨h.used_iff.mpr hp, hne⟩)

/-- A block that `kmalloc` found joins the live ones. -/
theorem liveBlocks_kmalloc {s : HeapState} {cs : List Cell} (h : HeapInv A s cs) {size p : ℕ}
    {heap : Kheap} (hsize : size ≤ 2 ^ 32 - 8) (hk : kmalloc s.heap size = some (p, heap))
    (hp : p ≠ 0) :
    p ∉ s.live ∧ ∃ m, size ≤ m ∧ ∀ q n, (q, n) ∈ liveBlocks { heap := heap, live := p :: s.live } ↔
      (q = p ∧ n = m) ∨ (q, n) ∈ liveBlocks s := by
  obtain ⟨cs', h', hkeep, hblock, -⟩ := heapInv_kmalloc h hk
  simp only [if_neg hp] at h'
  obtain ⟨x, m, hx, rfl, hm⟩ := hblock hp
  have hfresh : x + 16 ∉ s.live := (List.nodup_cons.mp h'.nodup).1
  refine ⟨hfresh, m, (le_roundSize hsize).trans hm, ?_⟩
  intro q n
  constructor
  · intro hq
    obtain ⟨y, n', -, rfl⟩ := (h'.live q).mp hq.1
    have hy := h'.used_iff.mpr hq
    obtain hyx | hlive := List.mem_cons.mp hq.1
    · left
      simp only [Nat.add_right_cancel_iff] at hyx
      subst hyx
      exact ⟨rfl, hy.size_unique (by norm_num) hx⟩
    · right
      obtain ⟨z, k, hz, hzy⟩ := (h.live _).mp hlive
      simp only [Nat.add_right_cancel_iff] at hzy
      subst hzy
      rw [hy.size_unique (by norm_num) (hkeep _ _ hz)]
      exact h.used_iff.mp hz
  · intro hq
    obtain ⟨rfl, rfl⟩ | hq := hq
    · exact h'.used_iff.mp hx
    · obtain ⟨y, n', -, rfl⟩ := (h.live q).mp hq.1
      exact h'.used_iff.mp (hkeep _ _ (h.used_iff.mpr hq))

/-- `clientKmalloc` writes into no live block. -/
theorem clientKmalloc_bytes (s : ClientHeap A) (size : ℕ) {p n : ℕ}
    (hp : (p, n) ∈ liveBlocks s.state) {i : ℕ} (hi : i < n) :
    (clientKmalloc s size).2.state.heap.mem (p + i) = s.state.heap.mem (p + i) := by
  obtain ⟨cs, h⟩ := s.represented
  obtain hfail | ⟨q, heap, -, hk, -, -, hstate⟩ := clientKmalloc_cases s size
  · rw [hfail]
  · obtain ⟨cs', -, hkeep, -, hoff⟩ := heapInv_kmalloc h hk
    obtain ⟨x, n', -, rfl⟩ := (h.live p).mp hp.1
    have hx := hkeep x n (h.used_iff.mpr hp)
    rw [hstate]
    exact hoff _ (offHeaders_of_placed hx (by omega) (by simp only; omega))

theorem lawful_kheapClient (A : HeapArea) : (kheapClient A).Lawful clientBlocks where
  kmalloc_fail s size h0 := by
    obtain hfail | ⟨p, heap, -, -, hp, hfst, -⟩ := clientKmalloc_cases s size
    · exact congrArg (fun r => clientBlocks r.2) hfail
    · exact absurd (hfst.symm.trans h0) hp
  kmalloc_fresh s size h0 := by
    obtain ⟨cs, h⟩ := s.represented
    obtain hfail | ⟨p, heap, hsize, hk, hp, hfst, -⟩ := clientKmalloc_cases s size
    · exact absurd (congrArg Prod.fst hfail) h0
    · show clientBlocks s (clientKmalloc s size).1 = none
      rw [hfst]
      exact if_neg (liveBlocks_kmalloc h hsize hk hp).1
  kmalloc_blocks s size h0 := by
    obtain ⟨cs, h⟩ := s.represented
    obtain hfail | ⟨p, heap, hsize, hk, hp, hfst, hsnd⟩ := clientKmalloc_cases s size
    · exact absurd (congrArg Prod.fst hfail) h0
    · obtain ⟨hfresh, m, hm, hblocks⟩ := liveBlocks_kmalloc h hsize hk hp
      refine ⟨m, hm, ?_⟩
      funext q
      show clientBlocks (clientKmalloc s size).2 q =
        Function.update (clientBlocks s) (clientKmalloc s size).1 (some m) q
      apply Option.ext
      intro n
      rw [clientBlocks_eq_some_iff, hsnd, hblocks, hfst]
      by_cases hq : q = p
      · subst hq
        have hout : ¬ (q, n) ∈ liveBlocks s.state := fun hmem => hfresh hmem.1
        simp [hout, eq_comm]
      · rw [Function.update_of_ne hq, clientBlocks_eq_some_iff]
        simp [hq]
  kfree_blocks s ptr hptr := by
    have hlive : ptr ∈ s.state.live := by
      obtain ⟨n, hn⟩ := Option.isSome_iff_exists.mp hptr
      exact (clientBlocks_eq_some_iff.mp hn).1
    funext p
    apply Option.ext
    intro n
    show clientBlocks (clientKfree s ptr) p = some n ↔ _
    rw [clientBlocks_eq_some_iff, liveBlocks_clientKfree hlive]
    by_cases hp : p = ptr
    · simp [hp]
    · rw [Function.update_of_ne hp, clientBlocks_eq_some_iff]
      simp [hp]
  disjoint s p q m n hp hq hne := by
    obtain ⟨cs, h⟩ := s.represented
    rw [clientBlocks_eq_some_iff] at hp hq
    obtain ⟨x, m', -, rfl⟩ := (h.live p).mp hp.1
    obtain ⟨y, n', -, rfl⟩ := (h.live q).mp hq.1
    obtain ⟨he, -⟩ | hd | hd := placed_disjoint (h.used_iff.mpr hp) (h.used_iff.mpr hq)
    · exact absurd (congrArg (· + 16) he) hne
    · simp only at hd
      omega
    · simp only at hd
      omega

/-- Heaps with the same live blocks have the same block list. -/
theorem blockList_eq_of_clientBlocks {s t : ClientHeap A} (h : clientBlocks s = clientBlocks t) :
    blockList s.state.heap = blockList t.state.heap := by
  obtain ⟨cs, hs⟩ := s.represented
  obtain ⟨ds, ht⟩ := t.represented
  apply blockList_unique hs ht
  ext ⟨p, n⟩
  rw [← clientBlocks_eq_some_iff, ← clientBlocks_eq_some_iff, h]

end NexusKernel.Memory
